import Mathlib.Data.List.Infix
import Mathlib.Tactic.Choose

/-!
Objects on a stream, and a reader that takes them off as the stream comes in.

However a stream is cut on its way, what is read off it is the same.
-/

namespace Stream

/-- A way to take the next object off the front of a stream, once all of it is there. -/
structure Unpacker (α β : Type) where
  next : List β → Option (α × List β)
  /-- What comes behind an object does not change it. -/
  stable : ∀ {bytes rest : List β} {object : α} (more : List β),
    next bytes = some (object, rest) → next (bytes ++ more) = some (object, rest ++ more)
  consumes : ∀ {bytes rest : List β} {object : α},
    next bytes = some (object, rest) → rest.length < bytes.length

namespace Unpacker

variable {α β : Type} (unpacker : Unpacker α β)

/-- The bytes that stand for an object are read as that object and no further. -/
def Reads (bytes : List β) (object : α) : Prop := unpacker.next bytes = some (object, [])

/-- Takes objects off a stream, as many as a bound allows. -/
def take : Nat → List β → List α × List β
  | 0, bytes => ([], bytes)
  | bound + 1, bytes =>
    match unpacker.next bytes with
    | none => ([], bytes)
    | some (object, rest) => (object :: (take bound rest).1, (take bound rest).2)

/-- Takes all objects off a stream that are there as a whole. -/
def pop (bytes : List β) : List α × List β := unpacker.take bytes.length bytes

variable {unpacker}

/-- A bound beyond the length of a stream is none. -/
theorem take_eq_pop {bound : Nat} {bytes : List β} (enough : bytes.length ≤ bound) :
    unpacker.take bound bytes = unpacker.pop bytes := by
  -- Any two bounds that cover the stream agree, which is shown by induction on the first.
  suffices general : ∀ bound other (bytes : List β), bytes.length ≤ bound → bytes.length ≤ other →
      unpacker.take bound bytes = unpacker.take other bytes from
    general bound bytes.length bytes enough (Nat.le_refl _)
  have idle : ∀ bound (bytes : List β), bytes.length = 0 →
      unpacker.take bound bytes = ([], bytes) := by
    intro bound bytes empty
    cases bound with
    | zero => rfl
    | succ bound =>
      cases found : unpacker.next bytes with
      | none => simp [take, found]
      | some pair =>
        have shorter := unpacker.consumes found
        omega
  intro bound
  induction bound with
  | zero =>
    intro other bytes small _
    rw [idle 0 bytes (by omega), idle other bytes (by omega)]
  | succ bound ih =>
    intro other bytes small fits
    cases other with
    | zero => rw [idle 0 bytes (by omega), idle _ bytes (by omega)]
    | succ other =>
      cases found : unpacker.next bytes with
      | none => simp [take, found]
      | some pair =>
        have shorter := unpacker.consumes found
        have same := ih other pair.2 (by omega) (by omega)
        simp only [take, found, same]

/-- A stream whose first object is not there yet is left alone. -/
theorem pop_waiting {bytes : List β} (waiting : unpacker.next bytes = none) :
    unpacker.pop bytes = ([], bytes) := by
  unfold pop
  cases bytes.length with
  | zero => rfl
  | succ bound => simp [take, waiting]

/-- The first object is taken off, and then what follows it. -/
theorem pop_object {bytes rest : List β} {object : α}
    (found : unpacker.next bytes = some (object, rest)) :
    unpacker.pop bytes = (object :: (unpacker.pop rest).1, (unpacker.pop rest).2) := by
  -- The bound that covers the whole covers what is left behind the first object.
  have shorter := unpacker.consumes found
  obtain ⟨bound, length⟩ : ∃ bound, bytes.length = bound + 1 := ⟨bytes.length - 1, by omega⟩
  have same := @take_eq_pop _ _ unpacker bound rest (by omega)
  unfold pop at same ⊢
  rw [length]
  simp only [take, found, same]

/-- Of a stream that comes in two parts, the second goes on behind what the first has left. -/
theorem pop_append (bytes more : List β) :
    unpacker.pop (bytes ++ more) =
      ((unpacker.pop bytes).1 ++ (unpacker.pop ((unpacker.pop bytes).2 ++ more)).1,
        (unpacker.pop ((unpacker.pop bytes).2 ++ more)).2) := by
  -- By induction on the length of the first part, which each object makes shorter.
  induction size : bytes.length using Nat.strongRecOn generalizing bytes with
  | _ length ih =>
    -- An object that comes first is taken off the longer stream as well, and the rest is shorter.
    cases found : unpacker.next bytes with
    | none => simp [pop_waiting found]
    | some pair =>
      obtain ⟨object, rest⟩ := pair
      have shorter := unpacker.consumes found
      rw [pop_object found, pop_object (unpacker.stable more found),
        ih rest.length (by omega) rest rfl]
      simp

/-- Nothing is left of a stream that is made of the bytes of objects. -/
theorem pop_flatMap {ι : Type} {items : List ι} {pack : ι → List β} {object : ι → α}
    (reads : ∀ item ∈ items, unpacker.Reads (pack item) (object item)) :
    unpacker.pop (items.flatMap pack) = (items.map object, []) := by
  -- By induction on the objects: each is popped, and leaves the bytes of the rest.
  induction items with
  | nil => rfl
  | cons item items ih =>
    have first := unpacker.stable (items.flatMap pack) (reads item List.mem_cons_self)
    rw [List.flatMap_cons, pop_object first, List.nil_append,
      ih fun other mem => reads other (List.mem_cons_of_mem _ mem), List.map_cons]

/-- Of a stream that begins with an object, a part has all of the object or yields nothing. -/
theorem next_of_prefix {pack more bytes : List β} {object : α} (reads : unpacker.Reads pack object)
    (part : bytes <+: pack ++ more) :
    (∃ tail, bytes = pack ++ tail ∧ unpacker.next bytes = some (object, tail)) ∨
      ¬ pack <+: bytes ∧ unpacker.next bytes = none := by
  -- Either the stream has reached the end of the object, or it lies within it.
  by_cases first : pack <+: bytes
  · obtain ⟨tail, rfl⟩ := first
    exact Or.inl ⟨tail, rfl, unpacker.stable tail reads⟩
  · right
    refine ⟨first, ?_⟩
    obtain ⟨missing, split⟩ : bytes <+: pack :=
      (List.prefix_or_prefix_of_prefix part (List.prefix_append _ _)).resolve_right first
    cases found : unpacker.next bytes with
    | none => rfl
    | some pair =>
      -- What would be read here is read of the whole object as well, with nothing left.
      have same := unpacker.stable missing found
      rw [split, reads] at same
      have nothing := (Prod.mk.inj (Option.some.inj same)).2
      have none_ : missing = [] := (List.append_eq_nil_iff.mp nothing.symm).2
      rw [none_, List.append_nil] at split
      exact absurd (split ▸ List.prefix_rfl) first

/-- Nothing is read off an empty stream. -/
theorem next_nil : unpacker.next [] = none := by
  cases found : unpacker.next [] with
  | none => rfl
  | some pair => exact absurd (unpacker.consumes found) (Nat.not_lt_zero _)

/-- What a part of such a stream lacks is what the rest brings. -/
theorem pop_prefix {ι : Type} {items : List ι} {pack : ι → List β} {object : ι → α}
    (reads : ∀ item ∈ items, unpacker.Reads (pack item) (object item)) {bytes : List β}
    (part : bytes <+: items.flatMap pack) : ∃ count rest, count ≤ items.length ∧
      bytes = (items.take count).flatMap pack ++ rest ∧
        unpacker.pop bytes = ((items.take count).map object, rest) := by
  -- By induction on the items, the first of which is taken off before the others are looked at.
  induction items generalizing bytes with
  | nil =>
    obtain rfl : bytes = [] := List.prefix_nil.mp part
    exact ⟨0, [], Nat.le_refl _, rfl, rfl⟩
  | cons item items ih =>
    have whole := reads item List.mem_cons_self
    rw [List.flatMap_cons] at part
    rcases next_of_prefix whole part with ⟨tail, rfl, found⟩ | ⟨-, waiting⟩
    · obtain ⟨count, rest, inside, split, popped⟩ :=
        ih (fun other mem => reads other (List.mem_cons_of_mem _ mem))
          ((List.prefix_append_right_inj _).mp part)
      refine ⟨count + 1, rest, Nat.succ_le_succ inside, ?_, ?_⟩
      · rw [List.take_succ_cons, List.flatMap_cons, List.append_assoc, ← split]
      · rw [pop_object found, popped, List.take_succ_cons, List.map_cons]
    · -- Not even the first object is there as a whole.
      exact ⟨0, bytes, Nat.zero_le _, rfl, pop_waiting waiting⟩

end Unpacker

/-- A reader: the bytes that it holds back, and the objects that it has read. -/
structure Reader (α β : Type) where
  buffer : List β
  objects : List α

namespace Reader

variable {α β : Type} {unpacker : Unpacker α β}

/-- A reader that has not read anything. -/
def fresh : Reader α β := { buffer := [], objects := [] }

/-- Buffers what has come in, and takes off all objects that are there as a whole. -/
def feed (unpacker : Unpacker α β) (reader : Reader α β) (chunk : List β) : Reader α β :=
  { buffer := (unpacker.pop (reader.buffer ++ chunk)).2
    objects := reader.objects ++ (unpacker.pop (reader.buffer ++ chunk)).1 }

variable {ρ : Type}

/--
Takes objects off what a reader holds back and hands each on, as many as a bound allows.

It stops behind an object whose reply is a failure, and leaves what follows where it is.
-/
def takeUntil (unpacker : Unpacker α β) (reply : List α → ρ) (fails : ρ → Bool) :
    Nat → Reader α β → List ρ × Reader α β
  | 0, reader => ([], reader)
  | bound + 1, reader =>
    match unpacker.next reader.buffer with
    | none => ([], reader)
    | some (object, rest) =>
      let taken := { buffer := rest, objects := reader.objects ++ [object] }
      if fails (reply taken.objects) then ([reply taken.objects], taken)
      else (reply taken.objects :: (takeUntil unpacker reply fails bound taken).1,
        (takeUntil unpacker reply fails bound taken).2)

/-- Buffers what has come in, and hands on the objects that are there until one fails. -/
def feedUntil (unpacker : Unpacker α β) (reply : List α → ρ) (fails : ρ → Bool)
    (reader : Reader α β) (chunk : List β) : List ρ × Reader α β :=
  takeUntil unpacker reply fails (reader.buffer ++ chunk).length
    { reader with buffer := reader.buffer ++ chunk }

/-- A reader has taken the first of some items off the stream of their bytes, so far as it came. -/
def Follows {ι : Type} (items : List ι) (pack : ι → List β) (object : ι → α) (arrived : List β)
    (reader : Reader α β) : Prop :=
  ∃ count ≤ items.length, reader.objects = (items.take count).map object ∧
    arrived = (items.take count).flatMap pack ++ reader.buffer

section Until

variable {ι : Type} {items : List ι} {pack : ι → List β} {object : ι → α} {arrived : List β}
  {reply : List α → ρ} {fails : ρ → Bool} {reader : Reader α β}

/-- What a reader has not taken yet of a stream is a part of the items that follow. -/
theorem Follows.part {count : Nat}
    (split : arrived = (items.take count).flatMap pack ++ reader.buffer)
    (come : arrived <+: items.flatMap pack) :
    reader.buffer <+: (items.drop count).flatMap pack := by
  rw [split] at come
  conv at come =>
    rhs
    rw [← List.take_append_drop count items, List.flatMap_append]
  exact (List.prefix_append_right_inj _).mp come

/-- Whatever fails, what a reader hands on are the items in their order. -/
theorem Follows.takeUntil (reads : ∀ item ∈ items, unpacker.Reads (pack item) (object item))
    (come : arrived <+: items.flatMap pack) (bound : Nat)
    (follows : Follows items pack object arrived reader) :
    Follows items pack object arrived (takeUntil unpacker reply fails bound reader).2 := by
  -- One round takes at most the next item, so the place of the reader is kept from round to round.
  induction bound generalizing reader with
  | zero => exact follows
  | succ bound ih =>
    rw [Reader.takeUntil]
    obtain ⟨count, inside, taken, split⟩ := follows
    have part := Follows.part split come
    cases rest : items.drop count with
    | nil =>
      -- Nothing is left, so the reader holds back nothing.
      rw [rest] at part
      have empty : reader.buffer = [] := List.prefix_nil.mp part
      rw [empty, Unpacker.next_nil]
      exact ⟨count, inside, taken, split⟩
    | cons item more =>
      have known : item ∈ items := List.mem_of_mem_drop (rest ▸ List.mem_cons_self)
      have less : count < items.length := by
        have size := congrArg List.length rest
        simp only [List.length_drop, List.length_cons] at size
        omega
      have next : items.take (count + 1) = items.take count ++ [item] := by
        rw [List.take_add_one, ← List.head?_drop, rest]
        rfl
      rw [rest, List.flatMap_cons] at part
      rcases Unpacker.next_of_prefix (reads item known) part with
        ⟨tail, buffer, found⟩ | ⟨-, waiting⟩
      · have after : Follows items pack object arrived
            { buffer := tail, objects := reader.objects ++ [object item] } := by
          refine ⟨count + 1, less, ?_, ?_⟩
          · rw [next, List.map_append, taken, List.map_singleton]
          · rw [next, List.flatMap_append, List.flatMap_singleton, split, buffer,
              List.append_assoc]
        rw [found]
        show Follows _ _ _ _ (if _ then _ else _ : List ρ × Reader α β).2
        split
        · exact after
        · exact ih after
      · rw [waiting]
        exact ⟨count, inside, taken, split⟩

/-- A reader stops only behind a failure, or where no object is there as a whole. -/
theorem takeUntil_stops {bound : Nat} (enough : reader.buffer.length ≤ bound) :
    ((takeUntil unpacker reply fails bound reader).2.objects ≠ [] ∧
        fails (reply (takeUntil unpacker reply fails bound reader).2.objects) = true) ∨
      unpacker.next (takeUntil unpacker reply fails bound reader).2.buffer = none := by
  -- Every round that goes on takes something off the buffer, so the bound is never what stops it.
  induction bound generalizing reader with
  | zero =>
    have empty : reader.buffer = [] := List.eq_nil_of_length_eq_zero (Nat.le_zero.mp enough)
    right
    show unpacker.next reader.buffer = none
    rw [empty, Unpacker.next_nil]
  | succ bound ih =>
    rw [takeUntil]
    cases found : unpacker.next reader.buffer with
    | none => exact Or.inr found
    | some pair =>
      obtain ⟨taken, rest⟩ := pair
      have shorter := unpacker.consumes found
      dsimp only
      split
      · rename_i failed
        exact Or.inl ⟨List.append_ne_nil_of_right_ne_nil _ (List.cons_ne_nil _ _), failed⟩
      · exact ih (by dsimp only; omega)

/-- A reader goes on with the stream where it has stopped. -/
theorem Follows.feedUntil (reads : ∀ item ∈ items, unpacker.Reads (pack item) (object item))
    {chunk : List β} (come : arrived ++ chunk <+: items.flatMap pack)
    (follows : Follows items pack object arrived reader) :
    Follows items pack object (arrived ++ chunk)
      (feedUntil unpacker reply fails reader chunk).2 := by
  obtain ⟨count, inside, taken, split⟩ := follows
  refine Follows.takeUntil reads come _ ⟨count, inside, taken, ?_⟩
  rw [split, List.append_assoc]

/-- A reader that waits for the next object has taken all that are there as a whole. -/
theorem Follows.prompt (reads : ∀ item ∈ items, unpacker.Reads (pack item) (object item))
    {count whole : Nat} (split : arrived = (items.take count).flatMap pack ++ reader.buffer)
    (waiting : unpacker.next reader.buffer = none) (within : whole ≤ items.length)
    (all : (items.take whole).flatMap pack <+: arrived) : whole ≤ count := by
  by_contra beyond
  -- The item behind those that were taken would be there.
  obtain ⟨item, at_⟩ : ∃ item, items[count]? = some item :=
    ⟨_, List.getElem?_eq_getElem (by omega)⟩
  have known : item ∈ items := List.mem_of_getElem? at_
  have next : items.take (count + 1) = items.take count ++ [item] := by
    rw [List.take_add_one, at_]
    rfl
  have some : (items.take (count + 1)).flatMap pack <+: arrived := by
    refine List.IsPrefix.trans ?_ all
    obtain ⟨more, longer⟩ : items.take (count + 1) <+: items.take whole :=
      List.take_prefix_take_left (by omega)
    rw [← longer, List.flatMap_append]
    exact List.prefix_append _ _
  rw [next, List.flatMap_append, List.flatMap_singleton, split] at some
  obtain ⟨tail, buffer⟩ := (List.prefix_append_right_inj _).mp some
  rw [← buffer, unpacker.stable tail (reads item known)] at waiting
  contradiction

end Until

/-- However a stream is cut, it is read as if it had come in at once. -/
theorem feed_chunks (chunks : List (List β)) : chunks.foldl (feed unpacker) fresh =
    { buffer := (unpacker.pop chunks.flatten).2, objects := (unpacker.pop chunks.flatten).1 } := by
  -- By induction on the chunks from the back, since the last chunk is fed last.
  induction chunks using List.reverseRecOn with
  | nil => rfl
  | append_singleton chunks chunk ih =>
    rw [List.foldl_append, List.foldl_cons, List.foldl_nil, ih, List.flatten_append,
      List.flatten_singleton, Unpacker.pop_append]
    rfl

/--
What a reader has read of the objects that were written is the first of them, in their order.

It has read each of them as soon as all of its bytes have come in.
-/
theorem delivers {ι γ : Type} [Nonempty α] {items : List ι} {pack : ι → List β} {view : α → γ}
    {result : ι → γ} (reads : ∀ item ∈ items, ∃ object,
      unpacker.Reads (pack item) object ∧ view object = result item) {chunks : List (List β)}
    (arrived : chunks.flatten <+: items.flatMap pack) : ∃ count, count ≤ items.length ∧
      (chunks.foldl (feed unpacker) fresh).objects.map view = (items.take count).map result ∧
        ∀ whole, whole ≤ items.length → (items.take whole).flatMap pack <+: chunks.flatten →
          whole ≤ count := by
  choose! object reads same using reads
  obtain ⟨count, rest, inside, -, taken⟩ := Unpacker.pop_prefix reads arrived
  refine ⟨count, inside, ?_, fun whole within come => ?_⟩
  · rw [feed_chunks, taken, List.map_map]
    exact List.map_congr_left fun item mem => same item (List.mem_of_mem_take mem)
  · -- What is there as a whole is taken off, whatever has come in behind it.
    obtain ⟨more, come⟩ := come
    have first := Unpacker.pop_flatMap fun item mem =>
      reads item (List.mem_of_mem_take (i := whole) mem)
    rw [← come, Unpacker.pop_append, first] at taken
    have sizes := congrArg List.length (Prod.mk.inj taken).1
    simp only [List.length_append, List.length_map, List.length_take] at sizes
    omega

end Reader

end Stream
