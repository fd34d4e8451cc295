import Mathlib.Data.List.Basic

/-!
A stream of packed objects, and the unpacker that reads them one token after the other.

An array is announced by its size and a byte string by its length, before anything of it is
written.
Nothing in the stream marks an end, so the unpacker takes a size at its word.
-/

namespace Msgpack

/-- What a packer writes. -/
inductive Token where
  | uint (n : Nat)
  | bool (b : Bool)
  /-- A byte string of this length follows. -/
  | raw (length : Nat)
  | body (bytes : List UInt8)
  /-- This many objects follow. -/
  | array (size : Nat)
  deriving DecidableEq, Repr

/-- What an unpacker reads. -/
inductive Object where
  | uint (n : Nat)
  | bool (b : Bool)
  | raw (bytes : List UInt8)
  | array (objects : List Object)

/-- An array that is being read: how many objects it lacks, and those that it has. -/
structure Frame where
  lacking : Nat
  objects : List Object

/-- What comes of an object that is complete: the whole message, or a place for the next object. -/
inductive Progress where
  | whole (object : Object)
  | more (frames : List Frame)

/-- Puts an object into the innermost array, which may complete it and the arrays around it. -/
def complete : List Frame → Object → Progress
  | [], object => .whole object
  | ⟨lacking, objects⟩ :: frames, object =>
    if lacking ≤ 1 then complete frames (.array (objects ++ [object]))
    else .more (⟨lacking - 1, objects ++ [object]⟩ :: frames)

/-- Reads one message off a stream, or nothing while the message is not complete. -/
def unpack : List Frame → List Token → Option (Object × List Token)
  | _, [] => none
  | frames, .uint n :: rest =>
    match complete frames (.uint n) with
    | .whole object => some (object, rest)
    | .more frames => unpack frames rest
  | frames, .bool b :: rest =>
    match complete frames (.bool b) with
    | .whole object => some (object, rest)
    | .more frames => unpack frames rest
  | frames, .raw length :: .body bytes :: rest =>
    if bytes.length = length then
      match complete frames (.raw bytes) with
      | .whole object => some (object, rest)
      | .more frames => unpack frames rest
    else none
  | _, .raw _ :: _ => none
  | _, .body _ :: _ => none
  | frames, .array size :: rest =>
    if size = 0 then
      match complete frames (.array []) with
      | .whole object => some (object, rest)
      | .more frames => unpack frames rest
    else unpack (⟨size, []⟩ :: frames) rest

/-- Goes on behind an object that is complete. -/
def resume (progress : Progress) (rest : List Token) : Option (Object × List Token) :=
  match progress with
  | .whole object => some (object, rest)
  | .more frames => unpack frames rest

/-- Tokens stand for an object wherever they occur in a stream. -/
def Packs (tokens : List Token) (object : Object) : Prop :=
  ∀ frames rest, unpack frames (tokens ++ rest) = resume (complete frames object) rest

theorem packs_uint (n : Nat) : Packs [.uint n] (.uint n) := by
  intro frames rest
  simp only [List.cons_append, List.nil_append, unpack, resume]

theorem packs_bool (b : Bool) : Packs [.bool b] (.bool b) := by
  intro frames rest
  simp only [List.cons_append, List.nil_append, unpack, resume]

theorem packs_raw (bytes : List UInt8) :
    Packs [.raw bytes.length, .body bytes] (.raw bytes) := by
  intro frames rest
  simp only [List.cons_append, List.nil_append, unpack, resume, if_true]

/-- Tokens stand for a row of objects, one after the other. -/
inductive PacksAll : List Token → List Object → Prop where
  | nil : PacksAll [] []
  | cons {tokens more : List Token} {object : Object} {objects : List Object}
      (first : Packs tokens object) (rest : PacksAll more objects) :
      PacksAll (tokens ++ more) (object :: objects)

/-- The objects of an array complete it together. -/
theorem PacksAll.frame {tokens : List Token} {objects : List Object}
    (packs : PacksAll tokens objects) (filled : objects ≠ []) (seen : List Object)
    (frames : List Frame) (rest : List Token) :
    unpack (⟨objects.length, seen⟩ :: frames) (tokens ++ rest) =
      resume (complete frames (.array (seen ++ objects))) rest := by
  -- By induction on the objects, each of which leaves the array one short less.
  induction packs generalizing seen with
  | nil => exact absurd rfl filled
  | @cons tokens more object objects first packs ih =>
    rw [List.append_assoc, first]
    cases objects with
    | nil =>
      -- The last object completes the array.
      cases packs
      simp [complete]
    | cons next objects =>
      have lacking : ¬ (object :: next :: objects).length ≤ 1 := by simp
      have left : (object :: next :: objects).length - 1 = (next :: objects).length := by simp
      have more := ih (by simp) (seen ++ [object])
      simp only [complete, if_neg lacking, resume, left, more]
      simp

/-- An array that announces as many objects as it packs stands for those objects. -/
theorem packs_array {tokens : List Token} {objects : List Object} {size : Nat}
    (packs : PacksAll tokens objects) (counted : size = objects.length) :
    Packs (.array size :: tokens) (.array objects) := by
  intro frames rest
  -- An empty array is complete when it is announced.
  cases packs with
  | nil =>
    simp only [List.length_nil] at counted
    rw [counted]
    simp [unpack, resume]
  | cons first more =>
    have positive : ¬ size = 0 := by
      rw [counted]
      simp
    have framed := (PacksAll.cons first more).frame (by simp) [] frames rest
    simp only [List.cons_append, unpack, if_neg positive]
    rw [counted, framed]
    simp

/-- Objects that are packed one by one. -/
theorem packsAll_map {α : Type} {pack : α → List Token} {object : α → Object} {items : List α}
    (each : ∀ item ∈ items, Packs (pack item) (object item)) :
    PacksAll (items.flatMap pack) (items.map object) := by
  induction items with
  | nil => exact .nil
  | cons item items ih =>
    rw [List.flatMap_cons, List.map_cons]
    exact .cons (each item (by simp)) (ih fun other mem => each other (by simp [mem]))

/-- A message that stands for an object is read off the front of a stream. -/
theorem Packs.unpack {tokens : List Token} {object : Object} (packs : Packs tokens object)
    (rest : List Token) : unpack [] (tokens ++ rest) = some (object, rest) := by
  rw [packs]
  rfl

/-- The number of objects that an array still lacks is what the tokens must bring. -/
theorem unpack_incomplete {tokens : List Token} {objects : List Object}
    (packs : PacksAll tokens objects) (frame : Frame) (frames : List Frame)
    (short : objects.length < frame.lacking) : Msgpack.unpack (frame :: frames) tokens = none := by
  -- As long as an object is lacking, the frame stays open.
  induction packs generalizing frame with
  | nil => rfl
  | @cons tokens more object objects first packs ih =>
    rw [first]
    simp only [List.length_cons] at short
    have lacking : ¬ frame.lacking ≤ 1 := by omega
    simp only [complete, if_neg lacking, resume]
    apply ih
    simp only
    omega

end Msgpack
