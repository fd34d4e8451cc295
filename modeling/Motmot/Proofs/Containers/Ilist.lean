import Mathlib.Data.List.Nodup
import Motmot.Containers.Ilist
import Motmot.Proofs.Containers.SortedList
import Motmot.Proofs.Types.Compare

/-! The instance list stays an ascending list of distinct allocations under every operation. -/

namespace Motmot

namespace Ilist

/-- What every operation of the protocol keeps of an instance list. -/
structure WellFormed (list : Ilist) : Prop where
  /-- Instance numbers ascend along the list. -/
  ascending : list.cells.Pairwise fun x y => x.inum < y.inum
  /-- No address is linked twice. -/
  distinct : (list.cells.map Cell.addr).Nodup
  /-- An allocation is either linked or not. -/
  apart : ∀ cell ∈ list.cells, ∀ gone ∈ list.limbo, cell.addr ≠ gone.cell.addr
  linked : ∀ cell ∈ list.cells, cell.addr < list.brk
  unlinked : ∀ gone ∈ list.limbo, gone.cell.addr < list.brk
  /-- Nothing outside the list is committed. -/
  idle : ∀ gone ∈ list.limbo, gone.cell.inst.committed = false
  /-- Only what is committed and cached is ever learned. -/
  sound : ∀ cell ∈ list.cells, cell.inst.learned = true →
    cell.inst.committed = true ∧ cell.inst.cached = true

/-- The order of the list as its scans compare it. -/
theorem WellFormed.scanned {list : Ilist} (wf : list.WellFormed) :
    SortedList.Ascending paxidCompare Cell.inum list.cells :=
  wf.ascending.imp fun less => paxidCompare_eq_lt.mpr less

/-- Elements of one address are the same. -/
theorem WellFormed.addr_inj {list : Ilist} (wf : list.WellFormed) {x y : Cell}
    (memx : x ∈ list.cells) (memy : y ∈ list.cells) (same : x.addr = y.addr) : x = y :=
  List.inj_on_of_nodup_map wf.distinct memx memy same

/-- Elements of one number are the same. -/
theorem WellFormed.inum_inj {list : Ilist} (wf : list.WellFormed) {x y : Cell}
    (memx : x ∈ list.cells) (memy : y ∈ list.cells) (same : x.inum = y.inum) : x = y := by
  have numbers : (list.cells.map Cell.inum).Nodup :=
    List.pairwise_map.mpr (wf.ascending.imp fun less => Nat.ne_of_lt less)
  exact List.inj_on_of_nodup_map numbers memx memy same

section Reading

variable {list : Ilist}

/-- An address is on the list exactly when some element has it. -/
theorem onList_iff {addr : Addr} :
    list.onList addr = true ↔ ∃ cell ∈ list.cells, cell.addr = addr := by
  simp [onList]

/-- The instance at an address that is on the list is the element's. -/
theorem WellFormed.mem_of_inst? (wf : list.WellFormed) {addr : Addr} {inst : Instance}
    (held : list.inst? addr = some inst) (on : list.onList addr = true) :
    ⟨addr, inst⟩ ∈ list.cells := by
  obtain ⟨cell, mem, rfl⟩ := onList_iff.mp on
  unfold inst? at held
  split at held
  · -- The first element of that address is the only one.
    rename_i first located
    have same : first.addr = cell.addr := by simpa using List.find?_some located
    have : first = cell := wf.addr_inj (List.mem_of_find?_eq_some located) mem same
    subst this
    obtain rfl : first.inst = inst := by simpa using held
    exact mem
  · rename_i missing
    simpa using List.find?_eq_none.mp missing cell mem

/-- Reading the address of an element gives its instance. -/
theorem WellFormed.inst?_of_mem (wf : list.WellFormed) {cell : Cell} (mem : cell ∈ list.cells) :
    list.inst? cell.addr = some cell.inst := by
  -- The first cell with the address is the only one.
  unfold inst?
  split
  · rename_i first located
    have same : first.addr = cell.addr := by simpa using List.find?_some located
    rw [wf.addr_inj (List.mem_of_find?_eq_some located) mem same]
  · rename_i missing
    simpa using List.find?_eq_none.mp missing cell mem

/-- The instance at an address off the list belongs to a detached allocation. -/
theorem mem_limbo_of_inst? {addr : Addr} {inst : Instance} (held : list.inst? addr = some inst)
    (off : list.onList addr = false) : ∃ gone ∈ list.limbo, gone.cell = ⟨addr, inst⟩ := by
  -- A read finds an element first, and only then a detached allocation.
  unfold inst? at held
  split at held
  · rename_i first located
    have on : list.onList addr = true :=
      onList_iff.mpr ⟨first, List.mem_of_find?_eq_some located,
        by simpa using List.find?_some located⟩
    simp [on] at off
  · obtain ⟨gone, located, rfl⟩ := Option.map_eq_some_iff.mp held
    have same : gone.cell.addr = addr := by simpa using List.find?_some located
    exact ⟨gone, List.mem_of_find?_eq_some located, by rw [← same]⟩

/-- A committed instance is on the list. -/
theorem WellFormed.onList_of_committed (wf : list.WellFormed) {addr : Addr} {inst : Instance}
    (held : list.inst? addr = some inst) (committed : inst.committed = true) :
    list.onList addr = true := by
  by_contra off
  obtain ⟨gone, mem, same⟩ := mem_limbo_of_inst? held (by simpa using off)
  have idle := wf.idle gone mem
  simp [same, committed] at idle

/-- A lookup by number finds exactly the element of that number. -/
theorem WellFormed.find_eq_some (wf : list.WellFormed) {inum : Nat} {cell : Cell} :
    list.find inum = some cell ↔ cell ∈ list.cells ∧ cell.inum = inum := by
  constructor
  · intro found
    exact SortedList.findRev_mem found
  · rintro ⟨mem, rfl⟩
    exact SortedList.findRev_of_mem wf.scanned mem

/-- A lookup by number fails exactly when no element has it. -/
theorem WellFormed.find_eq_none (wf : list.WellFormed) {inum : Nat} :
    list.find inum = none ↔ ∀ cell ∈ list.cells, cell.inum ≠ inum := by
  rw [Option.eq_none_iff_forall_ne_some]
  simp only [ne_eq, wf.find_eq_some]
  exact ⟨fun none cell mem same => none cell ⟨mem, same⟩,
    fun free cell found => free cell found.1 found.2⟩

/-- The list cut at the first element of an address. -/
theorem split_of_onList {addr : Addr} (on : list.onList addr = true) :
    ∃ pre cell post, list.cells = pre ++ cell :: post ∧ cell.addr = addr ∧
      list.tailAt addr = cell :: post ∧ list.next addr = some (post.head?.map Cell.addr) ∧
      list.prev addr = pre.getLast?.map Cell.addr := by
  obtain ⟨cell, mem, same⟩ := onList_iff.mp on
  have cut : ∀ cells : List Cell, cell ∈ cells → ∃ pre cell post,
      cells = pre ++ cell :: post ∧ cell.addr = addr ∧
      cells.dropWhile (fun cell => cell.addr ≠ addr) = cell :: post ∧
      cells.takeWhile (fun cell => cell.addr ≠ addr) = pre := by
    -- The walk stops at the first element of the address.
    intro cells mem
    induction cells with
    | nil => simp at mem
    | cons head rest ih =>
      by_cases here : head.addr = addr
      · exact ⟨[], head, rest, by simp [here]⟩
      · have later : cell ∈ rest := by
          rcases List.mem_cons.mp mem with rfl | later
          · exact absurd same here
          · exact later
        obtain ⟨pre, found, post, rfl, at_addr, dropped, taken⟩ := ih later
        refine ⟨head :: pre, found, post, rfl, at_addr, ?_, ?_⟩
        · exact (List.dropWhile_cons_of_pos (by simpa using here)).trans dropped
        · exact (List.takeWhile_cons_of_pos (by simpa using here)).trans (by rw [taken])
  obtain ⟨pre, found, post, whole, at_addr, dropped, taken⟩ := cut list.cells mem
  refine ⟨pre, found, post, whole, at_addr, dropped, ?_, ?_⟩
  · rw [next, tailAt, dropped]
  · rw [prev, taken]

end Reading

section Writing

variable {list : Ilist}

/-- An element after a write is an element before it, rewritten when it has the address. -/
theorem mem_modify {addr : Addr} {f : Instance → Instance} {cell : Cell} :
    cell ∈ (list.modify addr f).cells ↔
      ∃ old ∈ list.cells, (if old.addr = addr then { old with inst := f old.inst } else old) =
        cell := by
  simp [modify]

/-- A write moves no element. -/
theorem onList_modify (addr other : Addr) (f : Instance → Instance) :
    (list.modify addr f).onList other = list.onList other := by
  -- The write keeps the addresses, which are all that the search looks at.
  have same : ((fun cell : Cell => decide (cell.addr = other)) ∘ fun cell =>
      if cell.addr = addr then { cell with inst := f cell.inst } else cell) =
        fun cell => decide (cell.addr = other) := by
    funext cell
    simp only [Function.comp_apply]
    split <;> rfl
  rw [onList, modify, List.any_map, same, onList]

/-- A write through an address rewrites what a read through it finds. -/
theorem inst?_modify (addr : Addr) (f : Instance → Instance) :
    (list.modify addr f).inst? addr = (list.inst? addr).map f := by
  have cells : (list.modify addr f).cells.find? (fun cell => cell.addr = addr) =
      (list.cells.find? fun cell => cell.addr = addr).map fun cell =>
        { cell with inst := f cell.inst } := by
    simp only [modify, List.find?_map]
    induction list.cells with
    | nil => rfl
    | cons cell rest ih =>
      by_cases same : cell.addr = addr
      · simp [same]
      · simpa [same] using ih
  have limbo : (list.modify addr f).limbo.find? (fun gone => gone.cell.addr = addr) =
      (list.limbo.find? fun gone => gone.cell.addr = addr).map fun gone =>
        { gone with cell.inst := f gone.cell.inst } := by
    simp only [modify, List.find?_map]
    induction list.limbo with
    | nil => rfl
    | cons gone rest ih =>
      by_cases same : gone.cell.addr = addr
      · simp [same]
      · simpa [same] using ih
  unfold inst?
  rw [cells, limbo]
  cases list.cells.find? fun cell => cell.addr = addr with
  | some cell => rfl
  -- A read finds what it found before, since no write changes an address.
  | none => cases list.limbo.find? fun gone => gone.cell.addr = addr <;> rfl

/-- An instance is rewritten where it is held. -/
theorem inst?_rewritten {addr : Addr} {inst : Instance} (held : list.inst? addr = some inst)
    (f : Instance → Instance) : (list.modify addr f).inst? addr = some (f inst) := by
  rw [inst?_modify, held, Option.map_some]

/-- Writes leave every address in its place. -/
theorem modify_addrs (addr : Addr) (f : Instance → Instance) :
    (list.modify addr f).cells.map Cell.addr = list.cells.map Cell.addr := by
  simp only [modify, List.map_map]
  refine List.map_congr_left fun cell _ => ?_
  simp only [Function.comp_apply]
  split <;> rfl

/-- A write through the address of an element rewrites that element. -/
theorem WellFormed.mem_modify_linked (wf : list.WellFormed) {cell other : Cell}
    (mem : cell ∈ list.cells) (f : Instance → Instance) :
    other ∈ (list.modify cell.addr f).cells ↔
      other = { cell with inst := f cell.inst } ∨ other ∈ list.cells ∧ other ≠ cell := by
  -- Addresses are distinct on the list, so only one element is rewritten.
  rw [mem_modify]
  constructor
  · rintro ⟨old, memOld, rfl⟩
    by_cases same : old.addr = cell.addr
    · left
      rw [if_pos same, wf.addr_inj memOld mem same]
    · right
      rw [if_neg same]
      exact ⟨memOld, fun equal => same (by rw [equal])⟩
  · rintro (rfl | ⟨memOther, differ⟩)
    · exact ⟨cell, mem, if_pos rfl⟩
    · exact ⟨other, memOther, if_neg fun same => differ (wf.addr_inj memOther mem same)⟩

/-- A write misses the detached allocations when none of them has the address. -/
theorem modify_limbo {addr : Addr} (f : Instance → Instance)
    (off : ∀ gone ∈ list.limbo, gone.cell.addr ≠ addr) :
      (list.modify addr f).limbo = list.limbo := by
  refine (List.map_congr_left fun gone mem => ?_).trans (List.map_id list.limbo)
  rw [if_neg (off gone mem), id]

/-- A write misses the list when no element has the address. -/
theorem modify_cells {addr : Addr} (f : Instance → Instance) (off : list.onList addr = false) :
    (list.modify addr f).cells = list.cells := by
  refine (List.map_congr_left fun cell mem => ?_).trans (List.map_id list.cells)
  have differ : cell.addr ≠ addr := fun same => by
    simp [onList_iff.mpr ⟨cell, mem, same⟩] at off
  rw [if_neg differ, id]

/-- The elements after a write have the addresses of those before it. -/
theorem exists_of_mem_modify {addr : Addr} {f : Instance → Instance} {cell : Cell}
    (mem : cell ∈ (list.modify addr f).cells) : ∃ old ∈ list.cells, old.addr = cell.addr := by
  have : cell.addr ∈ (list.modify addr f).cells.map Cell.addr := List.mem_map_of_mem mem
  rw [modify_addrs] at this
  simpa using this

/-- Writes that keep the number and the soundness of an element keep the list well formed. -/
theorem WellFormed.modify_linked (wf : list.WellFormed) {cell : Cell} (mem : cell ∈ list.cells)
    {f : Instance → Instance} (keeps : (f cell.inst).hdr.inum = cell.inum)
    (sound : (f cell.inst).learned = true →
      (f cell.inst).committed = true ∧ (f cell.inst).cached = true) :
    (list.modify cell.addr f).WellFormed := by
  -- Nothing off the list has the address of an element.
  have limbo : (list.modify cell.addr f).limbo = list.limbo :=
    modify_limbo f fun gone memGone => (wf.apart cell mem gone memGone).symm
  have number : ∀ old ∈ list.cells, (if old.addr = cell.addr
      then ({ old with inst := f old.inst } : Cell) else old).inum = old.inum := by
    intro old memOld
    split
    · rename_i same
      rw [wf.addr_inj memOld mem same]
      exact keeps
    · rfl
  constructor
  case ascending =>
    -- No element changes its number.
    refine List.pairwise_map.mpr (wf.ascending.imp_of_mem ?_)
    intro x y memx memy less
    rw [number x memx, number y memy]
    exact less
  case distinct =>
    rw [modify_addrs]
    exact wf.distinct
  case apart =>
    intro other memOther gone memGone
    obtain ⟨old, memOld, same⟩ := exists_of_mem_modify memOther
    rw [limbo] at memGone
    rw [← same]
    exact wf.apart old memOld gone memGone
  case linked =>
    intro other memOther
    obtain ⟨old, memOld, same⟩ := exists_of_mem_modify memOther
    rw [← same]
    exact wf.linked old memOld
  case unlinked =>
    rw [limbo]
    exact wf.unlinked
  case idle =>
    rw [limbo]
    exact wf.idle
  case sound =>
    intro other memOther
    rcases (wf.mem_modify_linked mem f).mp memOther with rfl | ⟨memOld, -⟩
    · exact sound
    · exact wf.sound other memOld

/-- Writes to a detached allocation keep the list well formed while they commit nothing. -/
theorem WellFormed.modify_unlinked (wf : list.WellFormed) {addr : Addr}
    {f : Instance → Instance} (off : list.onList addr = false)
    (idle : ∀ inst, inst.committed = false → (f inst).committed = false) :
    (list.modify addr f).WellFormed := by
  have cells : (list.modify addr f).cells = list.cells := modify_cells f off
  -- A detached allocation after the write has the address of one before it, and is idle.
  have limbo : ∀ gone ∈ (list.modify addr f).limbo, ∃ old ∈ list.limbo,
      old.cell.addr = gone.cell.addr ∧
        (old.cell.inst.committed = false → gone.cell.inst.committed = false) := by
    intro gone memGone
    obtain ⟨old, memOld, rfl⟩ := List.mem_map.mp memGone
    refine ⟨old, memOld, ?_⟩
    split
    · exact ⟨rfl, idle old.cell.inst⟩
    · exact ⟨rfl, id⟩
  constructor
  case ascending =>
    rw [cells]
    exact wf.ascending
  case distinct =>
    rw [cells]
    exact wf.distinct
  case apart =>
    rw [cells]
    intro cell mem gone memGone
    obtain ⟨old, memOld, same, -⟩ := limbo gone memGone
    rw [← same]
    exact wf.apart cell mem old memOld
  case linked =>
    rw [cells]
    exact wf.linked
  case unlinked =>
    intro gone memGone
    obtain ⟨old, memOld, same, -⟩ := limbo gone memGone
    rw [← same]
    exact wf.unlinked old memOld
  case idle =>
    intro gone memGone
    obtain ⟨old, memOld, -, keeps⟩ := limbo gone memGone
    exact keeps (wf.idle old memOld)
  case sound =>
    rw [cells]
    exact wf.sound

/-- Allocations outside the list keep it well formed while they are not committed. -/
theorem WellFormed.alloc (wf : list.WellFormed) {inst : Instance}
    (idle : inst.committed = false) : (list.alloc inst).WellFormed := by
  -- The new allocation takes the address that was next, above all that were handed out.
  constructor
  case ascending => exact wf.ascending
  case distinct => exact wf.distinct
  case apart =>
    intro cell mem gone memGone
    rcases List.mem_cons.mp memGone with rfl | memGone
    · exact Nat.ne_of_lt (wf.linked cell mem)
    · exact wf.apart cell mem gone memGone
  case linked => exact fun cell mem => Nat.lt_succ_of_lt (wf.linked cell mem)
  case unlinked =>
    intro gone memGone
    rcases List.mem_cons.mp memGone with rfl | memGone
    · exact Nat.lt_succ_self list.brk
    · exact Nat.lt_succ_of_lt (wf.unlinked gone memGone)
  case idle =>
    intro gone memGone
    rcases List.mem_cons.mp memGone with rfl | memGone
    · exact idle
    · exact wf.idle gone memGone
  case sound => exact wf.sound

/--
An insertion of a number that is not taken links a new element between the lower and the higher.
-/
theorem WellFormed.insert_split (wf : list.WellFormed) {inst : Instance}
    (free : ∀ cell ∈ list.cells, cell.inum ≠ inst.hdr.inum) :
    ∃ lower upper, list.cells = lower ++ upper ∧
      list.insert inst = { list with
        cells := lower ++ ⟨list.brk, inst⟩ :: upper, brk := list.brk + 1 } ∧
      (∀ cell ∈ lower, cell.inum < inst.hdr.inum) ∧ ∀ cell ∈ upper, inst.hdr.inum < cell.inum := by
  -- The insertion from the tail separates the numbers below the new one from those above.
  obtain ⟨inserted, made⟩ : ∃ inserted, SortedList.insertRev paxidCompare Cell.inum
      ⟨list.brk, inst⟩ list.cells = some inserted := SortedList.insertRev_isSome free
  obtain ⟨lower, upper, whole, rfl, below, above⟩ := SortedList.insertRev_split wf.scanned made
  refine ⟨lower, upper, whole, by simp [insert, made], ?_, ?_⟩
  · exact fun cell mem => paxidCompare_eq_lt.mp (below cell mem)
  · exact fun cell mem => paxidCompare_eq_lt.mp (above cell mem)

/-- The elements after an insertion of a number that is not taken. -/
theorem WellFormed.mem_insert (wf : list.WellFormed) {inst : Instance}
    (free : ∀ cell ∈ list.cells, cell.inum ≠ inst.hdr.inum) {cell : Cell} :
    cell ∈ (list.insert inst).cells ↔ cell = ⟨list.brk, inst⟩ ∨ cell ∈ list.cells := by
  obtain ⟨lower, upper, whole, made, -⟩ := wf.insert_split free
  rw [made, whole]
  simp only [List.mem_append, List.mem_cons]
  grind

/-- An insertion of a number that is not taken keeps the list well formed. -/
theorem WellFormed.insert (wf : list.WellFormed) {inst : Instance}
    (free : ∀ cell ∈ list.cells, cell.inum ≠ inst.hdr.inum)
    (sound : inst.learned = true → inst.committed = true ∧ inst.cached = true) :
    (list.insert inst).WellFormed := by
  have mem_insert := fun cell => @WellFormed.mem_insert list wf inst free cell
  obtain ⟨lower, upper, whole, made, below, above⟩ := wf.insert_split free
  rw [made] at mem_insert ⊢
  constructor
  case ascending =>
    -- The new number lies between the two parts.
    have order := whole ▸ wf.ascending
    obtain ⟨first, second, across⟩ := List.pairwise_append.mp order
    refine List.pairwise_append.mpr ⟨first, List.pairwise_cons.mpr ⟨above, second⟩, ?_⟩
    intro x memx y memy
    rcases List.mem_cons.mp memy with rfl | memy
    · exact below x memx
    · exact across x memx y memy
  case distinct =>
    -- The new address was never handed out before.
    have fresh : ∀ cell ∈ list.cells, cell.addr ≠ list.brk :=
      fun cell mem => Nat.ne_of_lt (wf.linked cell mem)
    have nodup := wf.distinct
    rw [whole] at fresh nodup
    simp only [List.map_append, List.map_cons, List.nodup_append, List.nodup_cons,
      List.mem_map, List.mem_cons, List.mem_append] at fresh nodup ⊢
    grind
  case apart =>
    intro cell mem gone memGone
    rcases (mem_insert cell).mp mem with rfl | mem
    · exact Nat.ne_of_gt (wf.unlinked gone memGone)
    · exact wf.apart cell mem gone memGone
  case linked =>
    intro cell mem
    rcases (mem_insert cell).mp mem with rfl | mem
    · exact Nat.lt_succ_self list.brk
    · exact Nat.lt_succ_of_lt (wf.linked cell mem)
  case unlinked => exact fun gone mem => Nat.lt_succ_of_lt (wf.unlinked gone mem)
  case idle => exact wf.idle
  case sound =>
    intro cell mem
    rcases (mem_insert cell).mp mem with rfl | mem
    · exact sound
    · exact wf.sound cell mem

/-- Freeing a prefix keeps the list well formed. -/
theorem WellFormed.dropBelow (wf : list.WellFormed) (inum : Nat) :
    (list.dropBelow inum).WellFormed := by
  -- What is freed is a prefix, so what is left is a sublist, whose links are as they were.
  have sub : (list.dropBelow inum).cells.Sublist list.cells := List.dropWhile_sublist _
  constructor
  case ascending => exact wf.ascending.sublist sub
  case distinct => exact wf.distinct.sublist (sub.map Cell.addr)
  case apart => exact fun cell mem => wf.apart cell (sub.subset mem)
  case linked => exact fun cell mem => wf.linked cell (sub.subset mem)
  case unlinked => exact wf.unlinked
  case idle => exact wf.idle
  case sound => exact fun cell mem => wf.sound cell (sub.subset mem)

/-- What remains after a prefix is freed is exactly what is not numbered below the bound. -/
theorem WellFormed.mem_dropBelow (wf : list.WellFormed) {inum : Nat} {cell : Cell} :
    cell ∈ (list.dropBelow inum).cells ↔ cell ∈ list.cells ∧ inum ≤ cell.inum := by
  have ascending := wf.ascending
  simp only [Ilist.dropBelow]
  generalize list.cells = cells at ascending
  -- The walk frees elements up to the first that is not below the bound.
  induction cells with
  | nil => simp
  | cons head rest ih =>
    -- The first element is the least, so either it is freed or nothing is.
    obtain ⟨least, ascending⟩ := List.pairwise_cons.mp ascending
    by_cases below : head.inum < inum
    · rw [List.dropWhile_cons_of_pos (by simpa using below)]
      have freed : cell ∈ head :: rest ∧ inum ≤ cell.inum ↔ cell ∈ rest ∧ inum ≤ cell.inum := by
        grind
      exact (ih ascending).trans freed.symm
    · rw [List.dropWhile_cons_of_neg (by simpa using below)]
      constructor
      · intro mem
        refine ⟨mem, ?_⟩
        rcases List.mem_cons.mp mem with rfl | later
        · omega
        · have := least cell later
          omega
      · exact fun both => both.1

/-- Linking behind an element splits the list there. -/
theorem linkAfter_split {lower upper : List Cell} {place cell : Cell}
    (distinct : ((lower ++ place :: upper).map Cell.addr).Nodup) :
    linkAfter place.addr cell (lower ++ place :: upper) = lower ++ place :: cell :: upper := by
  -- Elements of other addresses pass through unchanged.
  have pass : ∀ cells : List Cell, (∀ x ∈ cells, x.addr ≠ place.addr) →
      linkAfter place.addr cell cells = cells := by
    intro cells differ
    induction cells with
    | nil => rfl
    | cons head rest ih =>
      have first : head.addr ≠ place.addr := differ head (by simp)
      have later := ih fun x mem => differ x (List.mem_cons_of_mem _ mem)
      simp only [linkAfter] at later
      simp [linkAfter, first, later]
  simp only [List.map_append, List.map_cons, List.nodup_append, List.nodup_cons, List.mem_map,
    List.mem_cons] at distinct
  have before := pass lower (by grind)
  have behind := pass upper (by grind)
  simp only [linkAfter] at before behind ⊢
  simp [before, behind]

/-- The elements after a link, in front of which the list was cut at its place. -/
theorem insertAfter_cells {lower upper : List Cell} {place cell : Cell} (wf : list.WellFormed)
    (whole : list.cells = lower ++ place :: upper) :
    (list.insertAfter place.addr cell).cells = lower ++ place :: cell :: upper := by
  have distinct := wf.distinct
  rw [whole] at distinct
  simp only [insertAfter, whole]
  exact linkAfter_split distinct

/-- Linking an idle allocation between its neighbours keeps the list well formed. -/
theorem WellFormed.insertAfter (wf : list.WellFormed) {lower upper : List Cell}
    {place cell : Cell} (whole : list.cells = lower ++ place :: upper)
    (bound : cell.addr < list.brk) (off : list.onList cell.addr = false)
    (above : place.inum < cell.inum) (below : ∀ x ∈ upper, cell.inum < x.inum)
    (sound : cell.inst.learned = true → cell.inst.committed = true ∧ cell.inst.cached = true) :
    (list.insertAfter place.addr cell).WellFormed := by
  have cells : (list.insertAfter place.addr cell).cells = lower ++ place :: cell :: upper :=
    insertAfter_cells wf whole
  -- The allocation is off the list, so its address is none of an element's.
  have fresh : ∀ x ∈ list.cells, x.addr ≠ cell.addr := by
    intro x mem same
    simp [onList_iff.mpr ⟨x, mem, same⟩] at off
  have members : ∀ x, x ∈ (list.insertAfter place.addr cell).cells ↔
      x = cell ∨ x ∈ list.cells := by
    intro x
    rw [cells, whole]
    simp only [List.mem_append, List.mem_cons]
    grind
  have limbo : ∀ gone ∈ (list.insertAfter place.addr cell).limbo,
      gone ∈ list.limbo ∧ gone.cell.addr ≠ cell.addr := by
    intro gone mem
    simpa [Ilist.insertAfter] using mem
  constructor
  case ascending =>
    -- The new number lies between that of the place and those above it.
    have order := whole ▸ wf.ascending
    obtain ⟨first, second, across⟩ := List.pairwise_append.mp order
    obtain ⟨least, second⟩ := List.pairwise_cons.mp second
    rw [cells]
    refine List.pairwise_append.mpr ⟨first, List.pairwise_cons.mpr ⟨?_,
      List.pairwise_cons.mpr ⟨below, second⟩⟩, ?_⟩
    · intro x mem
      rcases List.mem_cons.mp mem with rfl | mem
      · exact above
      · exact least x mem
    · intro x memx y memy
      have step := across x memx place (by simp)
      rcases List.mem_cons.mp memy with rfl | memy
      · exact step
      · rcases List.mem_cons.mp memy with rfl | memy
        · exact Nat.lt_trans step above
        · exact across x memx y (List.mem_cons_of_mem _ memy)
  case distinct =>
    have nodup := wf.distinct
    rw [whole] at fresh nodup
    rw [cells]
    simp only [List.map_append, List.map_cons, List.nodup_append, List.nodup_cons,
      List.mem_map, List.mem_cons, List.mem_append] at fresh nodup ⊢
    grind
  case apart =>
    intro x mem gone memGone
    obtain ⟨memGone, differ⟩ := limbo gone memGone
    rcases (members x).mp mem with rfl | mem
    · exact differ.symm
    · exact wf.apart x mem gone memGone
  case linked =>
    intro x mem
    rcases (members x).mp mem with rfl | mem
    · exact bound
    · exact wf.linked x mem
  case unlinked => exact fun gone mem => wf.unlinked gone (limbo gone mem).1
  case idle => exact fun gone mem => wf.idle gone (limbo gone mem).1
  case sound =>
    intro x mem
    rcases (members x).mp mem with rfl | mem
    · exact sound
    · exact wf.sound x mem

/-- The elements after a swap. -/
theorem WellFormed.mem_swap (wf : list.WellFormed) {out cell x : Cell}
    (mem : out ∈ list.cells) :
    x ∈ (list.swap out cell).cells ↔ x = cell ∨ x ∈ list.cells ∧ x ≠ out := by
  -- A swap rewrites the one element of the replaced address.
  simp only [Ilist.swap, List.mem_map]
  constructor
  · rintro ⟨old, memOld, rfl⟩
    by_cases same : old.addr = out.addr
    · rw [if_pos same]
      exact Or.inl rfl
    · rw [if_neg same]
      exact Or.inr ⟨memOld, fun equal => same (by rw [equal])⟩
  · rintro (rfl | ⟨memx, differ⟩)
    · exact ⟨out, mem, if_pos rfl⟩
    · exact ⟨x, memx, if_neg fun same => differ (wf.addr_inj memx mem same)⟩

/-- Swapping an idle allocation in for an uncommitted element of its number. -/
theorem WellFormed.swap (wf : list.WellFormed) {out cell : Cell} (mem : out ∈ list.cells)
    (bound : cell.addr < list.brk) (off : list.onList cell.addr = false)
    (same : cell.inum = out.inum) (open_ : out.inst.committed = false)
    (sound : cell.inst.learned = true → cell.inst.committed = true ∧ cell.inst.cached = true) :
    (list.swap out cell).WellFormed := by
  -- The incoming allocation takes the place of one element, which goes off the list.
  have members : ∀ x, x ∈ (list.swap out cell).cells ↔ x = cell ∨ x ∈ list.cells ∧ x ≠ out :=
    fun x => wf.mem_swap mem
  have fresh : ∀ x ∈ list.cells, x.addr ≠ cell.addr := by
    intro x memx equal
    simp [onList_iff.mpr ⟨x, memx, equal⟩] at off
  have limbo : ∀ gone ∈ (list.swap out cell).limbo,
      gone.cell = out ∨ gone ∈ list.limbo ∧ gone.cell.addr ≠ cell.addr := by
    intro gone memGone
    rcases List.mem_cons.mp memGone with rfl | memGone
    · exact Or.inl rfl
    · exact Or.inr (by simpa using memGone)
  constructor
  case ascending =>
    -- The new element has the number of the one it replaces.
    refine List.pairwise_map.mpr (wf.ascending.imp_of_mem ?_)
    intro x y memx memy less
    have number : ∀ z ∈ list.cells, (if z.addr = out.addr then cell else z).inum = z.inum := by
      intro z memz
      split
      · rename_i equal
        rw [wf.addr_inj memz mem equal]
        exact same
      · rfl
    rw [number x memx, number y memy]
    exact less
  case distinct =>
    -- Only the replaced address changes, to one that no element has.
    have nodup := wf.distinct
    have inj : ∀ z ∈ list.cells, z.addr = out.addr → z = out :=
      fun z memz equal => wf.addr_inj memz mem equal
    simp only [Ilist.swap, List.map_map]
    have pairwise := List.pairwise_map.mp nodup
    refine List.pairwise_map.mpr (pairwise.imp_of_mem ?_)
    intro x y memx memy differ
    simp only [Function.comp_apply]
    grind
  case apart =>
    -- The element that went off keeps an address that no other element has.
    intro x memx gone memGone
    rcases limbo gone memGone with rfl | ⟨memGone, differ⟩
    · rcases (members x).mp memx with rfl | ⟨memx, differ⟩
      · exact fun equal => fresh _ mem equal.symm
      · exact fun equal => differ (wf.addr_inj memx mem equal)
    · rcases (members x).mp memx with rfl | ⟨memx, -⟩
      · exact differ.symm
      · exact wf.apart x memx gone memGone
  case linked =>
    intro x memx
    rcases (members x).mp memx with rfl | ⟨memx, -⟩
    · exact bound
    · exact wf.linked x memx
  case unlinked =>
    intro gone memGone
    rcases limbo gone memGone with rfl | ⟨memGone, -⟩
    · exact wf.linked _ mem
    · exact wf.unlinked gone memGone
  case idle =>
    intro gone memGone
    rcases limbo gone memGone with rfl | ⟨memGone, -⟩
    · exact open_
    · exact wf.idle gone memGone
  case sound =>
    intro x memx
    rcases (members x).mp memx with rfl | ⟨memx, -⟩
    · exact sound
    · exact wf.sound x memx

end Writing

section Walking

variable {list : Ilist}

/-- A walk ends behind the first element past the bound. -/
theorem glbWalk_spec {inum : Nat} {behind : Option Addr} {cells : List Cell} {addr : Addr}
    (walked : glbWalk inum behind cells = some addr) :
    (behind = some addr ∧ ∀ x, cells.head? = some x → inum < x.inum) ∨
      ∃ lower cell upper, cells = lower ++ cell :: upper ∧ cell.addr = addr ∧
        cell.inum ≤ inum ∧ ∀ x, upper.head? = some x → inum < x.inum := by
  -- The walk keeps the element that it passed last, and stops at the first past the bound.
  induction cells generalizing behind with
  | nil => exact Or.inl ⟨walked, by simp⟩
  | cons head rest ih =>
    simp only [glbWalk] at walked
    split at walked
    · rename_i past
      refine Or.inl ⟨walked, ?_⟩
      intro x first
      obtain rfl : head = x := by simpa using first
      exact past
    · rename_i within
      right
      rcases ih walked with ⟨here, past⟩ | ⟨lower, cell, upper, rfl, same, bound, past⟩
      · -- The walk stops on this element, since the next one lies past the bound.
        obtain rfl : head.addr = addr := by simpa using here
        exact ⟨[], head, rest, rfl, rfl, by omega, past⟩
      · exact ⟨head :: lower, cell, upper, rfl, same, bound, past⟩

/-- What lies behind the last element not past the bound is past it. -/
theorem WellFormed.past_of_head (wf : list.WellFormed) {lower upper : List Cell} {cell : Cell}
    {inum : Nat} (whole : list.cells = lower ++ cell :: upper)
    (past : ∀ x, upper.head? = some x → inum < x.inum) : ∀ x ∈ upper, inum < x.inum := by
  -- The first element behind is past the bound, and the rest lies above it.
  have order := whole ▸ wf.ascending
  obtain ⟨-, order⟩ := List.pairwise_cons.mp (List.pairwise_append.mp order).2.1
  cases upper with
  | nil => simp
  | cons first rest =>
    intro x mem
    have least : inum < first.inum := past first rfl
    rcases List.mem_cons.mp mem with rfl | later
    · exact least
    · exact Nat.lt_trans least ((List.pairwise_cons.mp order).1 x later)

/--
The walk of a cursor ends on the last element not past the bound.

A cursor outside the list may also end on a detached allocation, or on what it came behind.
-/
theorem WellFormed.glb_spec (wf : list.WellFormed) {inum : Nat} {addr : Addr} (fuel : Nat)
    {behind : Option Addr} {it : Addr} (walked : list.glb inum fuel behind it = some (some addr)) :
    behind = some addr ∨ (∃ gone ∈ list.limbo, gone.cell.addr = addr) ∨
      ∃ lower cell upper, list.cells = lower ++ cell :: upper ∧ cell.addr = addr ∧
        cell.inum ≤ inum ∧ ∀ x ∈ upper, inum < x.inum := by
  -- The fuel bounds how many links of detached instances are followed.
  induction fuel generalizing behind it with
  | zero => simp [glb] at walked
  | succ fuel ih =>
    simp only [glb] at walked
    split at walked
    · -- On the list the walk goes forward from the cursor.
      rename_i on
      obtain ⟨front, start, rest, whole, -, tail, -⟩ := split_of_onList on
      rw [tail] at walked
      rcases glbWalk_spec (Option.some.inj walked) with
        ⟨here, -⟩ | ⟨lower, cell, upper, split, same, bound, past⟩
      · exact Or.inl here
      · have cut : list.cells = (front ++ lower) ++ cell :: upper := by
          rw [whole, split, List.append_assoc]
        exact Or.inr (Or.inr ⟨_, cell, upper, cut, same, bound, wf.past_of_head cut past⟩)
    · split at walked
      · simp at walked
      · rename_i gone located
        split at walked
        · exact Or.inl (Option.some.inj walked)
        · split at walked
          · simp at walked
          · -- Off the list the walk follows the link that is left, with the cursor behind it.
            rcases ih walked with here | limbo | listed
            · have same : gone.cell.addr = it := by simpa using List.find?_some located
              have mem := List.mem_of_find?_eq_some located
              exact Or.inr (Or.inl ⟨gone, mem, by rw [same]; exact Option.some.inj here⟩)
            · exact Or.inr (Or.inl limbo)
            · exact Or.inr (Or.inr listed)

/-- A cursor walk that starts on the list ends on it. -/
theorem onList_of_getInstanceGlb {inum : Nat} {it addr : Addr}
    (walked : list.getInstanceGlb it inum = some (some addr)) (on : list.onList it = true) :
    list.onList addr = true := by
  obtain ⟨front, start, rest, whole, -, tail, -⟩ := split_of_onList on
  simp only [getInstanceGlb, glb, on, if_true, tail] at walked
  rcases glbWalk_spec (Option.some.inj walked) with ⟨here, -⟩ | ⟨lower, cell, upper, cut, same, -⟩
  · contradiction
  · -- The walk ends in the part of the list that it starts with.
    refine onList_iff.mpr ⟨cell, ?_, same⟩
    rw [whole, cut]
    simp

/-- A cursor walk that ends on the list ends on the last element not past the bound. -/
theorem WellFormed.getInstanceGlb_spec (wf : list.WellFormed) {inum : Nat} {it addr : Addr}
    (walked : list.getInstanceGlb it inum = some (some addr)) (on : list.onList addr = true) :
    ∃ lower cell upper, list.cells = lower ++ cell :: upper ∧ cell.addr = addr ∧
      cell.inum ≤ inum ∧ ∀ x ∈ upper, inum < x.inum := by
  rcases wf.glb_spec _ walked with behind | ⟨gone, memGone, same⟩ | listed
  · simp at behind
  · obtain ⟨cell, mem, equal⟩ := onList_iff.mp on
    exact absurd (equal.trans same.symm) (wf.apart cell mem gone memGone)
  · exact listed

end Walking

end Ilist

end Motmot
