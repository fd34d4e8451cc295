import Motmot.Proofs.Paxos.Cursor

/-! A cursor outside the log leads back to it along the links of what was put out. -/

namespace Motmot

namespace Ilist

/--
The allocations of a number that lead from an address to where a trail ends.

Each of them has been put out of the list by the next one, which had the same number then.
-/
inductive Trail (list : Ilist) (inum : Nat) (ends : Addr → Prop) :
    Addr → List Detached → Prop where
  | here {addr} (arrives : ends addr) : Trail list inum ends addr []
  | link {addr gone follow path}
      (found : list.limbo.find? (fun gone => gone.cell.addr = addr) = some gone)
      (number : gone.cell.inum = inum) (next : gone.next = some follow)
      (rest : Trail list inum ends follow path) : Trail list inum ends addr (gone :: path)

/-- A trail of allocations in the order in which they were put out. -/
structure Tracks (list : Ilist) (inum : Nat) (ends : Addr → Prop) (addr : Addr)
    (path : List Detached) : Prop where
  trail : list.Trail inum ends addr path
  order : path.reverse.Sublist list.limbo

/-- A trail to an element of the number that it has had all along. -/
abbrev Leads (list : Ilist) (inum : Nat) (addr : Addr) (path : List Detached) : Prop :=
  list.Tracks inum (list.At · inum) addr path

variable {list : Ilist} {inum : Nat} {addr : Addr} {path : List Detached}
  {ends arrives : Addr → Prop}

/-- An element is its own trail. -/
theorem At.leads (place : list.At addr inum) : list.Leads inum addr [] :=
  ⟨.here place, List.nil_sublist _⟩

/-- A walk that has come to an element ends somewhere. -/
theorem glbWalk_isSome (bound : Nat) (behind : Addr) (cells : List Cell) :
    ∃ addr, glbWalk bound (some behind) cells = some addr := by
  -- By induction on the elements ahead; the element behind is there to fall back on.
  induction cells generalizing behind with
  | nil => exact ⟨behind, rfl⟩
  | cons cell rest ih =>
    simp only [glbWalk]
    split
    · exact ⟨behind, rfl⟩
    · exact ih cell.addr

/-- The walk of a cursor on the list ends on the last element that is not past the bound. -/
theorem WellFormed.glbWalk_at (wf : list.WellFormed) (place : list.At addr inum) {bound : Nat}
    (le : inum ≤ bound) (behind : Option Addr) :
    ∃ lower cell upper, glbWalk bound behind (list.tailAt addr) = some cell.addr ∧
      list.cells = lower ++ cell :: upper ∧ inum ≤ cell.inum ∧ cell.inum ≤ bound ∧
      ∀ x ∈ upper, bound < x.inum := by
  -- The walk begins in the middle of the list, which is cut at its start.
  obtain ⟨start, mem, same, number⟩ := place
  have on : list.onList addr = true := onList_iff.mpr ⟨start, mem, same⟩
  obtain ⟨front, head, rest, whole, first, tail, -⟩ := split_of_onList on
  obtain rfl : head = start := wf.addr_inj (by simp [whole]) mem (first.trans same.symm)
  -- The first element is not past the bound, so the walk goes on behind it.
  have within : ¬ head.inum > bound := by omega
  obtain ⟨last, walked⟩ := glbWalk_isSome bound head.addr rest
  have unfolded : glbWalk bound behind (list.tailAt addr) = some last := by
    rw [tail]
    simp only [glbWalk, if_neg within]
    exact walked
  rw [unfolded]
  -- It ends on the start itself, or on a later element.
  rcases glbWalk_spec walked with ⟨here, past⟩ | ⟨lower, cell, upper, split, rfl, within, past⟩
  · refine ⟨front, head, rest, by rw [← here], whole, ?_, ?_, wf.past_of_head whole past⟩
    · omega
    · omega
  · have cut : list.cells = (front ++ head :: lower) ++ cell :: upper := by
      rw [whole, split]
      simp
    have order := whole ▸ wf.ascending
    have above := (List.pairwise_cons.mp (List.pairwise_append.mp order).2.1).1 cell
      (by simp [split])
    refine ⟨_, cell, upper, rfl, cut, ?_, within, wf.past_of_head cut past⟩
    omega

/-- A walk along a trail comes to the list, and ends on its last element not past the bound. -/
theorem Trail.glb (wf : list.WellFormed) (trail : list.Trail inum (list.At · inum) addr path)
    {bound : Nat}
    (le : inum ≤ bound) {fuel : Nat} (enough : path.length < fuel) (behind : Option Addr) :
    ∃ lower cell upper, list.glb bound fuel behind addr = some (some cell.addr) ∧
      list.cells = lower ++ cell :: upper ∧ inum ≤ cell.inum ∧ cell.inum ≤ bound ∧
      ∀ x ∈ upper, bound < x.inum := by
  -- Each link of the trail takes one unit of fuel.
  induction trail generalizing fuel behind with
  | here place =>
    obtain ⟨fuel, rfl⟩ : ∃ rest, fuel = rest + 1 := ⟨fuel - 1, by simp at enough; omega⟩
    obtain ⟨cell, mem, same, number⟩ := place
    have on := onList_iff.mpr ⟨cell, mem, same⟩
    obtain ⟨lower, last, upper, walked, rest⟩ :=
      wf.glbWalk_at ⟨cell, mem, same, number⟩ le behind
    refine ⟨lower, last, upper, ?_, rest⟩
    simp only [Ilist.glb, on, if_true, walked]
  -- A link off the list has the number of the trail, so it is passed.
  | @link addr gone follow path found number next rest ih =>
    obtain ⟨fuel, rfl⟩ : ∃ rest, fuel = rest + 1 := ⟨fuel - 1, by simp at enough; omega⟩
    have memGone := List.mem_of_find?_eq_some found
    have same : gone.cell.addr = addr := by simpa using List.find?_some found
    -- What is in limbo is not on the list.
    have off : list.onList addr = false := by
      by_contra on
      obtain ⟨cell, mem, equal⟩ := onList_iff.mp (by simpa using on)
      exact wf.apart cell mem gone memGone (equal.trans same.symm)
    have within : ¬ gone.cell.inum > bound := by omega
    have shorter : path.length < fuel := by
      simp only [List.length_cons] at enough
      omega
    obtain ⟨lower, last, upper, walked, rest⟩ := ih shorter (some addr)
    refine ⟨lower, last, upper, ?_, rest⟩
    simp only [Ilist.glb, off, found, within, next, if_false]
    exact walked

/-- The cursor walk from an address with a trail. -/
theorem Leads.getInstanceGlb (wf : list.WellFormed) (tracks : list.Leads inum addr path)
    {bound : Nat} (le : inum ≤ bound) :
    ∃ lower cell upper, list.getInstanceGlb addr bound = some (some cell.addr) ∧
      list.cells = lower ++ cell :: upper ∧ inum ≤ cell.inum ∧ cell.inum ≤ bound ∧
      ∀ x ∈ upper, bound < x.inum := by
  have short := tracks.order.length_le
  simp only [List.length_reverse] at short
  exact tracks.trail.glb wf le (Nat.lt_succ_of_le short) none

/-- A trail stays where its allocations stay, and goes on from its end. -/
theorem Trail.frame {next : Ilist} {more : List Detached} (trail : list.Trail inum ends addr path)
    (keep : ∀ gone ∈ path, ∀ addr,
      list.limbo.find? (fun gone => gone.cell.addr = addr) = some gone →
        next.limbo.find? (fun gone => gone.cell.addr = addr) = some gone)
    (goes : ∀ addr, ends addr → next.Trail inum arrives addr more) :
    next.Trail inum arrives addr (path ++ more) := by
  -- By induction on the trail: the link is where it was, and so is what follows.
  induction trail with
  | here place => exact goes _ place
  | link found number follows rest ih =>
    have first := keep _ List.mem_cons_self _ found
    have later := ih fun gone mem => keep gone (List.mem_cons_of_mem _ mem)
    exact .link first number follows later

/-- The allocations of a trail are outside the list. -/
theorem Tracks.mem_limbo (tracks : list.Tracks inum ends addr path) {gone : Detached}
    (mem : gone ∈ path) : gone ∈ list.limbo :=
  tracks.order.subset (List.mem_reverse.mpr mem)

/-- A trail that stays as it is. -/
theorem Tracks.frame {next : Ilist} (tracks : list.Tracks inum ends addr path)
    (keep : ∀ gone ∈ path, ∀ addr,
      list.limbo.find? (fun gone => gone.cell.addr = addr) = some gone →
        next.limbo.find? (fun gone => gone.cell.addr = addr) = some gone)
    (still : ∀ addr, ends addr → arrives addr)
    (order : path.reverse.Sublist next.limbo) : next.Tracks inum arrives addr path := by
  refine ⟨?_, order⟩
  have trail := tracks.trail.frame keep fun addr place => .here (still addr place)
  rwa [List.append_nil] at trail

/-- A fresh allocation leaves a trail as it is. -/
theorem Tracks.alloc (wf : list.WellFormed) (tracks : list.Tracks inum ends addr path)
    (inst : Instance) (still : ∀ addr, ends addr → arrives addr) :
    (list.alloc inst).Tracks inum arrives addr path := by
  refine tracks.frame ?_ still (tracks.order.cons _)
  intro gone mem addr found
  have same : gone.cell.addr = addr := by simpa using List.find?_some found
  -- The new allocation has an address past every other one.
  have past := wf.unlinked gone (tracks.mem_limbo mem)
  have apart : ¬ list.brk = addr := by
    intro equal
    rw [same, equal] at past
    exact Nat.lt_irrefl _ past
  simp only [Ilist.alloc, List.find?_cons, apart, decide_false]
  exact found

/-- Writing an allocation that is not on a trail leaves the trail as it is. -/
theorem Tracks.modify (tracks : list.Tracks inum ends addr path) {spare : Addr}
    (avoid : ∀ gone ∈ path, gone.cell.addr ≠ spare) (f : Instance → Instance)
    (still : ∀ addr, ends addr → arrives addr) :
    (list.modify spare f).Tracks inum arrives addr path := by
  -- Nothing on the trail is written.
  have same : path.map (fun gone => if gone.cell.addr = spare then
      { gone with cell.inst := f gone.cell.inst } else gone) = path := by
    conv_rhs => rw [← List.map_id path]
    refine List.map_congr_left fun gone mem => ?_
    rw [if_neg (avoid gone mem), id]
  refine tracks.frame ?_ still ?_
  · intro gone mem addr found
    have keeps : ∀ other : Detached, (if other.cell.addr = spare then
        { other with cell.inst := f other.cell.inst } else other).cell.addr = other.cell.addr := by
      intro other
      split <;> rfl
    simp only [Ilist.modify, List.find?_map, Function.comp_def, keeps, found, Option.map_some,
      if_neg (avoid gone mem)]
  · rw [← same, ← List.map_reverse]
    exact tracks.order.map _

/-- The search for an allocation is not misled by leaving another one out. -/
theorem find?_filter_limbo {limbo : List Detached} {spare addr : Addr} (apart : addr ≠ spare) :
    (limbo.filter fun gone => gone.cell.addr ≠ spare).find? (fun gone => gone.cell.addr = addr) =
      limbo.find? fun gone => gone.cell.addr = addr := by
  rw [List.find?_filter]
  congr 1
  funext gone
  -- What is left out is not what is searched for.
  by_cases same : gone.cell.addr = addr
  · simp [same, apart]
  · simp [same]

/-- The trail is among the allocations but for one that is not on it. -/
theorem Tracks.order_filter (tracks : list.Tracks inum ends addr path) {spare : Addr}
    (avoid : ∀ gone ∈ path, gone.cell.addr ≠ spare) :
    path.reverse.Sublist (list.limbo.filter fun gone => gone.cell.addr ≠ spare) := by
  -- Nothing on the path is left out, so its order is that of the filtered list.
  have kept : path.reverse.filter (fun gone => gone.cell.addr ≠ spare) = path.reverse := by
    rw [List.filter_eq_self]
    intro gone mem
    simpa using avoid gone (List.mem_reverse.mp mem)
  rw [← kept]
  exact tracks.order.filter _

/-- Linking an allocation that is not on a trail leaves the trail as it is. -/
theorem Tracks.insertAfter (tracks : list.Tracks inum ends addr path) (place : Addr) {cell : Cell}
    (avoid : ∀ gone ∈ path, gone.cell.addr ≠ cell.addr)
    (still : ∀ addr, ends addr → arrives addr) :
    (list.insertAfter place cell).Tracks inum arrives addr path := by
  refine tracks.frame ?_ still (tracks.order_filter avoid)
  intro gone mem addr found
  -- An element of the trail is found under its own address, which is not the new one.
  have same : gone.cell.addr = addr := by simpa using List.find?_some found
  have apart : addr ≠ cell.addr := by
    rw [← same]
    exact avoid gone mem
  simp only [Ilist.insertAfter, find?_filter_limbo apart, found]

/-- A swap keeps the allocations of a trail, which are not on the list. -/
theorem Tracks.swap_keeps (tracks : list.Tracks inum ends addr path) (wf : list.WellFormed)
    {out cell : Cell} (memOut : out ∈ list.cells)
    (avoid : ∀ gone ∈ path, gone.cell.addr ≠ cell.addr) :
    ∀ gone ∈ path, ∀ addr, list.limbo.find? (fun gone => gone.cell.addr = addr) = some gone →
      (list.swap out cell).limbo.find? (fun gone => gone.cell.addr = addr) = some gone := by
  intro gone mem addr found
  -- The swap takes the new element from limbo, and adds the one that is put out.
  have here : gone.cell.addr = addr := by simpa using List.find?_some found
  have apart : addr ≠ cell.addr := by
    rw [← here]
    exact avoid gone mem
  -- What is put out was on the list, unlike what is on the trail.
  have other : ¬ out.addr = addr := by
    rw [← here]
    exact wf.apart out memOut gone (tracks.mem_limbo mem)
  simp only [Ilist.swap, List.find?_cons, other, decide_false, find?_filter_limbo apart, found]

/-- A swap leaves a trail as it is as far as it has come. -/
theorem Tracks.swap (tracks : list.Tracks inum ends addr path) (wf : list.WellFormed)
    {out cell : Cell} (memOut : out ∈ list.cells)
    (avoid : ∀ gone ∈ path, gone.cell.addr ≠ cell.addr)
    (still : ∀ addr, ends addr → arrives addr) :
    (list.swap out cell).Tracks inum arrives addr path :=
  tracks.frame (tracks.swap_keeps wf memOut avoid) still ((tracks.order_filter avoid).cons _)

/-- A swap of another number leaves a trail to an element, and one of its number makes it longer. -/
theorem Leads.swap (tracks : list.Leads inum addr path) (wf : list.WellFormed) {out cell : Cell}
    (memOut : out ∈ list.cells) (same : cell.inum = out.inum)
    (avoid : ∀ gone ∈ path, gone.cell.addr ≠ cell.addr) :
    (list.swap out cell).Leads inum addr
      (path ++ if out.inum = inum then [⟨out, some cell.addr⟩] else []) := by
  constructor
  -- The trail is longer by the element that was put out, if the trail has ended there.
  case trail =>
    refine tracks.trail.frame (tracks.swap_keeps wf memOut avoid) ?_
    rintro addr ⟨old, mem, here, number⟩
    by_cases equal : out.inum = inum
    · -- The trail ended on the element that was put out.
      obtain rfl : old = out := wf.inum_inj mem memOut (number.trans equal.symm)
      rw [if_pos equal]
      refine .link ?_ equal rfl (.here ⟨cell, ?_, rfl, same.trans equal⟩)
      · simp [Ilist.swap, here]
      · exact (wf.mem_swap memOut).mpr (Or.inl rfl)
    · rw [if_neg equal]
      refine .here ⟨old, (wf.mem_swap memOut).mpr (Or.inr ⟨mem, ?_⟩), here, number⟩
      rintro rfl
      exact equal number
  case order =>
    have kept := tracks.order_filter avoid
    split
    · rw [List.reverse_append]
      exact kept.cons_cons _
    · rw [List.append_nil]
      exact kept.cons _

end Ilist

end Motmot
