import Motmot.Proofs.Paxos.Redecree

/-! The cursor of a prepare leads astray once its allocation has been used again. -/

namespace Motmot

namespace Ilist

/-- An allocation has a number, on the list or outside it. -/
def Numbers (list : Ilist) (addr : Addr) (inum : Nat) : Prop :=
  list.At addr inum ∨
    ∃ gone, list.limbo.find? (fun gone => gone.cell.addr = addr) = some gone ∧
      gone.cell.inum = inum

variable {list : Ilist} {inum : Nat} {addr spare : Addr} {path : List Detached}

/-- What is outside the list is not on it. -/
theorem WellFormed.off_of_find? (wf : list.WellFormed) {gone : Detached}
    (found : list.limbo.find? (fun gone => gone.cell.addr = addr) = some gone) :
    list.onList addr = false := by
  have memGone := List.mem_of_find?_eq_some found
  have same : gone.cell.addr = addr := by simpa using List.find?_some found
  by_contra on
  obtain ⟨cell, mem, equal⟩ := onList_iff.mp (by simpa using on)
  exact wf.apart cell mem gone memGone (equal.trans same.symm)

/-- An allocation with a number is one that was handed out. -/
theorem Numbers.bound (wf : list.WellFormed) (numbers : list.Numbers addr inum) :
    addr < list.brk := by
  rcases numbers with ⟨cell, mem, rfl, -⟩ | ⟨gone, found, -⟩
  · exact wf.linked cell mem
  · have same : gone.cell.addr = addr := by simpa using List.find?_some found
    rw [← same]
    exact wf.unlinked gone (List.mem_of_find?_eq_some found)

/-- An element has the number that it has on the list. -/
theorem Numbers.eq (wf : list.WellFormed) (numbers : list.Numbers addr inum) {cell : Cell}
    (mem : cell ∈ list.cells) (same : cell.addr = addr) : cell.inum = inum := by
  -- The address belongs to one cell of the list, or to one off it.
  rcases numbers with ⟨other, memOther, here, number⟩ | ⟨gone, found, -⟩
  · rw [wf.addr_inj mem memOther (same.trans here.symm)]
    exact number
  · have off := wf.off_of_find? found
    rw [onList_iff.mpr ⟨cell, mem, same⟩] at off
    contradiction

/-- A fresh allocation leaves the numbers of the others as they are. -/
theorem Numbers.alloc (wf : list.WellFormed) (numbers : list.Numbers addr inum) (inst : Instance) :
    (list.alloc inst).Numbers addr inum := by
  -- The new allocation has an address of its own, so the lookup passes over it.
  have bound := numbers.bound wf
  rcases numbers with place | ⟨gone, found, number⟩
  · exact Or.inl place
  · refine Or.inr ⟨gone, ?_, number⟩
    have apart : ¬ list.brk = addr := by
      intro same
      rw [same] at bound
      exact Nat.lt_irrefl _ bound
    simp only [Ilist.alloc, List.find?_cons, apart, decide_false]
    exact found

/-- Writing an allocation outside the list gives it the number that is written. -/
theorem Numbers.modify (numbers : list.Numbers addr inum) (off : list.onList spare = false)
    (inst : Instance) :
    (list.modify spare fun _ => inst).Numbers addr (if addr = spare then inst.hdr.inum
      else inum) := by
  -- An element is not the one that is written, since that one is off the list.
  rcases numbers with ⟨cell, mem, same, number⟩ | ⟨gone, found, number⟩
  · left
    have apart : addr ≠ spare := by
      rintro rfl
      rw [onList_iff.mpr ⟨cell, mem, same⟩] at off
      contradiction
    rw [if_neg apart, At, modify_cells _ off]
    exact ⟨cell, mem, same, number⟩
  · right
    have same : gone.cell.addr = addr := by simpa using List.find?_some found
    have keeps : ∀ other : Detached, (if other.cell.addr = spare then
        { other with cell.inst := inst } else other).cell.addr = other.cell.addr := by
      intro other
      split <;> rfl
    refine ⟨if gone.cell.addr = spare then { gone with cell.inst := inst } else gone, ?_, ?_⟩
    · simp only [Ilist.modify, List.find?_map, Function.comp_def, keeps, found, Option.map_some]
    · rw [same]
      split
      · rfl
      · exact number

/-- A link leaves an allocation its number. -/
theorem Numbers.insertAfter (wf : list.WellFormed) (numbers : list.Numbers addr inum)
    {lower upper : List Cell} {place cell : Cell} (whole : list.cells = lower ++ place :: upper)
    (same : cell.addr = addr → cell.inum = inum) :
    (list.insertAfter place.addr cell).Numbers addr inum := by
  -- The link puts one allocation on the list and leaves the others where they were.
  have cells := @insertAfter_cells list lower upper place cell wf whole
  by_cases here : cell.addr = addr
  · exact Or.inl ⟨cell, by simp [cells], here, same here⟩
  · rcases numbers with ⟨old, mem, rest⟩ | ⟨gone, found, number⟩
    · refine Or.inl ⟨old, ?_, rest⟩
      rw [cells]
      rw [whole] at mem
      grind
    · refine Or.inr ⟨gone, ?_, number⟩
      simp only [Ilist.insertAfter, find?_filter_limbo (Ne.symm here), found]

/-- A swap leaves an allocation its number. -/
theorem Numbers.swap (wf : list.WellFormed) (numbers : list.Numbers addr inum) {out cell : Cell}
    (memOut : out ∈ list.cells) (same : cell.addr = addr → cell.inum = inum) :
    (list.swap out cell).Numbers addr inum := by
  -- The address is that of the incoming allocation, or it stays where it was.
  by_cases here : cell.addr = addr
  · exact Or.inl ⟨cell, (wf.mem_swap memOut).mpr (Or.inl rfl), here, same here⟩
  · rcases numbers with ⟨old, mem, place, number⟩ | ⟨gone, found, number⟩
    · by_cases equal : old = out
      · -- The element that is put out keeps its number.
        subst equal
        refine Or.inr ⟨⟨old, some cell.addr⟩, ?_, number⟩
        simp [Ilist.swap, place]
      · exact Or.inl ⟨old, (wf.mem_swap memOut).mpr (Or.inr ⟨mem, equal⟩), place, number⟩
    · refine Or.inr ⟨gone, ?_, number⟩
      have off := wf.off_of_find? found
      have apart : ¬ out.addr = addr := by
        intro equal
        rw [onList_iff.mpr ⟨out, memOut, equal⟩] at off
        contradiction
      simp only [Ilist.swap, List.find?_cons, apart, decide_false,
        find?_filter_limbo (Ne.symm here), found]

/-- The allocations of a trail are found outside the list, under its number. -/
theorem Trail.found {ends : Addr → Prop} (trail : list.Trail inum ends addr path)
    {gone : Detached} (mem : gone ∈ path) :
    list.limbo.find? (fun other => other.cell.addr = gone.cell.addr) = some gone ∧
      gone.cell.inum = inum := by
  -- The trail consists of links that are followed in turn, each found at its own address.
  induction trail with
  | here => simp at mem
  | link found number next rest ih =>
    rcases List.mem_cons.mp mem with rfl | later
    · have same := List.find?_some found
      simp only [decide_eq_true_eq] at same
      rw [same]
      exact ⟨found, number⟩
    · exact ih later

/-- What is found outside the list is what a cursor there refers to. -/
theorem WellFormed.inst?_of_find? (wf : list.WellFormed) {gone : Detached}
    (found : list.limbo.find? (fun gone => gone.cell.addr = addr) = some gone) :
    list.inst? addr = some gone.cell.inst := by
  -- No cell of the list has the address, so the search goes on outside the list.
  have off := wf.off_of_find? found
  have none_ : list.cells.find? (fun cell => cell.addr = addr) = none := by
    rw [List.find?_eq_none]
    intro cell mem same
    rw [onList_iff.mpr ⟨cell, mem, by simpa using same⟩] at off
    contradiction
  simp only [inst?, none_, found, Option.map_some]

/-- A walk along a trail to an allocation past its bound ends on the last stop of the trail. -/
theorem Trail.glb_astray (wf : list.WellFormed) (trail : list.Trail inum (· = spare) addr path)
    {used : Nat} (numbers : list.Numbers spare used) (past : inum < used) {fuel : Nat}
    (enough : path.length < fuel) (behind : Option Addr) :
    list.glb inum fuel behind addr =
      some ((path.getLast?.map fun gone => gone.cell.addr).or behind) := by
  -- Every stop of the trail is within the bound, and where it leads is past it.
  induction trail generalizing fuel behind with
  | here arrives =>
    subst arrives
    obtain ⟨fuel, rfl⟩ : ∃ rest, fuel = rest + 1 := ⟨fuel - 1, by simp at enough; omega⟩
    rcases numbers with ⟨cell, mem, same, number⟩ | ⟨gone, found, number⟩
    · -- On the list the first element already lies past the bound.
      have on := onList_iff.mpr ⟨cell, mem, same⟩
      obtain ⟨front, head, rest, whole, first, tail, -⟩ := split_of_onList on
      obtain rfl : head = cell := wf.addr_inj (by simp [whole]) mem (first.trans same.symm)
      have beyond : head.inum > inum := by omega
      simp only [Ilist.glb, on, if_true, tail, glbWalk, beyond]
      rfl
    · -- Off the list the allocation itself does.
      have off := wf.off_of_find? found
      have beyond : gone.cell.inum > inum := by omega
      simp only [Ilist.glb, off, found, beyond, if_true]
      rfl
  | @link addr gone follow path found number next rest ih =>
    obtain ⟨fuel, rfl⟩ : ∃ rest, fuel = rest + 1 := ⟨fuel - 1, by simp at enough; omega⟩
    have same : gone.cell.addr = addr := by simpa using List.find?_some found
    have off := wf.off_of_find? found
    have within : ¬ gone.cell.inum > inum := by omega
    -- The stop is within the bound, so the walk follows its link and keeps it in mind.
    have shorter : path.length < fuel := by
      simp only [List.length_cons] at enough
      omega
    have onward := ih shorter (some addr)
    simp only [Ilist.glb, off, found, within, next, Bool.false_eq_true, if_false]
    rw [onward, List.getLast?_cons]
    cases path.getLast? with
    | none => simp [same]
    | some last => simp

end Ilist

/--
A cursor leads to an allocation that was used again for a higher number.

The log has a vote for the number of the cursor that was not decreed again.
-/
structure Astray (list : Ilist) (inum : Nat) (start spare : Addr)
  (path : List Detached) : Prop where
  tracks : list.Tracks inum (· = spare) start path
  used : ∃ above, inum < above ∧ list.Numbers spare above
  stale : ∃ inst, list.entries inum = some inst ∧ inst.votes = 0

variable {node mid next : Node} {scratch again : Option Addr} {vote : PackedInstance}
  {votes : List PackedInstance} {it start spare addr : Addr} {inum : Nat} {path : List Detached}

/-- Unpacking a vote gives its number to the allocation that it goes to, and to no other. -/
theorem unpackScratch_numbers {used : Nat} (wf : node.pax.ilist.WellFormed)
    (idle : Spare node.pax.ilist scratch) (numbers : node.pax.ilist.Numbers spare used)
    (unpacked : unpackScratch node scratch vote = (mid, addr)) :
    mid.pax.ilist.Numbers spare (if scratch = some spare then vote.hdr.inum else used) ∧
      (addr = spare → scratch = some spare) := by
  -- A fresh allocation is none that was there, and a spare one is written over.
  unfold unpackScratch at unpacked
  cases scratch with
  | none =>
    obtain ⟨rfl, rfl⟩ := Prod.mk.inj unpacked
    have bound := numbers.bound wf
    refine ⟨numbers.alloc wf _, ?_⟩
    rintro rfl
    exact absurd bound (Nat.lt_irrefl _)
  | some taken =>
    obtain ⟨rfl, rfl⟩ := Prod.mk.inj unpacked
    have written := numbers.modify (idle taken rfl).1 (voteInstance vote)
    refine ⟨?_, fun same => by rw [same]⟩
    by_cases same : spare = taken
    · rw [if_pos same] at written
      rw [if_pos (by rw [same])]
      exact written
    · rw [if_neg same] at written
      rw [if_neg (by simpa using Ne.symm same)]
      exact written

/-- A round of the vote loop leaves it at that the log has a vote for a number. -/
theorem Passes.stale (passes : Passes vote node scratch next again) (wf : node.pax.ilist.WellFormed)
    (idle : Spare node.pax.ilist scratch)
    (stale : ∃ inst, node.pax.ilist.entries inum = some inst ∧ inst.votes = 0) :
    ∃ inst, next.pax.ilist.entries inum = some inst ∧ inst.votes = 0 := by
  -- A round links, swaps or drops its vote, and only a swap touches an entry that is there.
  have unpacks := unpackScratch_unpacks vote idle
  have wfNext := (passes.voteStep idle).wellFormed wf
  obtain ⟨inst, has, none_⟩ := stale
  cases passes with
  | @link mid addr lower place upper unpacked whole less past =>
    rw [unpacked] at unpacks
    obtain ⟨wfMid, cells, -, -⟩ := unpacks.spec wf
    rw [linkScratch_ilist] at wfNext ⊢
    obtain ⟨free, entries⟩ := wfMid.entries_insertAfter wfNext whole less past
    rw [entries_congr cells] at free entries
    refine ⟨inst, ?_, none_⟩
    rw [entries, Function.update_of_ne ?_]
    · exact has
    · -- The number of the vote was free.
      rintro rfl
      rw [has] at free
      contradiction
  | @swap mid addr out unpacked mem same uncommitted higher =>
    rw [unpacked] at unpacks
    obtain ⟨wfMid, cells, -, -⟩ := unpacks.spec wf
    obtain ⟨-, entries⟩ := wfMid.entries_swap wfNext mem same.symm
    rw [entries_congr cells] at entries
    have entries : (mid.setIlist (mid.pax.ilist.swap out
      ⟨addr, voteInstance vote⟩)).pax.ilist.entries
        = _ := entries
    rw [entries, Function.update_apply]
    split
    · exact ⟨_, rfl, rfl⟩
    · exact ⟨inst, has, none_⟩
  | @keep mid addr unpacked =>
    rw [unpacked] at unpacks
    obtain ⟨-, cells, -, -⟩ := unpacks.spec wf
    rw [entries_congr cells]
    exact ⟨inst, has, none_⟩

/-- A round of the vote loop behind the number of a cursor leads it astray, or leaves it there. -/
theorem Passes.astray {used : Nat} (passes : Passes vote node scratch next again)
    (wf : node.pax.ilist.WellFormed) (idle : Spare node.pax.ilist scratch)
    (tracks : node.pax.ilist.Tracks inum (· = spare) start path) (avoids : Avoids scratch path)
    (numbers : node.pax.ilist.Numbers spare used) (above : scratch = some spare ∨ inum < used)
    (higher : scratch = some spare → inum < vote.hdr.inum)
    (stale : ∃ inst, node.pax.ilist.entries inum = some inst ∧ inst.votes = 0) :
    Astray next.pax.ilist inum start spare path ∧ Avoids again path ∧
      (again = some spare → inum < vote.hdr.inum) := by
  have kept := passes.stale wf idle stale
  have unpacks := unpackScratch_unpacks vote idle
  -- The allocation has a number past that of the cursor once the vote is unpacked.
  have past : inum < if scratch = some spare then vote.hdr.inum else used := by
    split
    · rename_i same
      exact higher same
    · rename_i apart
      exact above.resolve_left apart
  generalize reached : (if scratch = some spare then vote.hdr.inum else used) = number at past
  have fits : ∀ {mid addr}, unpackScratch node scratch vote = (mid, addr) → addr = spare →
      vote.hdr.inum = number := by
    intro mid addr unpacked same
    rw [← reached, if_pos ((unpackScratch_numbers wf idle numbers unpacked).2 same)]
  -- The three ways of a round: each keeps the trail, and none puts the allocation on the list.
  cases passes with
  | @link mid addr lower place upper unpacked whole less above =>
    obtain ⟨tracks, apart⟩ := unpackScratch_tracks wf tracks avoids unpacked fun _ same => same
    obtain ⟨numbers, -⟩ := unpackScratch_numbers wf idle numbers unpacked
    rw [reached] at numbers
    rw [unpacked] at unpacks
    obtain ⟨wfMid, -, -, -⟩ := unpacks.spec wf
    refine ⟨⟨?_, ⟨number, past, ?_⟩, kept⟩, by simp [Avoids], by simp⟩
    · rw [linkScratch_ilist]
      exact tracks.insertAfter _ apart fun _ same => same
    · rw [linkScratch_ilist]
      exact numbers.insertAfter wfMid whole (fits unpacked)
  | @swap mid addr out unpacked mem same uncommitted _ =>
    obtain ⟨tracks, apart⟩ := unpackScratch_tracks wf tracks avoids unpacked fun _ same => same
    obtain ⟨numbers, -⟩ := unpackScratch_numbers wf idle numbers unpacked
    rw [reached] at numbers
    rw [unpacked] at unpacks
    obtain ⟨wfMid, -, -, -⟩ := unpacks.spec wf
    refine ⟨⟨tracks.swap wfMid mem apart fun _ same => same,
      ⟨number, past, numbers.swap wfMid mem (fits unpacked)⟩, kept⟩, ?_, ?_⟩
    · intro gone memGone equal
      exact wfMid.apart out mem gone (tracks.mem_limbo memGone) (Option.some.inj equal)
    · -- What is put out has the number of the vote.
      intro equal
      have number_ := numbers.eq wfMid mem (Option.some.inj equal)
      omega
  | @keep mid addr unpacked =>
    obtain ⟨tracks, apart⟩ := unpackScratch_tracks wf tracks avoids unpacked fun _ same => same
    obtain ⟨numbers, taken⟩ := unpackScratch_numbers wf idle numbers unpacked
    rw [reached] at numbers
    refine ⟨⟨tracks, ⟨number, past, numbers⟩, kept⟩, ?_, ?_⟩
    · intro gone memGone equal
      exact apart gone memGone (Option.some.inj equal).symm
    · intro equal
      exact higher (taken (Option.some.inj equal))

/-- A merge that comes to its end has come through a round for its first vote. -/
theorem mergeVotes_passes (wf : node.pax.ilist.WellFormed) (idle : Spare node.pax.ilist scratch)
    (merged : mergeVotes node it scratch (vote :: votes) = .ok next) :
    ∃ mid place again, Passes vote node scratch mid again ∧
      mergeVotes mid place again votes = .ok next := by
  -- The walk either fails, which ends the merge, or rests on an element that decides the round.
  have unpacks := unpackScratch_unpacks vote idle
  unfold mergeVotes at merged
  generalize unpacked : unpackScratch node scratch vote = pair at unpacks merged
  obtain ⟨mid, addr⟩ := pair
  simp only at unpacks merged
  obtain ⟨wfMid, -, -, -⟩ := unpacks.spec wf
  split at merged
  · contradiction
  · contradiction
  · rename_i it walked
    split at merged
    · contradiction
    · rename_i inst held
      split at merged
      · -- The vote is linked behind an element.
        rename_i less
        split at merged
        · contradiction
        · rename_i on
          obtain ⟨front, place, upper, whole, rfl, -, past⟩ :=
            wfMid.getInstanceGlb_spec walked (by simpa using on)
          have mem : place ∈ mid.pax.ilist.cells := by simp [whole]
          obtain rfl : place.inst = inst := by
            simpa [Node.inst?, wfMid.inst?_of_mem mem] using held
          exact ⟨_, _, _, .link unpacked whole less past, merged⟩
      · rename_i notLess
        split at merged
        · rename_i higher
          split at merged
          · contradiction
          · rename_i on
            obtain ⟨front, place, upper, whole, rfl, within, past⟩ :=
              wfMid.getInstanceGlb_spec walked (by simpa using on)
            have mem : place ∈ mid.pax.ilist.cells := by simp [whole]
            obtain rfl : place.inst = inst := by
              simpa [Node.inst?, wfMid.inst?_of_mem mem] using held
            have rank : place.inst.committed = false ∧
                ballotCompare vote.hdr.ballot place.inst.hdr.ballot = .gt := by simpa using higher
            have same : place.inum = vote.hdr.inum := by
              have above : ¬ place.inum < vote.hdr.inum := notLess
              omega
            exact ⟨_, _, _, .swap unpacked mem same rank.1 rank.2, merged⟩
        · exact ⟨_, _, _, .keep unpacked, merged⟩

/-- Further votes leave a cursor astray. -/
theorem mergeVotes_astray (wf : node.pax.ilist.WellFormed) (idle : Spare node.pax.ilist scratch)
    (astray : Astray node.pax.ilist inum start spare path) (avoids : Avoids scratch path)
    (higher : scratch = some spare → ∀ vote ∈ votes, inum < vote.hdr.inum)
    (ascending : votes.Pairwise fun x y => x.hdr.inum < y.hdr.inum)
    (merged : mergeVotes node it scratch votes = .ok next) :
    next.pax.ilist.WellFormed ∧ Astray next.pax.ilist inum start spare path ∧
      ∃ ilist istart, next = { node with pax.ilist := ilist, pax.istart := istart } := by
  -- Each round keeps the cursor astray, and the votes behind it are past the number.
  induction votes generalizing node it scratch with
  | nil =>
    obtain rfl : node = next := by simpa [mergeVotes] using merged
    exact ⟨wf, astray, node.pax.ilist, node.pax.istart, rfl⟩
  | cons vote votes ih =>
    obtain ⟨below, ascending⟩ := List.pairwise_cons.mp ascending
    obtain ⟨mid, place, again, passes, merged⟩ := mergeVotes_passes wf idle merged
    obtain ⟨used, past, numbers⟩ := astray.used
    obtain ⟨still, avoids, onward⟩ := passes.astray wf idle astray.tracks avoids numbers
      (Or.inr past) (fun same => higher same vote List.mem_cons_self) astray.stale
    -- What comes behind the vote is higher still.
    have later : again = some spare → ∀ vote ∈ votes, inum < vote.hdr.inum := by
      intro same other mem
      have less := below other mem
      have above := onward same
      omega
    obtain ⟨wfNext, final, ilist, istart, frame⟩ := ih ((passes.voteStep idle).wellFormed wf)
      (passes.spare wf idle) still avoids later ascending merged
    obtain ⟨list, cursor, rfl⟩ := passes.eq idle
    exact ⟨wfNext, final, ilist, istart, frame⟩

/-- A further promise leaves a cursor astray. -/
theorem mergePromise_astray (wf : node.pax.ilist.WellFormed)
    (astray : Astray node.pax.ilist inum start spare path)
    (ascending : votes.Pairwise fun x y => x.hdr.inum < y.hdr.inum)
    (merged : mergePromise node (some start) votes = .ok next) :
    next.pax.ilist.WellFormed ∧ Astray next.pax.ilist inum start spare path ∧
      -- The first vote is unpacked into a fresh allocation, which is none of the trail.
      ∃ ilist istart, next = { node with pax.ilist := ilist, pax.istart := istart } := by
  -- A promise without votes leaves the node alone, and the others go through the loop.
  cases votes with
  | nil =>
    obtain rfl : node = next := by simpa [mergePromise] using merged
    exact ⟨wf, astray, node.pax.ilist, node.pax.istart, rfl⟩
  | cons vote votes =>
    have merged : mergeVotes node start none (vote :: votes) = .ok next := merged
    exact mergeVotes_astray wf (by simp [Spare]) astray (by simp [Avoids])
      (by simp) ascending merged

/--
A vote that takes a number over puts the end of its trail out.

The allocation that is put out is the one that the next vote is unpacked into.
-/
theorem Casts.taken {place : Addr} (casts : Casts vote node scratch next place again)
    (wf : node.pax.ilist.WellFormed) (idle : Spare node.pax.ilist scratch)
    (leads : node.pax.ilist.Leads vote.hdr.inum start path) (avoids : Avoids scratch path)
    (wins : ¬ Loses node.pax.ilist.entries vote) :
    ∃ spare, again = some spare ∧
      next.pax.ilist.Tracks vote.hdr.inum (· = spare) start path ∧ Avoids again path ∧
      next.pax.ilist.Numbers spare vote.hdr.inum ∧
      ∃ inst, next.pax.ilist.entries vote.hdr.inum = some inst ∧ inst.votes = 0 := by
  -- A link would need the number free, and a kept element would win; only a swap is left.
  have unpacks := unpackScratch_unpacks vote idle
  have wfNext := (casts.passes.voteStep idle).wellFormed wf
  cases casts with
  | @link mid addr lower stop upper unpacked whole less past =>
    -- The number of the vote would be free.
    rw [unpacked] at unpacks
    obtain ⟨wfMid, cells, -, -⟩ := unpacks.spec wf
    rw [linkScratch_ilist] at wfNext
    obtain ⟨free, -⟩ := wfMid.entries_insertAfter wfNext whole less past
    rw [entries_congr cells] at free
    have free : node.pax.ilist.entries vote.hdr.inum = none := free
    refine absurd ?_ wins
    intro inst has
    rw [free] at has
    contradiction
  | @keep mid addr stop unpacked mem same stands =>
    rw [unpacked] at unpacks
    obtain ⟨wfMid, cells, -, -⟩ := unpacks.spec wf
    have held := wfMid.entries_eq_some.mpr ⟨stop, mem, same, rfl⟩
    rw [entries_congr cells] at held
    refine absurd ?_ wins
    intro inst has
    obtain rfl : stop.inst = inst := Option.some.inj (held.symm.trans has)
    exact stands
  | @swap mid addr out unpacked mem same uncommitted higher =>
    obtain ⟨leads, apart⟩ := unpackScratch_leads wf idle leads avoids unpacked
    rw [unpacked] at unpacks
    obtain ⟨wfMid, -, -, -⟩ := unpacks.spec wf
    refine ⟨out.addr, rfl, ?_, ?_, ?_, ?_⟩
    · refine Ilist.Tracks.swap leads wfMid mem apart ?_
      rintro addr ⟨cell, memCell, rfl, here⟩
      rw [wfMid.inum_inj memCell mem (here.trans same.symm)]
    · intro gone memGone equal
      exact wfMid.apart out mem gone (leads.mem_limbo memGone) (Option.some.inj equal)
    · have place : mid.pax.ilist.Numbers out.addr vote.hdr.inum := Or.inl ⟨out, mem, rfl, same⟩
      exact place.swap wfMid mem fun _ => rfl
    · -- The new entry is the vote itself, which nobody has accepted yet.
      exact ⟨voteInstance vote, wfNext.entries_eq_some.mpr
        ⟨_, (wfMid.mem_swap mem).mpr (Or.inl rfl), rfl, rfl⟩, rfl⟩

/-- A vote that takes the number of the cursor over leads it astray if more votes follow. -/
theorem mergePromise_strays (wf : node.pax.ilist.WellFormed)
    (leads : node.pax.ilist.Leads inum start path) (ahead : ∀ vote ∈ votes, inum ≤ vote.hdr.inum)
    (ascending : votes.Pairwise fun x y => x.hdr.inum < y.hdr.inum)
    (taken : ¬ Clear node.pax.ilist.entries inum votes)
    (merged : mergePromise node (some start) votes = .ok next) :
    next.pax.ilist.WellFormed ∧ (∃ spare, Astray next.pax.ilist inum start spare path) ∧
      ∃ ilist istart, next = { node with pax.ilist := ilist, pax.istart := istart } := by
  unfold Clear at taken
  push Not at taken
  obtain ⟨taker, memTaker, rfl, wins⟩ := taken
  -- The votes ascend, so the one for the number of the cursor is the first.
  cases votes with
  | nil => simp at memTaker
  | cons vote rest =>
    obtain ⟨below, order⟩ := List.pairwise_cons.mp ascending
    obtain rfl : taker = vote := by
      rcases List.mem_cons.mp (List.dropLast_subset _ memTaker) with same | later
      · exact same
      · have less := below taker later
        have least := ahead vote List.mem_cons_self
        omega
    cases rest with
    | nil => simp at memTaker
    | cons second rest =>
      have free : Avoids none path := by simp [Avoids]
      have idle : Spare node.pax.ilist none := by simp [Spare]
      obtain ⟨mid, place, again, casts, unfolds⟩ :=
        mergeVotes_cons wf idle leads free (Nat.le_refl _)
      have merged : mergeVotes mid place again (second :: rest) = .ok next := by
        rw [← unfolds]
        exact merged
      have wfMid := (casts.passes.voteStep idle).wellFormed wf
      have idleMid := casts.passes.spare wf idle
      obtain ⟨spare, used, tracks, avoids, numbers, stale⟩ := casts.taken wf idle leads free wins
      -- The second vote is unpacked into the allocation that the trail leads to.
      obtain ⟨last, stop, left, passes, merged⟩ := mergeVotes_passes wfMid idleMid merged
      obtain ⟨behind, order⟩ := List.pairwise_cons.mp order
      have first := below second List.mem_cons_self
      obtain ⟨astray, avoids, -⟩ := passes.astray wfMid idleMid tracks avoids numbers
        (Or.inl used) (fun _ => first) stale
      obtain ⟨wfNext, final, ilist, istart, frame⟩ := mergeVotes_astray
        ((passes.voteStep idleMid).wellFormed wfMid) (passes.spare wfMid idleMid) astray avoids
        (fun _ other mem => Nat.lt_trans first (behind other mem)) order merged
      obtain ⟨list, cursor, rfl⟩ := casts.passes.eq idle
      obtain ⟨list, cursor, rfl⟩ := passes.eq idleMid
      exact ⟨wfNext, ⟨spare, final⟩, ilist, istart, frame⟩

/-- A round of the loop only changes the entry for its number, wherever it comes from. -/
theorem redecree_below (fuel : Nat) (wf : node.pax.ilist.WellFormed) {bound : Nat}
    (ran : redecree fuel node it bound = .ok next) (below : inum < bound) :
    next.pax.ilist.entries inum = node.pax.ilist.entries inum := by
  -- Every round writes at its own number, which is the bound or above it.
  induction fuel generalizing node it bound with
  | zero => simp [redecree] at ran
  | succ fuel ih =>
    unfold redecree at ran
    split at ran
    · contradiction
    · contradiction
    · rename_i it walked
      split at ran
      · contradiction
      · rename_i inst held
        split at ran
        · rename_i less
          split at ran
          · cases ran
            rfl
          · split at ran
            · contradiction
            · -- A null is linked behind an element.
              rename_i on
              obtain ⟨front, place, upper, whole, rfl, -, past⟩ :=
                wf.getInstanceGlb_spec walked (by simpa using on)
              have mem : place ∈ node.pax.ilist.cells := by simp [whole]
              obtain rfl : place.inst = inst := by
                simpa [Node.inst?, wf.inst?_of_mem mem] using held
              have filled := fillNull_wellFormed wf whole less past
              have memNull := mem_fillNull wf bound whole
              simp only at ran
              rw [nullInstance_fillNull] at ran
              have onward := ih (redecreeInstance_wellFormed filled (filled.inst?_of_mem memNull))
                ran (Nat.lt_succ_of_lt below)
              have again : (redecreeInstance (fillNull node place.addr bound) (nextAddr node)
                  (nullInstance node.bumpReqId.pax bound)).pax.ilist.entries = _ :=
                redecreeInstance_entries filled memNull
              rw [onward, again, (fillNull_entries wf whole less past).2]
              have apart : inum ≠ bound := Nat.ne_of_lt below
              exact (Function.update_of_ne apart _ _).trans (Function.update_of_ne apart _ _)
        · split at ran
          · have onward := ih (redecreeInstance_wellFormed wf held) ran (Nat.lt_succ_of_lt below)
            rw [onward]
            cases on : node.pax.ilist.onList it with
            | false =>
              -- What is outside the list has no entry.
              exact congrFun (entries_congr (Ilist.modify_cells _ on)) inum
            | true =>
              rename_i notLess _
              obtain ⟨front, place, upper, whole, rfl, within, past⟩ :=
                wf.getInstanceGlb_spec walked on
              have mem : place ∈ node.pax.ilist.cells := by simp [whole]
              obtain rfl : place.inst = inst := by
                simpa [Node.inst?, wf.inst?_of_mem mem] using held
              have apart : inum ≠ place.inum := by
                have above : ¬ place.inum < bound := notLess
                omega
              exact (congrFun (redecreeInstance_entries wf mem) inum).trans
                (Function.update_of_ne apart _ _)
          · -- The loop only goes on above, where the number below the bound is left alone.
            exact ih wf ran (Nat.lt_succ_of_lt below)

/--
From a cursor that has been led astray, the loop leaves the vote at its number as it was.

It finds no instance at all if the cached one itself was used again, and otherwise one that the log
has not got any more.
-/
theorem redecree_astray (fuel : Nat) (wf : node.pax.ilist.WellFormed)
    (astray : Astray node.pax.ilist inum start spare path)
    (ran : redecree fuel node start inum = .ok next) :
    next.pax.ilist.entries inum = node.pax.ilist.entries inum := by
  -- The walk leaves the trail on its last stop, which is off the list.
  obtain ⟨used, past, numbers⟩ := astray.used
  have short := astray.tracks.order.length_le
  simp only [List.length_reverse] at short
  have walked : node.pax.ilist.getInstanceGlb start inum =
      some ((path.getLast?.map fun gone => gone.cell.addr).or none) :=
    astray.tracks.trail.glb_astray wf numbers past (Nat.lt_succ_of_le short) none
  cases fuel with
  | zero => simp [redecree] at ran
  | succ fuel =>
    cases final : path.getLast? with
    | none => simp [redecree, walked, final, Node.fail] at ran
    | some gone =>
      obtain ⟨found, number⟩ := astray.tracks.trail.found (List.mem_of_getLast? final)
      have held : node.inst? gone.cell.addr = some gone.cell.inst := wf.inst?_of_find? found
      have uncommitted := wf.idle gone (List.mem_of_find?_eq_some found)
      have notLess : ¬ gone.cell.inst.hdr.inum < inum := by
        have same : gone.cell.inst.hdr.inum = inum := number
        omega
      -- The stale instance is decreed, and the loop goes on behind its number.
      have onward : redecree fuel (redecreeInstance node gone.cell.addr gone.cell.inst)
          gone.cell.addr (inum + 1) = .ok next := by
        simpa [redecree, walked, final, held, notLess, uncommitted] using ran
      rw [redecree_below fuel (redecreeInstance_wellFormed wf held) onward (Nat.lt_succ_self _)]
      exact congrFun (entries_congr (Ilist.modify_cells _ (wf.off_of_find? found))) inum

end Motmot
