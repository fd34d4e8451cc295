import Motmot.Logic.Contest
import Motmot.Proofs.Paxos.Promise
import Motmot.Proofs.Paxos.Steering
import Motmot.Proofs.Paxos.Trail

/-! The votes of a promise are merged into the log: every number gets its highest-ballot vote. -/

namespace Motmot

/-- The instance that the log has for each number. -/
def Ilist.entries (list : Ilist) (inum : Nat) : Option Instance := (list.find inum).map Cell.inst

/-- Whether an instance has a higher ballot than another one. -/
def outranks (x y : Instance) : Bool := ballotCompare x.hdr.ballot y.hdr.ballot = .gt

/-- The number of an instance. -/
abbrev Instance.inum (inst : Instance) : Nat := inst.hdr.inum

/-- What the log holds once a vote has been counted. -/
abbrev counted (entries : Nat → Option Instance) (inst : Instance) : Nat → Option Instance :=
  Contest.run Instance.committed outranks Instance.inum entries inst

theorem Ilist.WellFormed.entries_eq_some {list : Ilist} (wf : list.WellFormed) {inum : Nat}
    {inst : Instance} :
    list.entries inum = some inst ↔ ∃ cell ∈ list.cells, cell.inum = inum ∧ cell.inst = inst := by
  simp only [Ilist.entries, Option.map_eq_some_iff, wf.find_eq_some, and_assoc]

theorem Ilist.WellFormed.entries_eq_none {list : Ilist} (wf : list.WellFormed) {inum : Nat} :
    list.entries inum = none ↔ ¬ list.Has inum := by
  simp only [Ilist.entries, Option.map_eq_none_iff, wf.find_eq_none, Ilist.Has, not_exists, not_and]

/--
One round of the vote loop that comes to its end.

It leads to a state, and to what the next vote is unpacked into.
-/
inductive Passes (vote : PackedInstance) (node : Node) (scratch : Option Addr) :
    Node → Option Addr → Prop where
  | link {mid addr lower place upper} (unpacked : unpackScratch node scratch vote = (mid, addr))
      (whole : mid.pax.ilist.cells = lower ++ place :: upper)
      (less : place.inum < vote.hdr.inum) (past : ∀ x ∈ upper, vote.hdr.inum < x.inum) :
      Passes vote node scratch (linkScratch mid place.addr ⟨addr, voteInstance vote⟩) none
  | swap {mid addr out} (unpacked : unpackScratch node scratch vote = (mid, addr))
      (mem : out ∈ mid.pax.ilist.cells) (same : out.inum = vote.hdr.inum)
      (uncommitted : out.inst.committed = false)
      (higher : ballotCompare vote.hdr.ballot out.inst.hdr.ballot = .gt) :
      Passes vote node scratch
        (mid.setIlist (mid.pax.ilist.swap out ⟨addr, voteInstance vote⟩)) (some out.addr)
  | keep {mid addr} (unpacked : unpackScratch node scratch vote = (mid, addr)) :
      Passes vote node scratch mid (some addr)

/--
One round of the vote loop that comes from an element of the log.

It also leads to where the walk goes on from there.
-/
inductive Casts (vote : PackedInstance) (node : Node) (scratch : Option Addr) :
    Node → Addr → Option Addr → Prop where
  | link {mid addr lower place upper} (unpacked : unpackScratch node scratch vote = (mid, addr))
      (whole : mid.pax.ilist.cells = lower ++ place :: upper)
      (less : place.inum < vote.hdr.inum) (past : ∀ x ∈ upper, vote.hdr.inum < x.inum) :
      Casts vote node scratch (linkScratch mid place.addr ⟨addr, voteInstance vote⟩) place.addr none
  | swap {mid addr out} (unpacked : unpackScratch node scratch vote = (mid, addr))
      (mem : out ∈ mid.pax.ilist.cells) (same : out.inum = vote.hdr.inum)
      (uncommitted : out.inst.committed = false)
      (higher : ballotCompare vote.hdr.ballot out.inst.hdr.ballot = .gt) :
      Casts vote node scratch
        (mid.setIlist (mid.pax.ilist.swap out ⟨addr, voteInstance vote⟩)) addr (some out.addr)
  | keep {mid addr place} (unpacked : unpackScratch node scratch vote = (mid, addr))
      (mem : place ∈ mid.pax.ilist.cells) (same : place.inum = vote.hdr.inum)
      (stands : place.inst.committed = true ∨
        ballotCompare vote.hdr.ballot place.inst.hdr.ballot ≠ .gt) :
      Casts vote node scratch mid place.addr (some addr)

/-- A scratch allocation is outside the list. -/
def Spare (list : Ilist) (scratch : Option Addr) : Prop :=
  ∀ addr, scratch = some addr → list.onList addr = false ∧ addr < list.brk

/-- A scratch allocation is not one of those that were put out on the way. -/
def Avoids (scratch : Option Addr) (path : List Detached) : Prop :=
  ∀ gone ∈ path, scratch ≠ some gone.cell.addr

variable {node mid next : Node} {scratch again : Option Addr} {vote : PackedInstance}
  {votes : List PackedInstance} {addr it place : Addr} {inum : Nat} {path : List Detached}

/-- Unpacking a vote leaves a trail as it is. -/
theorem unpackScratch_tracks {ends arrives : Addr → Prop} (wf : node.pax.ilist.WellFormed)
    (tracks : node.pax.ilist.Tracks inum ends it path) (avoids : Avoids scratch path)
    (unpacked : unpackScratch node scratch vote = (mid, addr))
    (still : ∀ addr, ends addr → arrives addr) :
    mid.pax.ilist.Tracks inum arrives it path ∧ ∀ gone ∈ path, gone.cell.addr ≠ addr := by
  -- With nothing spare the vote is unpacked into a new allocation, else into the spare one.
  unfold unpackScratch at unpacked
  cases scratch with
  | none =>
    obtain ⟨rfl, rfl⟩ := Prod.mk.inj unpacked
    refine ⟨tracks.alloc wf _ still, ?_⟩
    intro gone mem
    exact Nat.ne_of_lt (wf.unlinked gone (tracks.mem_limbo mem))
  | some used =>
    obtain ⟨rfl, rfl⟩ := Prod.mk.inj unpacked
    have apart : ∀ gone ∈ path, gone.cell.addr ≠ used := by
      intro gone mem same
      exact avoids gone mem (by rw [same])
    exact ⟨tracks.modify apart (fun _ => voteInstance vote) still, apart⟩

/-- Unpacking a vote leaves a trail to an element as it is. -/
theorem unpackScratch_leads (wf : node.pax.ilist.WellFormed) (spare : Spare node.pax.ilist scratch)
    (leads : node.pax.ilist.Leads inum it path) (avoids : Avoids scratch path)
    (unpacked : unpackScratch node scratch vote = (mid, addr)) :
    mid.pax.ilist.Leads inum it path ∧ ∀ gone ∈ path, gone.cell.addr ≠ addr := by
  -- The scratch is off the list, so no element of the trail is moved.
  have unpacks := unpackScratch_unpacks vote spare
  rw [unpacked] at unpacks
  obtain ⟨-, cells, -, -⟩ := unpacks.spec wf
  have cells : mid.pax.ilist.cells = node.pax.ilist.cells := cells
  refine unpackScratch_tracks wf leads avoids unpacked ?_
  intro addr place
  rwa [Ilist.At, cells]

/-- A round of the vote loop from a trail that does not lie past the vote comes to its end. -/
theorem mergeVotes_cons (wf : node.pax.ilist.WellFormed) (spare : Spare node.pax.ilist scratch)
    (leads : node.pax.ilist.Leads inum it path) (avoids : Avoids scratch path)
    (le : inum ≤ vote.hdr.inum) :
    ∃ next place again, Casts vote node scratch next place again ∧
      ∀ votes, mergeVotes node it scratch (vote :: votes) = mergeVotes next place again votes := by
  have unpacks := unpackScratch_unpacks vote spare
  generalize unpacked : unpackScratch node scratch vote = pair at unpacks
  obtain ⟨mid, addr⟩ := pair
  simp only at unpacks
  obtain ⟨wfMid, cells, off, bound⟩ := unpacks.spec wf
  obtain ⟨leads, -⟩ := unpackScratch_leads wf spare leads avoids unpacked
  -- The walk ends on an element of the list.
  obtain ⟨lower, cell, upper, walked, whole, -, within, past⟩ := leads.getInstanceGlb wfMid le
  have mem : cell ∈ mid.pax.ilist.cells := by simp [whole]
  have held : mid.inst? cell.addr = some cell.inst := wfMid.inst?_of_mem mem
  have on : mid.pax.ilist.onList cell.addr = true := Ilist.onList_iff.mpr ⟨cell, mem, rfl⟩
  -- The element is below the vote, or has its number; then the vote outranks it or does not.
  by_cases less : cell.inst.hdr.inum < vote.hdr.inum
  · refine ⟨_, _, _, .link unpacked whole less past, ?_⟩
    intro votes
    simp only [mergeVotes, unpacked, walked, held, less, on, if_true, Bool.not_true,
      Bool.false_eq_true, if_false]
  · have same : cell.inum = vote.hdr.inum := by
      have notLess : ¬ cell.inum < vote.hdr.inum := less
      omega
    by_cases higher : (!cell.inst.committed &&
        ballotCompare vote.hdr.ballot cell.inst.hdr.ballot = .gt) = true
    · have parts : cell.inst.committed = false ∧
          ballotCompare vote.hdr.ballot cell.inst.hdr.ballot = .gt := by simpa using higher
      refine ⟨_, _, _, .swap unpacked mem same parts.1 parts.2, ?_⟩
      intro votes
      have open_ : cell.inst.committed = false ∧
          ballotCompare vote.hdr.ballot cell.inst.hdr.ballot = .gt := parts
      simp [mergeVotes, unpacked, walked, held, less, on, open_]
    · have stands : cell.inst.committed = true ∨
          ballotCompare vote.hdr.ballot cell.inst.hdr.ballot ≠ .gt := by
        cases committed : cell.inst.committed with
        | true => simp
        | false => simpa [committed] using higher
      refine ⟨_, _, _, .keep unpacked mem same stands, ?_⟩
      intro votes
      rcases stands with committed | lower_
      · simp [mergeVotes, unpacked, walked, held, less, committed]
      · simp [mergeVotes, unpacked, walked, held, less, lower_]

/-- A round that comes from an element of the log is a round. -/
theorem Casts.passes (casts : Casts vote node scratch next place again) :
    Passes vote node scratch next again := by
  cases casts with
  | link unpacked whole less past => exact .link unpacked whole less past
  | swap unpacked mem same uncommitted higher => exact .swap unpacked mem same uncommitted higher
  | keep unpacked => exact .keep unpacked

/-- A round of the vote loop is a step of its vote. -/
theorem Passes.voteStep (passes : Passes vote node scratch next again)
    (spare : Spare node.pax.ilist scratch) : VoteStep vote node next := by
  have unpacks := unpackScratch_unpacks vote spare
  -- The three ways to go on are the three kinds of steps.
  cases passes with
  | link unpacked whole less past =>
    rw [unpacked] at unpacks
    exact .link unpacks whole less past
  | swap unpacked mem same uncommitted higher =>
    rw [unpacked] at unpacks
    exact .swap unpacks mem same uncommitted higher
  | keep unpacked =>
    rw [unpacked] at unpacks
    exact .keep unpacks

/-- The entries are those of the elements. -/
theorem entries_congr {list other : Ilist} (cells : other.cells = list.cells) :
    other.entries = list.entries := by
  funext inum
  simp only [Ilist.entries, Ilist.find, cells]

/-- A list that only differs in the element of one number only differs in the entry for it. -/
theorem Ilist.WellFormed.entries_update {list other : Ilist} {cell : Cell} (wf : list.WellFormed)
    (wfOther : other.WellFormed) (members : ∀ x, x ∈ other.cells ↔
      x = cell ∨ x ∈ list.cells ∧ x.inum ≠ cell.inum) :
    other.entries = Function.update list.entries cell.inum (some cell.inst) := by
  -- Pointwise, at the number of the element and at all others.
  funext inum
  ext inst
  rw [wfOther.entries_eq_some, Function.update_apply]
  split
  · rename_i same
    -- At the number itself there is only the new element.
    constructor
    · rintro ⟨x, mem, number, rfl⟩
      rcases (members x).mp mem with rfl | ⟨-, apart⟩
      · rfl
      · exact absurd (number.trans same) apart
    · intro equal
      exact ⟨cell, (members cell).mpr (Or.inl rfl), same.symm, Option.some.inj equal⟩
  · rename_i apart
    rw [wf.entries_eq_some]
    constructor
    · -- Elsewhere both have the same elements.
      rintro ⟨x, mem, rfl, rfl⟩
      rcases (members x).mp mem with rfl | ⟨old, -⟩
      · exact absurd rfl apart
      · exact ⟨x, old, rfl, rfl⟩
    · rintro ⟨x, mem, rfl, rfl⟩
      exact ⟨x, (members x).mpr (Or.inr ⟨mem, apart⟩), rfl, rfl⟩

/-- A new element of a free number has the entry for it. -/
theorem Ilist.WellFormed.entries_insertAfter {list : Ilist} {lower upper : List Cell}
    {place cell : Cell} (wf : list.WellFormed) (wfNext :
      (list.insertAfter place.addr cell).WellFormed)
    (whole : list.cells = lower ++ place :: upper) (less : place.inum < cell.inum)
    (past : ∀ x ∈ upper, cell.inum < x.inum) :
    list.entries cell.inum = none ∧ (list.insertAfter place.addr cell).entries =
      Function.update list.entries cell.inum (some cell.inst) := by
  -- The elements in front are lower still.
  -- The place is below the new element, and what follows is above it.
  have free : ∀ x ∈ list.cells, x.inum ≠ cell.inum := by
    intro x mem
    have order := whole ▸ wf.ascending
    rw [whole] at mem
    rcases List.mem_append.mp mem with front | back
    · have below := (List.pairwise_append.mp order).2.2 x front place List.mem_cons_self
      omega
    · rcases List.mem_cons.mp back with rfl | behind
      · omega
      · have above := past x behind
        omega
  constructor
  · rw [wf.entries_eq_none]
    rintro ⟨x, mem, number⟩
    exact free x mem number
  · apply wf.entries_update wfNext
    intro x
    rw [insertAfter_cells wf whole]
    have old : x ∈ list.cells ∧ x.inum ≠ cell.inum ↔ x ∈ list.cells :=
      ⟨fun both => both.1, fun mem => ⟨mem, free x mem⟩⟩
    rw [old, whole]
    simp only [List.mem_append, List.mem_cons]
    grind

/-- A swapped element has the entry for its number. -/
theorem Ilist.WellFormed.entries_swap {list : Ilist} {out cell : Cell} (wf : list.WellFormed)
    (wfNext : (list.swap out cell).WellFormed) (mem : out ∈ list.cells)
    (same : cell.inum = out.inum) :
    list.entries cell.inum = some out.inst ∧
      (list.swap out cell).entries = Function.update list.entries cell.inum (some cell.inst) := by
  -- The element that goes out has the same number, so all other entries stand.
  constructor
  · exact wf.entries_eq_some.mpr ⟨out, mem, same.symm, rfl⟩
  · apply wf.entries_update wfNext
    intro x
    rw [wf.mem_swap mem]
    have differ : x ∈ list.cells ∧ x ≠ out ↔ x ∈ list.cells ∧ x.inum ≠ cell.inum := by
      refine and_congr_right fun memx => not_congr ⟨fun equal => by rw [equal, same],
        fun number => ?_⟩
      exact wf.inum_inj memx mem (number.trans same)
    rw [differ]

/-- A round of the vote loop counts its vote. -/
theorem Casts.entries (casts : Casts vote node scratch next place again)
    (wf : node.pax.ilist.WellFormed) (spare : Spare node.pax.ilist scratch) :
    next.pax.ilist.entries = counted node.pax.ilist.entries (voteInstance vote) := by
  have unpacks := unpackScratch_unpacks vote spare
  have wfNext := (casts.passes.voteStep spare).wellFormed wf
  -- A vote that is linked finds its number free.
  cases casts with
  | @link mid addr lower place upper unpacked whole less past =>
    rw [unpacked] at unpacks
    obtain ⟨wfMid, cells, -, -⟩ := unpacks.spec wf
    rw [linkScratch_ilist] at wfNext ⊢
    obtain ⟨free, entries⟩ := wfMid.entries_insertAfter wfNext whole less past
    rw [entries_congr cells] at free entries
    rw [entries]
    have first : node.pax.ilist.entries (voteInstance vote).inum = none := free
    simp only [counted, Contest.run, first, Contest.outdo]
  -- A vote that is swapped in outranks an open instance.
  | @swap mid addr out unpacked mem same uncommitted higher =>
    rw [unpacked] at unpacks
    obtain ⟨wfMid, cells, -, -⟩ := unpacks.spec wf
    obtain ⟨held, entries⟩ := wfMid.entries_swap wfNext mem same.symm
    rw [entries_congr cells] at held entries
    have holder : node.pax.ilist.entries (voteInstance vote).inum = some out.inst := held
    have wins : outranks (voteInstance vote) out.inst = true := decide_eq_true higher
    simp only [counted, Contest.run, holder, Contest.outdo, uncommitted, wins, Bool.not_false,
      Bool.and_self, if_true]
    exact entries
  | @keep mid addr place unpacked mem same stands =>
    rw [unpacked] at unpacks
    obtain ⟨wfMid, cells, -, -⟩ := unpacks.spec wf
    have held := wfMid.entries_eq_some.mpr ⟨place, mem, same, rfl⟩
    rw [entries_congr cells] at held ⊢
    have holder : node.pax.ilist.entries (voteInstance vote).inum = some place.inst := held
    -- The vote loses, so the entry is what it was.
    have loses : (!place.inst.committed && outranks (voteInstance vote) place.inst) = false := by
      rcases stands with committed | lower
      · simp [committed]
      · have not : outranks (voteInstance vote) place.inst = false := decide_eq_false lower
        simp [not]
    simp only [counted, Contest.run, holder, Contest.outdo, loses, Bool.false_eq_true, if_false]
    rw [← holder, Function.update_eq_self]

/-- A round of the vote loop leaves its cursor on an element that is not past its vote. -/
theorem Casts.stops (casts : Casts vote node scratch next place again)
    (wf : node.pax.ilist.WellFormed) (spare : Spare node.pax.ilist scratch) :
    ∃ inum, inum ≤ vote.hdr.inum ∧ next.pax.ilist.At place inum := by
  have unpacks := unpackScratch_unpacks vote spare
  -- The loop goes on from the place of the link, from the vote, or from what it lost to.
  cases casts with
  | @link mid addr lower place upper unpacked whole less past =>
    rw [unpacked] at unpacks
    obtain ⟨wfMid, -, -, -⟩ := unpacks.spec wf
    refine ⟨place.inum, Nat.le_of_lt less, place, ?_, rfl, rfl⟩
    rw [linkScratch_ilist, Ilist.insertAfter_cells wfMid whole]
    simp
  | @swap mid addr out unpacked mem same uncommitted higher =>
    rw [unpacked] at unpacks
    obtain ⟨wfMid, -, -, -⟩ := unpacks.spec wf
    exact ⟨vote.hdr.inum, Nat.le_refl _, _, (wfMid.mem_swap mem).mpr (Or.inl rfl), rfl, rfl⟩
  | @keep mid addr place unpacked mem same stands =>
    exact ⟨place.inum, Nat.le_of_eq same, place, mem, rfl, rfl⟩

/-- A round of the vote loop leaves a spare allocation for the next vote, or none. -/
theorem Passes.spare (passes : Passes vote node scratch next again)
    (wf : node.pax.ilist.WellFormed) (spare : Spare node.pax.ilist scratch) :
    Spare next.pax.ilist again := by
  have unpacks := unpackScratch_unpacks vote spare
  -- Linking uses the allocation up, swapping frees one, and losing keeps it.
  cases passes with
  | link =>
    intro addr none
    contradiction
  | @swap mid addr out unpacked mem same uncommitted higher =>
    rw [unpacked] at unpacks
    obtain ⟨wfMid, -, off, -⟩ := unpacks.spec wf
    rintro _ ⟨⟩
    -- The element that was put out is what is spare, and it has left the list.
    refine ⟨?_, wfMid.linked out mem⟩
    by_contra on
    obtain ⟨cell, memCell, equal⟩ := Ilist.onList_iff.mp (by simpa using on)
    rcases (wfMid.mem_swap mem).mp memCell with rfl | ⟨old, differ⟩
    · rw [Ilist.onList_iff.mpr ⟨out, mem, equal.symm⟩] at off
      simp at off
    · exact differ (wfMid.addr_inj old mem equal)
  | @keep mid addr unpacked =>
    rw [unpacked] at unpacks
    obtain ⟨-, -, off, bound⟩ := unpacks.spec wf
    rintro _ ⟨⟩
    exact ⟨off, bound⟩

/-- A round of the vote loop changes nothing but the log and the cursor into it. -/
theorem Passes.eq (passes : Passes vote node scratch next again)
    (spare : Spare node.pax.ilist scratch) :
    ∃ ilist istart, next = { node with pax.ilist := ilist, pax.istart := istart } := by
  have unpacks := unpackScratch_unpacks vote spare
  -- Unpacking, linking and swapping write the log, and linking may move the cursor.
  cases passes with
  | @link mid addr lower place upper unpacked =>
    rw [unpacked] at unpacks
    obtain ⟨ilist, same⟩ := unpacks.eq
    obtain ⟨istart, linked⟩ := linkScratch_eq mid place.addr ⟨addr, voteInstance vote⟩
    have same : mid = _ := same
    rw [linked, same]
    exact ⟨_, istart, rfl⟩
  | @swap mid addr out unpacked =>
    rw [unpacked] at unpacks
    obtain ⟨ilist, same⟩ := unpacks.eq
    have same : mid = _ := same
    rw [same]
    exact ⟨_, node.pax.istart, rfl⟩
  | @keep mid addr unpacked =>
    rw [unpacked] at unpacks
    obtain ⟨ilist, same⟩ := unpacks.eq
    have same : next = _ := same
    rw [same]
    exact ⟨_, node.pax.istart, rfl⟩

/-- A vote that does not take a number over from an instance of the log. -/
def Loses (entries : Nat → Option Instance) (vote : PackedInstance) : Prop :=
  ∀ inst, entries vote.hdr.inum = some inst →
    inst.committed = true ∨ ballotCompare vote.hdr.ballot inst.hdr.ballot ≠ .gt

/--
A round of the vote loop lets every trail lead on to its number.

The allocation for the next vote is one of the trail only if the vote has put out its element.
-/
theorem Passes.leads (passes : Passes vote node scratch next again)
    (wf : node.pax.ilist.WellFormed) (spare : Spare node.pax.ilist scratch)
    (leads : node.pax.ilist.Leads inum it path) (avoids : Avoids scratch path) :
    ∃ longer, next.pax.ilist.Leads inum it longer ∧
      (Loses node.pax.ilist.entries vote ∨ vote.hdr.inum ≠ inum → Avoids again longer) := by
  have unpacks := unpackScratch_unpacks vote spare
  -- Only a swap lengthens the trail, by the element that it puts out.
  cases passes with
  | @link mid addr lower place upper unpacked whole less past =>
    obtain ⟨leads, apart⟩ := unpackScratch_leads wf spare leads avoids unpacked
    rw [unpacked] at unpacks
    obtain ⟨wfMid, -, -, -⟩ := unpacks.spec wf
    have keeps : mid.pax.ilist.Keeps
        (linkScratch mid place.addr ⟨addr, voteInstance vote⟩).pax.ilist :=
      linkScratch_keeps wfMid whole
    rw [linkScratch_ilist] at keeps
    refine ⟨path, ?_, fun _ gone _ => by simp⟩
    rw [linkScratch_ilist]
    exact leads.insertAfter _ apart fun addr here => keeps addr _ here
  | @swap mid addr out unpacked mem same uncommitted higher =>
    obtain ⟨leads, apart⟩ := unpackScratch_leads wf spare leads avoids unpacked
    rw [unpacked] at unpacks
    obtain ⟨wfMid, cells, -, -⟩ := unpacks.spec wf
    refine ⟨_, leads.swap wfMid mem same.symm apart, ?_⟩
    intro other
    -- The vote takes the number over, so it is not the number of the trail.
    have differs : ¬ out.inum = inum := by
      rcases other with loses | differs
      · have held := wfMid.entries_eq_some.mpr ⟨out, mem, same, rfl⟩
        rw [entries_congr cells] at held
        rcases loses _ held with committed | not
        · rw [uncommitted] at committed
          contradiction
        · exact absurd higher not
      · rwa [same]
    rw [if_neg differs, List.append_nil]
    intro gone memGone equal
    exact wfMid.apart out mem gone (leads.mem_limbo memGone) (Option.some.inj equal)
  | @keep mid addr unpacked =>
    obtain ⟨leads, apart⟩ := unpackScratch_leads wf spare leads avoids unpacked
    refine ⟨path, leads, ?_⟩
    intro _ gone memGone equal
    exact apart gone memGone (Option.some.inj equal).symm

/-- Whether a vote loses hangs on the entry for its number alone. -/
theorem Loses.congr {entries other : Nat → Option Instance}
    (same : other vote.hdr.inum = entries vote.hdr.inum) (loses : Loses entries vote) :
    Loses other vote := by
  intro inst holds
  rw [same] at holds
  exact loses inst holds

/-- No vote but the last one takes a given number over. -/
def Clear (entries : Nat → Option Instance) (inum : Nat) (votes : List PackedInstance) : Prop :=
  ∀ vote ∈ votes.dropLast, vote.hdr.inum = inum → Loses entries vote

/-- What the votes of a promise make of the log. -/
structure Collects (node : Node) (votes : List PackedInstance) (next : Node) : Prop where
  wellFormed : next.pax.ilist.WellFormed
  entries : next.pax.ilist.entries =
    (votes.map voteInstance).foldl counted node.pax.ilist.entries
  frame : ∃ ilist istart, next = { node with pax.ilist := ilist, pax.istart := istart }

/-- A vote that is followed by others is not the last one. -/
theorem mem_dropLast_of_cons (rest : votes ≠ []) : vote ∈ (vote :: votes).dropLast := by
  cases votes with
  | nil => contradiction
  | cons other votes => simp

/-- The votes of a promise are all counted, when the walk starts on a trail in front of them. -/
theorem mergeVotes_counts (wf : node.pax.ilist.WellFormed) (spare : Spare node.pax.ilist scratch)
    (leads : node.pax.ilist.Leads inum it path) (avoids : Avoids scratch path)
    (ahead : ∀ vote ∈ votes, inum ≤ vote.hdr.inum)
    (ascending : votes.Pairwise fun x y => x.hdr.inum < y.hdr.inum) :
    ∃ next, mergeVotes node it scratch votes = .ok next ∧ Collects node votes next ∧
      ∀ number start trail, node.pax.ilist.Leads number start trail → Avoids scratch trail →
        Clear node.pax.ilist.entries number votes →
          ∃ longer, next.pax.ilist.Leads number start longer := by
  -- By induction on the votes, over all places where the walk may go on.
  induction votes generalizing node it scratch inum path with
  | nil =>
    refine ⟨node, rfl, ⟨wf, rfl, node.pax.ilist, node.pax.istart, rfl⟩, ?_⟩
    intro number start trail leads _ _
    exact ⟨trail, leads⟩
  | cons vote votes ih =>
    obtain ⟨below, ascending⟩ := List.pairwise_cons.mp ascending
    obtain ⟨mid, place, again, casts, unfolds⟩ :=
      mergeVotes_cons wf spare leads avoids (ahead vote List.mem_cons_self)
    have wfMid := (casts.passes.voteStep spare).wellFormed wf
    obtain ⟨stop, within, at_⟩ := casts.stops wf spare
    have entries := casts.entries wf spare
    -- The walk goes on from the element where it has stopped, in front of the other votes.
    have onward : ∀ vote ∈ votes, stop ≤ vote.hdr.inum := by
      intro other mem
      have less := below other mem
      omega
    obtain ⟨next, merged, counts, keeps⟩ :=
      ih wfMid (casts.passes.spare wf spare) at_.leads (by simp [Avoids]) onward ascending
    -- The entries are those of the first vote, and then those of the others.
    refine ⟨next, (unfolds votes).trans merged, ⟨counts.wellFormed, ?_, ?_⟩, ?_⟩
    · rw [counts.entries, entries]
      rfl
    · obtain ⟨ilist, istart, rfl⟩ := casts.passes.eq spare
      obtain ⟨other, cursor, same⟩ := counts.frame
      exact ⟨other, cursor, same⟩
    · intro number start trail leads avoids clear
      obtain ⟨longer, leads, stays⟩ := casts.passes.leads wf spare leads avoids
      by_cases more : votes = []
      · -- Behind the last vote nothing is unpacked any more.
        subst more
        obtain rfl : mid = next := by simpa [mergeVotes] using merged
        exact ⟨longer, leads⟩
      · -- A vote for the number of the trail has lost, unless it is the last.
        have loses : Loses node.pax.ilist.entries vote ∨ vote.hdr.inum ≠ number := by
          by_cases same : vote.hdr.inum = number
          · exact Or.inl (clear vote (mem_dropLast_of_cons more) same)
          · exact Or.inr same
        refine keeps number start longer leads (stays loses) ?_
        intro other mem same
        have later : other ∈ (vote :: votes).dropLast := by
          rw [List.dropLast_cons_of_ne_nil more]
          exact List.mem_cons_of_mem _ mem
        -- The entry for a later number is what it was.
        have apart : other.hdr.inum ≠ vote.hdr.inum :=
          Nat.ne_of_gt (below other (List.dropLast_subset _ mem))
        refine (clear other later same).congr ?_
        rw [entries]
        exact Function.update_of_ne apart _ _

/-- The votes of a promise are all counted when the cursor of the prepare leads before them. -/
theorem mergePromise_counts {start : Addr} (wf : node.pax.ilist.WellFormed)
    (leads : node.pax.ilist.Leads inum start path)
    (ahead : ∀ vote ∈ votes, inum ≤ vote.hdr.inum)
    (ascending : votes.Pairwise fun x y => x.hdr.inum < y.hdr.inum) :
    ∃ next, mergePromise node (some start) votes = .ok next ∧ Collects node votes next ∧
      (Clear node.pax.ilist.entries inum votes →
        ∃ longer, next.pax.ilist.Leads inum start longer) := by
  -- With no votes at all nothing is walked.
  cases votes with
  | nil =>
    refine ⟨node, rfl, ⟨wf, rfl, node.pax.ilist, node.pax.istart, rfl⟩, ?_⟩
    intro _
    exact ⟨path, leads⟩
  | cons vote votes =>
    have free : Avoids none path := by simp [Avoids]
    obtain ⟨next, merged, counts, keeps⟩ :=
      mergeVotes_counts wf (by simp [Spare]) leads free ahead ascending
    exact ⟨next, merged, counts, keeps inum start path leads free⟩

end Motmot
