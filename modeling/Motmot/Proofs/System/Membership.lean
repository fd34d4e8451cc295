import Mathlib.Data.List.Sort
import Motmot.Logic.Majorities
import Motmot.Proofs.Paxos.Dense
import Motmot.Proofs.Paxos.Enrolment
import Motmot.Proofs.System.Agreement
import Motmot.Proofs.System.Convergence

/-! While nobody but the founder takes office, the members of a session follow from its log. -/

namespace Motmot

variable {book record : List Value}

/-- The members after a stretch of the log, whose entries are numbered from one. -/
def membership (book : List Value) : List Nat :=
  roll [] (book.mapIdx fun place val => .learn (place + 1) val)

/-- One more entry of the log enrols one more member, or strikes one. -/
theorem membership_take {place : Nat} {val : Value} (entry : book[place]? = some val) :
    membership (book.take (place + 1)) =
      enrol (membership (book.take place)) (.learn (place + 1) val) := by
  have inside : place < book.length := (List.getElem?_eq_some_iff.mp entry).1
  rw [membership, List.take_add_one, entry, Option.toList_some, List.mapIdx_concat, roll_append,
    List.length_take_of_le (Nat.le_of_lt inside)]
  rfl

/-- One more entry of the log changes the members by one at most. -/
theorem membership_neighbours (book : List Value) (place : Nat) :
    Majorities.Neighbours (membership (book.take place)).toFinset
      (membership (book.take (place + 1))).toFinset := by
  -- The next entry joins somebody, removes somebody, or does neither.
  cases entry : book[place]? with
  | none =>
    rw [List.take_add_one, entry, Option.toList_none, List.append_nil]
    exact Or.inl (.refl _)
  | some val =>
    rw [membership_take entry]
    generalize membership (book.take place) = who
    cases kind : val.dkind with
    | join =>
      have entered : enrol who (.learn (place + 1) val) = (place + 1) :: who := by
        simp only [enrol, kind]
      rw [entered, List.toFinset_cons]
      exact Or.inl (.insert _ _)
    | part | kill =>
      have struck : enrol who (.learn (place + 1) val) =
          who.filter fun paxid => paxid ≠ val.extra := by
        simp only [enrol, kind]
      have erased : (enrol who (.learn (place + 1) val)).toFinset =
          who.toFinset.erase val.extra := by
        ext paxid
        simp [struck, and_comm]
      rw [erased]
      exact Or.inr (.erase _ _)
    | null | chat =>
      have still : enrol who (.learn (place + 1) val) = who := by
        simp only [enrol, kind]
      rw [still]
      exact Or.inl (.refl _)

/-- What is enrolled depends on nothing but who was a member before. -/
theorem enrol_congr {who also : List Nat} (same : ∀ paxid, paxid ∈ who ↔ paxid ∈ also)
    (effect : Effect) (paxid : Nat) : paxid ∈ enrol who effect ↔ paxid ∈ enrol also effect := by
  cases effect with
  | learn inum val =>
    simp only [enrol]
    cases val.dkind <;> simp [same]
  | _ => exact same paxid

/-- Consecutive entries that are learned take the members from one place of the log to another. -/
theorem roll_records {effects : List Effect} {hole count : Nat} {who : List Nat}
    (numbers : effects.filterMap Effect.learned = List.range' hole count)
    (recorded : ∀ inum val, .learn inum val ∈ effects → Records record ⟨inum, val⟩)
    (same : ∀ paxid, paxid ∈ who ↔ paxid ∈ membership (record.take (hole - 1))) (paxid : Nat) :
    paxid ∈ roll who effects ↔ paxid ∈ membership (record.take (hole + count - 1)) := by
  -- By induction on the effects, along the places of the log.
  induction effects generalizing hole count who with
  | nil =>
    have none : count = 0 := by simpa using (congrArg List.length numbers).symm
    subst none
    exact same paxid
  | cons effect rest ih =>
    have after := fun inum val mem => recorded inum val (List.mem_cons_of_mem effect mem)
    by_cases learns : ∃ inum val, effect = .learn inum val
    · obtain ⟨inum, val, rfl⟩ := learns
      obtain ⟨past, entry⟩ := recorded inum val List.mem_cons_self
      have past : 0 < inum := past
      cases count with
      | zero => simp [Effect.learned] at numbers
      | succ count =>
        simp only [List.filterMap_cons, Effect.learned, List.range'_succ, List.cons.injEq]
          at numbers
        obtain ⟨rfl, numbers⟩ := numbers
        have next := membership_take entry
        rw [show inum - 1 + 1 = inum by omega] at next
        rw [show inum + (count + 1) - 1 = inum + 1 + count - 1 by omega]
        apply ih numbers after
        -- An entry that is learned enrols the next member, or strikes one out.
        intro paxid
        rw [show inum + 1 - 1 = inum by omega, next]
        exact enrol_congr same _ paxid
    · -- Whatever else is told changes neither the numbers nor the members.
      have silent : effect.learned = none := by
        cases effect with
        | learn inum val => exact absurd ⟨inum, val, rfl⟩ learns
        | _ => rfl
      rw [List.filterMap_cons_none silent] at numbers
      have still : enrol who effect = who := enrol_silent silent
      show paxid ∈ roll (enrol who effect) rest ↔ _
      rw [still]
      exact ih numbers after same

/-- A scan of a log without gaps ends where the log is no longer committed. -/
theorem welcomeScan_hole {prev : Option Addr} {hole last : Nat} {cells : List Cell}
    (ascending : cells.Pairwise fun x y => x.inum < y.inum) (above : ∀ cell ∈ cells, hole ≤ cell.inum)
    (less : hole ≤ last)
    (run : ∀ inum, hole ≤ inum → inum < last → ∃ cell ∈ cells, cell.inum = inum ∧
      cell.inst.committed = true)
    (stop : ∀ cell ∈ cells, cell.inum = last → cell.inst.committed = false) :
    (welcomeScan prev hole cells).2.1 = last := by
  -- By induction on the cells, from the hole up.
  induction cells generalizing prev hole with
  | nil =>
    rcases Nat.eq_or_lt_of_le less with same | more
    · exact same
    · obtain ⟨cell, mem, -⟩ := run hole (Nat.le_refl _) more
      contradiction
  -- Where the scan still has to go on, the first cell fills the hole and is committed.
  | cons cell rest ih =>
    obtain ⟨head, tail⟩ := List.pairwise_cons.mp ascending
    have first : hole < last → cell.inum = hole ∧ cell.inst.committed = true := by
      intro more
      obtain ⟨other, mem, same, committed⟩ := run hole (Nat.le_refl _) more
      have floor := above cell List.mem_cons_self
      rcases List.mem_cons.mp mem with rfl | mem
      · exact ⟨same, committed⟩
      · have := head other mem
        omega
    unfold welcomeScan
    -- The scan stops at a gap, at an instance that is open, or goes on behind the cell.
    split
    · rename_i skipped
      show hole = last
      by_contra other
      exact skipped (first (by omega)).1
    · rename_i number
      have number : cell.inum = hole := by simpa using number
      split
      · rename_i open_
        have open_ : cell.inst.committed = false := by simpa using open_
        show hole = last
        by_contra other
        rw [(first (by omega)).2] at open_
        contradiction
      · rename_i closed
        have closed : cell.inst.committed = true := by simpa using closed
        have more : hole ≠ last := by
          rintro rfl
          rw [stop cell List.mem_cons_self number] at closed
          contradiction
        apply ih tail
        · intro other mem
          have := head other mem
          omega
        · omega
        · intro inum from_ below
          obtain ⟨other, mem, same, committed⟩ := run inum (by omega) below
          rcases List.mem_cons.mp mem with rfl | mem
          · omega
          · exact ⟨other, mem, same, committed⟩
        · exact fun other mem => stop other (List.mem_cons_of_mem _ mem)

/-- The log of a welcome has an element for every instance that was packed. -/
theorem exists_welcomeCells {ilist : List PackedInstance} {packed : PackedInstance} {addr : Addr}
    (mem : packed ∈ ilist) : ∃ cell ∈ welcomeCells addr ilist, cell.inst = instanceUnpack packed := by
  -- By induction on what was packed, whose addresses are counted up.
  induction ilist generalizing addr with
  | nil => contradiction
  | cons head rest ih =>
    rcases List.mem_cons.mp mem with rfl | mem
    · exact ⟨_, List.mem_cons_self, rfl⟩
    · obtain ⟨cell, there, same⟩ := @ih (addr + 1) mem
      exact ⟨cell, List.mem_cons_of_mem _ there, same⟩

/-- A newcomer begins at the hole of a log that is dense and has nothing committed there. -/
theorem Dense.hole {pax : Session} (dense : Dense pax) (settled : Settled pax)
    (wf : pax.ilist.WellFormed)
    (current : ∀ cell, pax.ilist.find pax.ihole = some cell → cell.inst.committed = false) :
    (welcomeScan none pax.ibase
      (welcomeCells 0 (pax.ilist.cells.map fun cell => instancePack cell.inst))).2.1 = pax.ihole := by
  -- A welcome lists the instances of the log, with their numbers and commits.
  have order : (pax.ilist.cells.map fun cell => instancePack cell.inst).Pairwise
      fun x y => x.hdr.inum < y.hdr.inum := List.pairwise_map.mpr wf.ascending
  have listed : ∀ cell ∈ welcomeCells 0 (pax.ilist.cells.map fun cell => instancePack cell.inst),
      ∃ old ∈ pax.ilist.cells, old.inum = cell.inum ∧
        old.inst.committed = cell.inst.committed := by
    intro cell mem
    obtain ⟨-, -, packed, there, same⟩ := mem_welcomeCells mem
    obtain ⟨old, held, rfl⟩ := List.mem_map.mp there
    refine ⟨old, held, ?_, ?_⟩
    · rw [Cell.inum, Cell.inum, same]
      rfl
    · rw [same]
      rfl
  apply welcomeScan_hole
  · exact (welcomeCells_pairwise 0 order).imp And.left
  · intro cell mem
    obtain ⟨old, held, number, -⟩ := listed cell mem
    exact number ▸ dense.base old.inum ⟨old, held, rfl⟩
  · exact dense.within
  · -- Every number from the base up to the hole is in the log, and what lies below it is committed.
    intro inum above below
    obtain ⟨last, top, reach⟩ := dense.reach
    obtain ⟨old, held, rfl⟩ := dense.full inum last above (by omega) top
    obtain ⟨cell, mem, same⟩ := @exists_welcomeCells _ _ 0 (List.mem_map_of_mem held)
    refine ⟨cell, mem, ?_, ?_⟩
    · rw [Cell.inum, same]
      rfl
    · rw [same]
      exact (settled.below old held below).1
  · intro cell mem number
    obtain ⟨old, held, same, committed⟩ := listed cell mem
    rw [← committed]
    exact current old (wf.find_eq_some.mpr ⟨held, same.trans number⟩)

/-- A handler goes on with the roll of what was learned before it. -/
theorem Rolls.handle {first : Nat} {who : List Nat} {node next : Node} {event : Event}
    (rolls : Rolls first who node) (handles : Handles node event (.ok next)) :
    Rolls first who next := by
  obtain ⟨stands, manned, enrolled⟩ :=
    (handles.rolled rolls.wellFormed rolls.learned rolls.kept rolls.enrolled).1 next rfl
  refine ⟨handles.wellFormed rolls.wellFormed, ?_, manned.self.symm ▸ manned.kept, enrolled⟩
  cases stands with
  | idle learned => exact learned

/-- A welcome packs the members and the log as they were when its handler began. -/
theorem Handles.packs {node : Node} {event : Event} {result : Result}
    (handles : Handles node event result) (wf : node.pax.ilist.WellFormed) {peer : PeerId}
    {hdr : Header} {session : Uuid} {ibase : Nat} {alist : List PackedAcceptor}
    {ilist : List PackedInstance}
    (sent : .send peer ⟨hdr, .welcome session ibase alist ilist⟩ ∈ fresh node result) :
    (∃ acc, Continues node.pax event .welcome acc (some peer)) ∧ ibase = node.pax.ibase ∧
      alist.map PackedAcceptor.paxid = node.pax.paxids ∧
        ilist = node.pax.ilist.cells.map fun cell => instancePack cell.inst := by
  -- Only one message has such a payload, and it is packed when the connection completes.
  obtain ⟨script, config, -, -, ⟨after, made, -, tells⟩ | teaches⟩ :=
    @Handles.tells _ _ _ (fun _ => True) handles wf (fun _ => trivial) (fun _ _ _ => trivial) _ sent
  · cases tells with
    | side side =>
      cases side with
      | send _ _ side =>
        simp only [Msg.side, Bool.and_eq_true] at side
        cases opcode : hdr.opcode <;> simp [opcode, Opcode.side, shaped] at side
    | welcome prior continues =>
      have members : config.node.pax.members = node.pax.members := prior.members
      have paxids := congrArg (List.map Prod.fst) members
      simp only [Session.members, List.map_map] at paxids
      refine ⟨⟨_, continues⟩, congrArg Core.ibase prior.core, ?_, ?_⟩
      · rw [List.map_map]
        exact paxids
      · rw [prior.ilist]
  · cases teaches

/-- A session that began with the members of the log before it, and goes on from there. -/
def Node.Mirrors (book : List Value) (node : Node) : Prop :=
  ∃ first who, Rolls first who node ∧ first ≤ book.length + 1 ∧
    ∀ paxid, paxid ∈ who ↔ paxid ∈ membership (book.take (first - 1))

/-- The welcome of a newcomer lists the members of the log before the hole that it begins at. -/
def Msg.Enlists (book : List Value) (msg : Msg) : Prop :=
  ∀ session ibase alist ilist, msg.body = .welcome session ibase alist ilist →
    (welcomeScan none ibase (welcomeCells 0 ilist)).2.1 ≤ book.length + 1 ∧
      ∀ paxid, paxid ∈ alist.map PackedAcceptor.paxid ↔ paxid ∈ membership
        (book.take ((welcomeScan none ibase (welcomeCells 0 ilist)).2.1 - 1))

/-- A stretch of the log has the same members when the log goes on. -/
theorem membership_append {bound : Nat} (inside : bound ≤ book.length + 1) (more : List Value) :
    membership ((book ++ more).take (bound - 1)) = membership (book.take (bound - 1)) := by
  rw [List.take_append_of_le_length (by omega)]

/-- A session mirrors a log that goes on. -/
theorem Node.Mirrors.append {node : Node} (mirrors : node.Mirrors book) (more : List Value) :
    node.Mirrors (book ++ more) := by
  obtain ⟨first, who, rolls, bound, same⟩ := mirrors
  refine ⟨first, who, rolls, ?_, ?_⟩
  · -- The hole lies within the log, so what comes behind it changes nothing.
    rw [List.length_append]
    omega
  · rw [membership_append bound]
    exact same

/-- A welcome enlists by a log that goes on. -/
theorem Msg.Enlists.append {msg : Msg} (enlists : msg.Enlists book) (more : List Value) :
    msg.Enlists (book ++ more) := by
  intro session ibase alist ilist body
  obtain ⟨inside, listed⟩ := enlists session ibase alist ilist body
  rw [List.length_append, membership_append inside]
  exact ⟨by omega, listed⟩

/-- A newcomer whose welcome enlists by a log mirrors it. -/
theorem Welcome.mirrors (welcome : Welcome) (peopled : welcome.Peopled)
    (enlists : welcome.msg.Enlists book) : welcome.node.Mirrors book := by
  -- A welcome begins a session that follows its log.
  have begins : Begins Welcome.Peopled welcome.node welcome.node.pax.ihole :=
    .welcome welcome peopled
  have hole : welcome.node.pax.ihole =
      (welcomeScan none welcome.ibase (welcomeCells 0 welcome.ilist)).2.1 := rfl
  have roster := congrArg Polity.roster welcome.polity
  have alist : welcome.node.pax.alist =
      welcome.alist.map (welcomedAcceptor welcome.source welcome.hdr) :=
    congrArg Roster.alist roster
  have paxids : welcome.node.pax.paxids = welcome.alist.map PackedAcceptor.paxid := by
    rw [Session.paxids, alist, List.map_map]
    rfl
  obtain ⟨inside, listed⟩ := enlists _ _ _ _ rfl
  refine ⟨_, _, ⟨begins.wellFormed, begins.learned, begins.kept fun _ => id, begins.enrolled⟩,
    ?_, ?_⟩
  · -- The numbers that the welcome leaves out lie before its hole.
    rw [hole]
    exact inside
  · rw [hole, paxids]
    exact listed

/-- The session of the founder mirrors a log that has its join for the first entry. -/
theorem paxosStart_mirrors (session : Uuid) (id : NodeId)
    (join : book[0]? = some (startInstance session).val) :
    (paxosStart session id).Mirrors book := by
  -- The hole of the founder is 2, right behind its own join.
  have begins : Begins (fun _ => False) (paxosStart session id) 2 := .start session id
  have one : 0 < book.length := (List.getElem?_eq_some_iff.mp join).1
  refine ⟨2, _, ⟨begins.wellFormed, begins.learned, begins.kept fun _ => False.elim,
    begins.enrolled⟩, by omega, ?_⟩
  intro paxid
  rw [membership_take join]
  rfl

/-- The log of the founder begins with its join, which is learned. -/
theorem paxosStart_dense (session : Uuid) (id : NodeId) : Dense (paxosStart session id).pax := by
  -- Its log has the number 1, and no other.
  have numbers : ∀ inum, (paxosStart session id).pax.ilist.Has inum ↔ inum = 1 := by
    intro inum
    constructor
    · rintro ⟨cell, mem, rfl⟩
      obtain rfl := List.mem_singleton.mp mem
      rfl
    · rintro rfl
      exact ⟨_, List.mem_singleton_self _, rfl⟩
  refine ⟨?_, ?_, Nat.le_succ 1, 1, (numbers 1).mpr rfl, Nat.le_refl 2⟩
  · intro inum has
    obtain rfl := (numbers inum).mp has
    exact Nat.le_refl 1
  · -- Between 1 and the highest number there is nothing to be missed.
    intro inum higher above below has
    obtain rfl := (numbers higher).mp has
    have above : 1 ≤ inum := above
    exact (numbers inum).mpr (by omega)

namespace System

variable {sys next : System}

/--
Undisputed steps that welcome nobody while the hole is committed, and redo no committed part.

A newcomer takes everything that is committed for learned, with the members that are on the list.
-/
structure Punctual (sys : System) (step : Step) : Prop extends Undisputed sys step where
  redoes : ∀ {id event node}, sys.occasion step = some (id, event) → sys.Live id node →
    ∀ inum acc chan cell, Continues node.pax event (.ackReject inum) acc chan →
      node.pax.ilist.find inum = some cell → cell.inst.committed = false
  current : ∀ {id event node}, sys.occasion step = some (id, event) → sys.Live id node →
    ∀ acc peer, Continues node.pax event .welcome acc (some peer) →
      ∀ cell, node.pax.ilist.find node.pax.ihole = some cell → cell.inst.committed = false

/-- All sessions of a state list the members of the log, and the founder's log has no gaps. -/
structure Enlisted (book : List Value) (sys : System) : Prop where
  live : ∀ {id node}, sys.Live id node → node.Mirrors book
  founder : ∀ {id node}, sys.Live id node → node.pax.selfId = 1 →
    Settled node.pax ∧ Dense node.pax
  waiting : ∀ {channel second msg}, sys.Waits channel second msg → msg.Enlists book

/-- Between handlers a session lists the members of the log before its hole. -/
theorem Enlisted.listed (enlisted : Enlisted book sys) (founded : Founded book sys) {id : NodeId}
    {node : Node} (live : sys.Live id node) (paxid : Nat) :
    paxid ∈ node.pax.paxids ↔ paxid ∈ membership (book.take (node.pax.ihole - 1)) := by
  -- The session has learned its stretch of the log, and its list follows what it has learned.
  obtain ⟨first, who, rolls, -, same⟩ := enlisted.live live
  have heard : ∀ inum val, .learn inum val ∈ node.out → Records book ⟨inum, val⟩ := by
    intro inum val mem
    apply @Founded.heard _ _ founded id
    rw [Process.history, live.2]
    exact List.mem_append_right _ mem
  have past := rolls.learned.past
  have members := roll_records rolls.learned.numbers heard same paxid
  rw [show first + (node.pax.ihole - first) - 1 = node.pax.ihole - 1 by omega] at members
  rw [← members]
  apply (rolls.enrolled.listed paxid).trans
  exact ⟨fun listed => listed.resolve_right leaves_nil, Or.inl⟩

/-- A session lists its members in order. -/
theorem Enlisted.ranked (enlisted : Enlisted book sys) {id : NodeId} {node : Node}
    (live : sys.Live id node) : node.pax.paxids.Pairwise (· < ·) := by
  obtain ⟨_, _, rolls, -⟩ := enlisted.live live
  exact List.pairwise_map.mpr rolls.kept.ranked

/-- A majority of the acceptors of a session is one of the members of the log before its hole. -/
theorem Enlisted.majority (enlisted : Enlisted book sys) (founded : Founded book sys)
    {id : NodeId} {node : Node} (live : sys.Live id node) {votes : Finset Nat}
    (voting : ∀ paxid ∈ votes, paxid ∈ node.pax.paxids)
    (enough : Motmot.majority node.pax ≤ votes.card) :
    Majorities.Majority (membership (book.take (node.pax.ihole - 1))).toFinset votes := by
  -- The acceptors are distinct, so a majority of the list is one of the set.
  have same : (membership (book.take (node.pax.ihole - 1))).toFinset =
      node.pax.paxids.toFinset := by
    ext paxid
    rw [List.mem_toFinset, List.mem_toFinset, enlisted.listed founded live]
  have distinct : node.pax.paxids.Nodup := (enlisted.ranked live).imp Nat.ne_of_lt
  have count : node.pax.paxids.length = node.pax.alist.length := List.length_map _
  rw [same]
  constructor
  · intro paxid mem
    exact List.mem_toFinset.mpr (voting paxid mem)
  · rw [List.toFinset_card_of_nodup distinct, count]
    have enough : node.pax.alist.length / 2 + 1 ≤ votes.card := enough
    omega

/-- What a session sends as it handles an event enlists newcomers as it was itself. -/
theorem Enlisted.sends (enlisted : Enlisted book sys) (founded : Founded book sys) {step : Step}
    {id : NodeId} {event : Event} {node : Node} {result : Result}
    (punctual : Punctual sys step) (what : sys.occasion step = some (id, event))
    (live : sys.Live id node) (handles : Handles node event result) {peer : PeerId} {msg : Msg}
    (sent : .send peer msg ∈ fresh node result) : msg.Enlists book := by
  obtain ⟨hdr, body⟩ := msg
  rintro session ibase alist ilist rfl
  -- A session packs what it lists, and only the founder welcomes anybody.
  obtain ⟨ruled, -⟩ := founded.live live
  obtain ⟨_, _, rolls, -, -⟩ := enlisted.live live
  obtain ⟨⟨acc, continues⟩, rfl, paxids, rfl⟩ := handles.packs rolls.wellFormed sent
  have own := (ruled.welcomes continues).1
  obtain ⟨settled, dense⟩ := enlisted.founder live own
  rw [dense.hole settled rolls.wellFormed (punctual.current what live acc peer continues), paxids]
  exact ⟨(ruled.whole own).2, enlisted.listed founded live⟩

/-- Whoever handles an event in a punctual step goes on with the members of the log. -/
theorem Enlisted.handle (enlisted : Enlisted book sys) (founded : Founded book sys) {step : Step}
    {id : NodeId} {event : Event} {node : Node} {result : Result} {more : List Value}
    (punctual : Punctual sys step) (what : sys.occasion step = some (id, event))
    (live : sys.Live id node) (handles : Handles node event result)
    (made : next.process id = after (sys.process id) result)
    (others : ∀ other, other ≠ id → next.process other = sys.process other)
    (grows : Grows sys next (fresh node result)) : Enlisted (book ++ more) next := by
  obtain ⟨ruled, -⟩ := founded.live live
  obtain ⟨first, who, rolls, bound, same⟩ := enlisted.live live
  have stays : ∀ {other last}, next.Live other last →
      other ≠ id ∧ sys.Live other last ∨ other = id ∧ result = .ok last := Live.handled made others
  -- Whoever is live was so before, or has handled this event.
  refine ⟨?_, ?_, ?_⟩
  · intro other last held
    rcases stays held with ⟨-, before⟩ | ⟨-, rfl⟩
    · exact (enlisted.live before).append more
    · have goes : last.Mirrors book := ⟨first, who, rolls.handle handles, bound, same⟩
      exact goes.append more
  · intro other last held own
    rcases stays held with ⟨-, before⟩ | ⟨-, rfl⟩
    · exact enlisted.founder before own
    · -- The founder is in office and prepared, so whatever enters its log is the next number.
      have own : node.pax.selfId = 1 := (handles.selfId rolls.wellFormed).symm.trans own
      have leads := ruled.reigned.office.mpr own
      obtain ⟨settled, dense⟩ := enlisted.founder live own
      have steady : Steady node.pax event := by
        refine ⟨punctual.redoes what live, ?_, ?_, ?_⟩
        · intro source hdr val asked opcode acceptor
          rw [leads] at acceptor
          contradiction
        · intro source hdr count votes prep asked opcode leads preparing
          rw [ruled.reigned.prep] at preparing
          contradiction
        · intro source hdr bound asked opcode acceptor
          rw [leads] at acceptor
          contradiction
      constructor
      · exact ((handles.steady steady rolls.wellFormed rolls.learned settled).1 last rfl).1
      · exact handles.dense rolls.wellFormed rolls.learned leads ruled.reigned.prep dense last rfl
  · -- What is in flight was so before, or was sent in this step.
    intro channel second msg waits
    rcases grows.waits waits with before | sent
    · exact (enlisted.waiting before).append more
    · exact (enlisted.sends founded punctual what live handles sent).append more

/-- A punctual step keeps all sessions to the members of the log, which it may extend. -/
theorem Enlisted.step {choice : Choice} {step : Step} {more : List Value}
    (enlisted : Enlisted book sys) (founded : Founded book sys) (after : Founded (book ++ more) next)
    (upheld : Upheld Rostered Msg.Rostered sys)
    (unborn : sys.started = false → (∀ id, (sys.process id).node = none ∧
      (sys.process id).past = []) ∧ ∀ channel second msg, ¬ sys.Waits channel second msg)
    (punctual : Punctual sys step) (stepped : sys.step choice step = some next) :
    Enlisted (book ++ more) next := by
  -- Nothing happens, the founder starts, a newcomer enters, or somebody handles an event.
  have turn := step_turn stepped
  generalize what : sys.occasion step = occasion at turn
  cases turn with
  | idle nodes past lives started grows =>
    have before : ∀ {id node}, next.Live id node → sys.Live id node := Live.idle nodes lives
    refine ⟨fun live => (enlisted.live (before live)).append more, fun live =>
      enlisted.founder (before live), ?_⟩
    intro channel second msg waits
    rcases grows.waits waits with waited | sent
    · exact (enlisted.waiting waited).append more
    · contradiction
  | @start id session gone once made others started grows =>
    obtain ⟨nobody, nothing⟩ := unborn once
    obtain rfl := founded.unborn once
    have only : ∀ {other node}, next.Live other node → node = paxosStart session id :=
      fun live => (live.alone (fun id => (nobody id).1) made others).2
    refine ⟨?_, ?_, ?_⟩
    · intro other node live
      obtain rfl := only live
      -- The join of the founder is on record, since the founder has it on its log.
      have stocks : (paxosStart session id).pax.ilist.Stocks (startInstance session).decree :=
        ⟨_, Or.inl ⟨_, List.mem_singleton_self _, rfl⟩, rfl⟩
      exact paxosStart_mirrors session id ((after.live live).1.recorded _ stocks).2
    · intro other node live own
      obtain rfl := only live
      exact ⟨(Begins.start session id : Begins Welcome.Based _ 2).settled,
        paxosStart_dense session id⟩
    · intro channel second msg waits
      rcases grows.waits waits with waited | sent
      · exact absurd waited (nothing channel second msg)
      · contradiction
  -- The welcome lists the members of the log that it packs.
  | @greet id source hdr session ibase alist ilist opcode gone arrives made others started grows =>
    obtain ⟨channel, second, -, -, waits⟩ := arrives
    have listed := upheld.waiting channel second _ waits
    let welcome : Welcome :=
      { source := source, hdr := hdr, session := session, ibase := ibase, alist := alist
        ilist := ilist
        ascending := listed.sound.welcome session ibase alist ilist opcode rfl }
    obtain ⟨ranked, newcomer⟩ := listed.listed _ _ _ _ opcode rfl
    have mirrors : welcome.node.Mirrors book :=
      welcome.mirrors ⟨ranked, newcomer⟩ (enlisted.waiting waits)
    have stays : ∀ {other node}, next.Live other node →
        sys.Live other node ∨ node = welcome.node :=
      fun live => (live.entered made others).imp And.right And.right
    refine ⟨?_, ?_, ?_⟩
    · intro other node live
      rcases stays live with before | rfl
      · exact (enlisted.live before).append more
      · exact mirrors.append more
    · intro other node live own
      rcases stays live with before | rfl
      · exact enlisted.founder before own
      · -- A newcomer is not the founder.
        have self : welcome.node.pax.selfId = hdr.inum := congrArg Polity.selfId welcome.polity
        have number : 2 ≤ hdr.inum := ((founded.waiting waits).welcome _ _ _ _ rfl).2
        omega
    · intro other side msg sent
      rcases grows.waits sent with waited | told
      · exact (enlisted.waiting waited).append more
      · exact absurd rfl ((acceptorAckWelcome_silent _ told).2.2 _ msg)
  | @handle id event node result up live arrives handles made others started grows =>
    exact enlisted.handle founded punctual what ⟨up, live⟩ handles made others grows

/-- In a punctual run all sessions are of one log, and keep to its members. -/
theorem Conducts.enlisted (run : Conducts Punctual init sys) :
    ∃ book, Founded book sys ∧ Enlisted book sys := by
  -- By induction on the run, with the record of the founder alongside.
  induction run with
  | refl =>
    refine ⟨[], .init, ?_, ?_, ?_⟩
    · rintro id node ⟨-, held⟩
      contradiction
    · rintro id node ⟨-, held⟩
      contradiction
    · rintro channel second msg ⟨chan, held, -⟩
      contradiction
  | step run punctual stepped ih =>
    obtain ⟨book, founded, enlisted⟩ := ih
    obtain ⟨more, after, -⟩ :=
      founded.step run.sound run.unborn punctual.toUndisputed stepped
    have upheld := rostered_upholds.run (.init _ _) (run.weaken fun _ _ _ _ _ _ _ _ => trivial)
    exact ⟨_, after, enlisted.step founded after upheld run.unborn punctual stepped⟩

/-- Steps that hand nothing to anybody but an untroubled founder are punctual. -/
theorem Punctual.founder {step : Step} (facts : ((sys.occasion step).all fun happens =>
    (sys.process happens.1).node.all fun node => decide (node.pax.selfId = 1) &&
      (node.pax.clist.all fun k => !(k.purpose matches .ackReject _)) &&
        (node.pax.ilist.find node.pax.ihole).all fun cell => !cell.inst.committed) = true) :
    Punctual sys step := by
  -- What is checked is checked of the session that is handed the event.
  have founds : ∀ {id event node}, sys.occasion step = some (id, event) → sys.Live id node →
      (decide (node.pax.selfId = 1) &&
        node.pax.clist.all fun k => !(k.purpose matches .ackReject _)) = true ∧
      ((node.pax.ilist.find node.pax.ihole).all fun cell => !cell.inst.committed) = true := by
    rintro id event node what ⟨-, held⟩
    rw [what, Option.all_some, held, Option.all_some, Bool.and_eq_true] at facts
    exact facts
  refine ⟨.founder ?_, ?_, ?_⟩
  · rw [Option.all_eq_true] at facts ⊢
    intro happens what
    have each := facts happens what
    rw [Option.all_eq_true] at each ⊢
    intro node held
    exact (Bool.and_eq_true _ _ ▸ each node held).1
  · -- No continuation of a rejection is at hand.
    rintro id event node what live inum acc chan cell ⟨handle, k, -, found, purpose, -⟩ -
    have calm := (Bool.and_eq_true _ _ ▸ (founds what live).1).2
    have kept := List.all_eq_true.mp calm k (List.mem_of_find?_eq_some found)
    rw [purpose] at kept
    contradiction
  · intro id event node what live acc peer continues cell held
    have closed := (founds what live).2
    rw [held, Option.all_some] at closed
    simpa using closed

/-- The founder lets another in, whom it welcomes when all that is committed is learned. -/
theorem conducts_punctual : Conducts Punctual init entered :=
  ((conducts_invited (.founder (by decide +kernel)) (.founder (by decide +kernel))).take
    (.founder (by decide +kernel)) (by decide +kernel)).take (.founder (by decide +kernel))
      (by decide +kernel)

end System

end Motmot
