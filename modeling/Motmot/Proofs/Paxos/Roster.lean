import Motmot.Proofs.Paxos.Welcome
import Motmot.Proofs.Types.Acceptors

/-! The acceptor list of a session and the hellos that wait for their joins. -/

namespace Motmot

/-- Whether an acceptor counts as live: it is ourselves, or it has a channel. -/
def Acceptor.alive (selfId : Nat) (acc : Acceptor) : Bool :=
  acc.paxid = selfId || acc.peer.isSome

/-- What a channel adds to the live count. -/
def weight (peer : Option PeerId) : Nat :=
  match peer with
  | none => 0
  | some _ => 1

/-- What the lists of acceptors keep to: we are listed, and a hello waits only for a newcomer. -/
structure Roster.Kept (selfId : Nat) (roster : Roster) : Prop where
  ranked : Ranked roster.alist
  listed : ∃ acc ∈ roster.alist, acc.paxid = selfId
  deferred : Ranked roster.adefer
  waiting : ∀ acc ∈ roster.adefer, acc.peer.isSome = true
  apart : ∀ acc ∈ roster.alist, ∀ other ∈ roster.adefer, acc.paxid ≠ other.paxid

variable {start : Node} {event : Event} {owner : Nat}

/-- A write to the channel of a listed acceptor. -/
theorem setPeer_alist {node : Node} {acc : Acceptor} (ranked : Ranked node.pax.alist)
    (mem : acc ∈ node.pax.alist) (peer : Option PeerId) :
    ∃ lower upper, node.pax.alist = lower ++ acc :: upper ∧
      (node.setPeer acc.paxid peer).pax.alist = lower ++ { acc with peer := peer } :: upper := by
  obtain ⟨lower, upper, whole⟩ := List.append_of_mem mem
  refine ⟨lower, upper, whole, ?_⟩
  show node.pax.alist.map _ = _
  rw [whole] at ranked ⊢
  exact ranked.setPeer_split peer

/-- An acceptor with another channel stands where it stood. -/
theorem Roster.Kept.rebind {roster : Roster} (kept : roster.Kept owner)
    {lower upper : List Acceptor} {acc : Acceptor} (whole : roster.alist = lower ++ acc :: upper)
    (peer : Option PeerId) (count : Nat) :
    Roster.Kept owner { roster with
      alist := lower ++ { acc with peer := peer } :: upper, liveCount := count } := by
  have ranked : Ranked (lower ++ acc :: upper) := whole ▸ kept.ranked
  -- The identifiers of the list are the same ones.
  have moved : ∀ x ∈ lower ++ { acc with peer := peer } :: upper,
      ∃ y ∈ roster.alist, y.paxid = x.paxid := by
    intro x mem
    rw [whole]
    rcases List.mem_append.mp mem with mem | mem
    · exact ⟨x, List.mem_append_left _ mem, rfl⟩
    · rcases List.mem_cons.mp mem with rfl | mem
      · exact ⟨acc, List.mem_append_right _ List.mem_cons_self, rfl⟩
      · exact ⟨x, List.mem_append_right _ (List.mem_cons_of_mem _ mem), rfl⟩
  -- Order, ourselves and the waiting are all told by the identifiers.
  constructor
  · obtain ⟨first, behind, across⟩ := List.pairwise_append.mp ranked
    obtain ⟨above, rest⟩ := List.pairwise_cons.mp behind
    refine List.pairwise_append.mpr ⟨first, List.pairwise_cons.mpr ⟨above, rest⟩, ?_⟩
    intro x memx y memy
    rcases List.mem_cons.mp memy with rfl | memy
    · exact across x memx acc List.mem_cons_self
    · exact across x memx y (List.mem_cons_of_mem _ memy)
  · obtain ⟨x, mem, same⟩ := kept.listed
    rw [whole] at mem
    rcases List.mem_append.mp mem with mem | mem
    · exact ⟨x, List.mem_append_left _ mem, same⟩
    · rcases List.mem_cons.mp mem with rfl | mem
      · exact ⟨_, List.mem_append_right _ List.mem_cons_self, same⟩
      · exact ⟨x, List.mem_append_right _ (List.mem_cons_of_mem _ mem), same⟩
  · exact kept.deferred
  · exact kept.waiting
  · intro x mem other memOther
    obtain ⟨y, memy, same⟩ := moved x mem
    rw [← same]
    exact kept.apart y memy other memOther

/-- A join enters the list in its place, with the channel of a hello that has waited for it. -/
theorem enlist_roster {node : Node} (kept : node.pax.roster.Kept owner) (inum : Nat)
    (req : Request) : (enlist node inum req).pax.roster = node.pax.roster ∨
      ∃ lower upper peer, node.pax.alist = lower ++ upper ∧
        (∀ x ∈ lower, x.paxid < inum) ∧ (∀ x ∈ upper, inum < x.paxid) ∧
        (enlist node inum req).pax.roster =
          { alist := lower ++ { paxid := inum, peer := peer, desc := req.data } :: upper
            adefer := node.pax.adefer.filter fun acc => acc.paxid ≠ inum
            liveCount := node.pax.liveCount + weight peer } := by
  have ranked : Ranked node.pax.alist := kept.ranked
  have deferred : Ranked node.pax.adefer := kept.deferred
  -- The newcomer is listed already, or it is inserted between those below and above it.
  by_cases taken : ∃ x ∈ node.pax.alist, x.paxid = inum
  · -- Nobody who is listed has a hello waiting.
    obtain ⟨x, mem, same⟩ := taken
    have absent : acceptorFind node.pax.adefer inum = none :=
      deferred.find_eq_none.mpr fun other memOther => same ▸ (kept.apart x mem other memOther).symm
    have still := @Ranked.insert_taken _ (joinedAcceptor node.pax inum req) ranked _ mem same
    left
    simp [enlist, absent, Session.roster, Node.setAlist, still]
  · obtain ⟨lower, upper, whole, inserted, below, above⟩ :=
      @Ranked.insert_split _ (joinedAcceptor node.pax inum req) ranked
        fun x mem same => taken ⟨x, mem, same⟩
    refine Or.inr ⟨lower, upper, (joinedAcceptor node.pax inum req).peer, whole, below, above, ?_⟩
    change _ = lower ++ ⟨inum, (joinedAcceptor node.pax inum req).peer, req.data⟩ ::
      upper at inserted
    rw [← inserted]
    cases found : acceptorFind node.pax.adefer inum with
    | none =>
      have alone : node.pax.adefer.filter (fun acc => acc.paxid ≠ inum) = node.pax.adefer :=
        List.filter_eq_self.mpr fun acc mem => by
          simpa using deferred.find_eq_none.mp found acc mem
      rw [alone]
      simp [enlist, found, Session.roster, Node.setAlist, joinedAcceptor, weight]
    | some other =>
      have held := kept.waiting other (deferred.find_eq_some.mp found).1
      obtain ⟨peer, held⟩ := Option.isSome_iff_exists.mp held
      simp [enlist, found, Session.roster, Node.setAlist, Node.setAdefer, Node.setLiveCount,
        joinedAcceptor, held, weight]

/-- A part takes one acceptor off the list, and counts it if it was live. -/
theorem delist_roster {node : Node} (kept : node.pax.roster.Kept owner) (paxid : Nat) :
    (delist node paxid).pax.roster = node.pax.roster ∨
      ∃ lower acc upper, node.pax.alist = lower ++ acc :: upper ∧ acc.paxid = paxid ∧
        (delist node paxid).pax.roster =
          { alist := lower ++ upper
            adefer := node.pax.adefer
            liveCount := if acc.peer.isSome then unsignedPred node.pax.liveCount
              else node.pax.liveCount } := by
  have ranked : Ranked node.pax.alist := kept.ranked
  -- Whoever is not listed cannot be removed.
  cases found : acceptorFind node.pax.alist paxid with
  | none =>
    left
    simpa [delist, found, Session.roster, Node.setAlist] using ranked.find_eq_none.mp found
  | some acc =>
    obtain ⟨mem, rfl⟩ := ranked.find_eq_some.mp found
    obtain ⟨lower, upper, whole⟩ := List.append_of_mem mem
    have removed := (whole ▸ ranked : Ranked (lower ++ acc :: upper)).filter_split
    refine Or.inr ⟨lower, acc, upper, whole, rfl, ?_⟩
    rw [← whole] at removed
    unfold delist
    rw [found, Option.bind_some]
    cases peer : acc.peer with
    | none => simpa [Session.roster, Node.setAlist] using removed
    | some peer => simpa [Session.roster, Node.setAlist, Node.setLiveCount] using removed

namespace Roster.Kept

variable {roster : Roster}

/-- A newcomer is listed, and no hello waits for it any more. -/
theorem enter (kept : roster.Kept owner) {lower upper : List Acceptor} {acc : Acceptor}
    (whole : roster.alist = lower ++ upper) (below : ∀ x ∈ lower, x.paxid < acc.paxid)
    (above : ∀ x ∈ upper, acc.paxid < x.paxid) (count : Nat) :
    Kept owner
      { alist := lower ++ acc :: upper
        adefer := roster.adefer.filter fun x => x.paxid ≠ acc.paxid
        liveCount := count } := by
  have stay : ∀ x ∈ roster.alist, x ∈ lower ++ acc :: upper := by
    rw [whole]
    intro x mem
    simp only [List.mem_append, List.mem_cons] at mem ⊢
    tauto
  -- The newcomer has its place in the order, and its hello waits no longer.
  constructor
  · obtain ⟨first, last, across⟩ := List.pairwise_append.mp (whole ▸ kept.ranked)
    refine List.pairwise_append.mpr ⟨first, List.pairwise_cons.mpr ⟨above, last⟩, ?_⟩
    intro x memx y memy
    rcases List.mem_cons.mp memy with rfl | memy
    · exact below x memx
    · exact across x memx y memy
  · obtain ⟨x, mem, same⟩ := kept.listed
    exact ⟨x, stay x mem, same⟩
  · exact kept.deferred.filter _
  · exact fun x mem => kept.waiting x (List.mem_of_mem_filter mem)
  · intro x mem other memOther
    obtain ⟨memOther, fresh⟩ := List.mem_filter.mp memOther
    have fresh : other.paxid ≠ acc.paxid := by simpa using fresh
    rcases List.mem_append.mp mem with mem | mem
    · exact kept.apart x (whole ▸ List.mem_append_left _ mem) other memOther
    · rcases List.mem_cons.mp mem with rfl | mem
      · exact fresh.symm
      · exact kept.apart x (whole ▸ List.mem_append_right _ mem) other memOther

/-- Somebody else leaves the list. -/
theorem leave (kept : roster.Kept owner) {lower upper : List Acceptor} {acc : Acceptor}
    (whole : roster.alist = lower ++ acc :: upper) (other : acc.paxid ≠ owner) (count : Nat) :
    Kept owner { roster with alist := lower ++ upper, liveCount := count } := by
  have stay : ∀ x ∈ lower ++ upper, x ∈ roster.alist := by
    rw [whole]
    intro x mem
    simp only [List.mem_append, List.mem_cons] at mem ⊢
    tauto
  -- Fewer are left, and we are among them.
  constructor
  · exact List.Pairwise.sublist (by simp) (whole ▸ kept.ranked : Ranked (lower ++ acc :: upper))
  · obtain ⟨x, mem, same⟩ := kept.listed
    refine ⟨x, ?_, same⟩
    rw [whole] at mem
    rcases List.mem_append.mp mem with mem | mem
    · exact List.mem_append_left _ mem
    · rcases List.mem_cons.mp mem with rfl | mem
      · exact absurd same other
      · exact List.mem_append_right _ mem
  · exact kept.deferred
  · exact kept.waiting
  · exact fun x mem => kept.apart x (stay x mem)

/-- A hello of somebody who is not listed waits. -/
theorem wait (kept : roster.Kept owner) {paxid : Nat} {source : PeerId}
    (absent : ∀ x ∈ roster.alist, x.paxid ≠ paxid) :
    Kept owner { roster with
      adefer := acceptorInsert roster.adefer
        { paxid := paxid, peer := some source, desc := [] } } := by
  -- The list is the same, and one more waits who is not on it.
  constructor
  · exact kept.ranked
  · exact kept.listed
  · exact kept.deferred.insert _
  · intro x mem
    rcases kept.deferred.mem_insert mem with mem | rfl
    · exact kept.waiting x mem
    · rfl
  · intro x mem other memOther
    rcases kept.deferred.mem_insert memOther with memOther | rfl
    · exact kept.apart x mem other memOther
    · exact absent x mem

end Roster.Kept

/-- A continuation runs on a listed acceptor. -/
theorem Continues.mem {pax : Session} {purpose : Purpose} {acc : Acceptor} {chan : Option PeerId}
    (continues : Continues pax event purpose acc chan) : acc ∈ pax.alist := by
  obtain ⟨_, _, -, -, -, found⟩ := continues
  exact (SortedList.findFwd_mem found).1

/-- What an event does to the channels keeps the lists. -/
theorem Opens.kept {roster : Roster} (opens : Opens start event roster)
    (kept : start.pax.roster.Kept owner) : roster.Kept owner := by
  -- Only the channels of one acceptor change, but for a hello that waits.
  have rebound : ∀ {acc}, acc ∈ start.pax.alist → ∀ peer count,
      ((start.setPeer acc.paxid peer).setLiveCount count).pax.roster.Kept owner := by
    intro acc mem peer count
    obtain ⟨lower, upper, whole, written⟩ := setPeer_alist kept.ranked mem peer
    have next := kept.rebind whole peer count
    rw [← written] at next
    exact next
  cases opens with
  | same => exact kept
  | @attach _ acc chan continues =>
    cases chan with
    | none => exact rebound continues.mem none start.pax.liveCount
    | some peer => exact rebound continues.mem (some peer) (start.pax.liveCount + 1)
  | greet _ _ _ found => exact rebound (SortedList.findFwd_mem found).1 _ _
  | replace _ _ _ found => exact rebound (SortedList.findFwd_mem found).1 _ start.pax.liveCount
  | wait _ _ _ absent => exact kept.wait (kept.ranked.find_eq_none.mp absent)
  | lose _ found => exact rebound (List.mem_of_find?_eq_some found) none _

/-- A join is inserted into the list. -/
theorem enlist_alist (node : Node) (inum : Nat) (req : Request) :
    (enlist node inum req).pax.alist =
      acceptorInsert node.pax.alist (joinedAcceptor node.pax inum req) := by
  unfold enlist
  cases acceptorFind node.pax.adefer inum <;> rfl

/-- A join keeps the lists. -/
theorem enlist_kept {node : Node} (kept : node.pax.roster.Kept owner) (inum : Nat)
    (req : Request) : (enlist node inum req).pax.roster.Kept owner := by
  rcases enlist_roster kept inum req with same | ⟨lower, upper, peer, whole, below, above, same⟩
  · rw [same]
    exact kept
  · rw [same]
    exact @Roster.Kept.enter owner _ kept lower upper ⟨inum, peer, req.data⟩ whole below above _

/-- A part of somebody else keeps the lists. -/
theorem delist_kept {node : Node} {paxid : Nat} (kept : node.pax.roster.Kept owner)
    (other : paxid ≠ owner) : (delist node paxid).pax.roster.Kept owner := by
  rcases delist_roster kept paxid with same | ⟨lower, acc, upper, whole, rfl, same⟩
  · rw [same]
    exact kept
  · rw [same]
    exact kept.leave whole other _

/-- Who takes part in a session and who leads it, as the session sees it. -/
structure Polity where
  selfId : Nat
  proposer : Option Nat
  roster : Roster

/-- Who takes part and who leads. -/
def Session.polity (pax : Session) : Polity :=
  { selfId := pax.selfId, proposer := pax.proposer, roster := pax.roster }

/-- What happens beside the log leaves everything but the channels. -/
theorem Beside.polity {node next : Node} (beside : Beside start event node next) :
    next.pax.polity =
      { selfId := node.pax.selfId, proposer := node.pax.proposer, roster := next.pax.roster } := by
  have self : next.pax.selfId = node.pax.selfId := congrArg Core.selfId beside.core
  have proposer : next.pax.proposer = node.pax.proposer := congrArg Core.proposer beside.core
  rw [Session.polity, self, proposer]

/-- An outer move changes nothing of it. -/
theorem Outer.polity {node next : Node} (outer : Outer start event node next) :
    next.pax.polity = node.pax.polity := by
  rw [outer.toBeside.polity, outer.roster]
  rfl

@[simp] theorem instanceInsertAndUpstart_polity (node : Node) (inst : Instance) :
    (instanceInsertAndUpstart node inst).pax.polity = node.pax.polity := by
  obtain ⟨_, _, same⟩ := instanceInsertAndUpstart_eq node inst
  rw [same]
  rfl

@[simp] theorem announceDecree_polity (node : Node) (inst : Instance) :
    (announceDecree node inst).pax.polity = node.pax.polity :=
  instanceInsertAndUpstart_polity node _

/-- Moves from within a learn change neither channels nor leaders. -/
theorem Nest.polity {node next : Node} (act : Nest start event node next) :
    next.pax.polity = node.pax.polity := by
  -- A decree announces an instance, which leaves the people alone.
  cases act with
  | outer outer => exact outer.polity
  | defer prior => exact prior.polity
  | decree prior => exact (announceDecree_polity _ _).trans prior.polity
  | announce => rfl
  | commit => rfl
  | cache => rfl
  | aim => rfl
  | prepare => rfl

/-- What the handler of an event makes of the channels and the leader that it finds. -/
inductive Turns (start : Node) (event : Event) : Polity → Prop where
  | opened {roster} (opens : Opens start event roster) (stays : ¬ Deposes start.pax event)
      (keeps : ¬ Yields start.pax event) :
      Turns start event ⟨start.pax.selfId, start.pax.proposer, roster⟩
  | deposed {mid next : Node} (self : mid.pax.selfId = start.pax.selfId)
      (opens : Opens start event mid.pax.roster) (replaces : Replaces mid next) :
      Turns start event next.pax.polity
  | yielded {acc peer} (mem : acc ∈ start.pax.alist)
      (opens : Opens start event ((start.setPeer acc.paxid (some peer)).setLiveCount
        (start.pax.liveCount + 1)).pax.roster) :
      Turns start event ⟨start.pax.selfId, start.pax.proposer.map (min acc.paxid),
        ((start.setPeer acc.paxid (some peer)).setLiveCount (start.pax.liveCount + 1)).pax.roster⟩

/-- The replacement of a proposer concerns no channel. -/
theorem Replaces.roster {node next : Node} (replaces : Replaces node next) :
    next.pax.roster = node.pax.roster := by
  obtain ⟨_, _, _, same⟩ := replaces.eq
  rw [same]
  rfl

/-- The replacement of a proposer leaves us who we are. -/
theorem Replaces.selfId {node next : Node} (replaces : Replaces node next) :
    next.pax.selfId = node.pax.selfId := by
  obtain ⟨_, _, _, same⟩ := replaces.eq
  rw [same]

/-- However a handler turns, the channels are those that its event opens. -/
theorem Turns.opens {polity : Polity} (turns : Turns start event polity) :
    Opens start event polity.roster ∧ polity.selfId = start.pax.selfId := by
  -- A deposition keeps the channels that the event has opened.
  cases turns with
  | opened opens => exact ⟨opens, rfl⟩
  | deposed self opens replaces =>
    rw [← replaces.roster] at opens
    exact ⟨opens, replaces.selfId.trans self⟩
  | yielded _ opens => exact ⟨opens, rfl⟩

/-- Yielding takes the higher-ranked of the acceptor and the proposer for the proposer. -/
theorem yieldTo_polity (node : Node) (acc : Acceptor) : (yieldTo node acc).pax.polity =
    ⟨node.pax.selfId, node.pax.proposer.map (min acc.paxid), node.pax.roster⟩ := by
  -- The lower of the two identifiers is the one that outranks the other.
  unfold yieldTo
  split
  · rename_i proposer current
    rw [current, Option.map_some]
    split
    · rename_i higher
      rw [Nat.min_eq_left (Nat.le_of_lt higher)]
      rfl
    · rename_i lower
      rw [Nat.min_eq_right (Nat.le_of_not_lt lower), ← current]
      rfl
  · rename_i nobody
    rw [nobody, Option.map_none, ← nobody]
    rfl

/-- A continuation that yields has attached the channel that was made. -/
theorem yieldTo_turns {mid : Node} {purpose : Purpose} {acc : Acceptor} {peer : PeerId}
    (prior : Prior start event mid)
    (continues : Continues start.pax event purpose acc (some peer))
    (attaches : Attaches start.pax acc purpose)
    (attached : mid.pax.roster = (attachChannel start acc.paxid (some peer)).pax.roster) :
    Turns start event (yieldTo mid acc).pax.polity := by
  have self : mid.pax.selfId = start.pax.selfId := congrArg Core.selfId prior.core
  have proposer : mid.pax.proposer = start.pax.proposer := congrArg Core.proposer prior.core
  rw [yieldTo_polity, self, proposer, attached]
  exact .yielded continues.mem (.attach continues attaches)

/-- Moves of the handler itself turn as its event demands, or leave channels and leader alone. -/
theorem Top.polity {node next : Node} (act : Top start event node next) :
    next.pax.polity = node.pax.polity ∨ Turns start event next.pax.polity := by
  -- Channels and leader change with a loss, a yield or a hello; the other moves leave them.
  cases act with
  | beside prior stays keeps =>
    right
    rw [prior.toBeside.polity]
    exact .opened prior.opened stays keeps
  | depose _ prior _ _ replaces =>
    exact Or.inr (.deposed (congrArg Core.selfId prior.core) prior.opened replaces)
  | promise => exact Or.inl (by rw [acceptorPromise_pax]; rfl)
  | store _ _ _ _ stores =>
    obtain ⟨_, _, same⟩ := stores.eq
    exact Or.inl (by rw [same]; rfl)
  | accept _ _ _ _ stores =>
    obtain ⟨_, _, same⟩ := stores.eq
    exact Or.inl (by rw [same]; rfl)
  | commitFresh => exact Or.inl (instanceInsertAndUpstart_polity _ _)
  | merge _ _ _ _ _ _ merges =>
    obtain ⟨_, _, same⟩ := merges.eq
    exact Or.inl (by rw [same]; rfl)
  | @fill _ _ _ place _ inum =>
    obtain ⟨_, same⟩ := linkScratch_eq (node.bumpReqId.setIlist (node.bumpReqId.pax.ilist.alloc
      (nullInstance node.bumpReqId.pax inum))) place.addr
        ⟨nextAddr node.bumpReqId, nullInstance node.bumpReqId.pax inum⟩
    exact Or.inl (congrArg (fun node => node.pax.polity) same :
      (fillNull node place.addr inum).pax.polity = _)
  | @undefer _ _ rest => exact Or.inl (announceDecree_polity (node.setIdefer rest) _)
  | yieldRedirect prior continues lost higher _ attached =>
    exact Or.inr (yieldTo_turns prior continues ⟨lost, higher⟩ attached)
  | yieldRefuse prior continues unprepared attached =>
    exact Or.inr (yieldTo_turns prior continues unprepared attached)
  | @helloYield mid source hdr body acc proposer prior asked opcode heeded found lost current
      higher greeted =>
    right
    obtain ⟨mem, named⟩ := SortedList.findFwd_mem found
    have self : mid.pax.selfId = start.pax.selfId := congrArg Core.selfId prior.core
    have least : some hdr.inum = start.pax.proposer.map (min acc.paxid) := by
      rw [current, Option.map_some, named, Nat.min_eq_left (Nat.le_of_lt higher)]
    have same : (((if isProposer mid.pax then mid.setPrep none else mid).setProposer
        hdr.inum).setBallot hdr.ballot).pax.polity =
          ⟨mid.pax.selfId, some hdr.inum, mid.pax.roster⟩ := by
      split <;> rfl
    rw [same, self, least, greeted]
    exact .yielded mem (.greet asked opcode heeded found lost)
  | _ => exact Or.inl rfl

/-- A learn changes at once who takes part only if it learns a join. -/
theorem learnt_polity (node : Node) (addr : Addr) (inst : Instance) (req : Option Request) :
    (learnt node addr inst req).pax.polity = node.pax.polity ∨ ∃ joined,
      (learnt node addr inst req).pax.polity = ⟨node.pax.selfId, node.pax.proposer,
        (enlist node inst.hdr.inum joined).pax.roster⟩ := by
  -- Only a join adds an acceptor at once; a part does so behind its callback.
  unfold learnt
  split
  · rename_i joined _
    refine Or.inr ⟨joined, ?_⟩
    -- The mark on the instance is nothing that a join looks at.
    show Session.polity (Node.pax (enlist _ _ _)) = _
    unfold enlist
    cases found : acceptorFind node.pax.adefer inst.hdr.inum with
    | none =>
      simp only [noteLearn, Node.modify, Node.setIlist, Node.emit, found]
      rfl
    | some other =>
      simp only [noteLearn, Node.modify, Node.setIlist, Node.emit, found]
      rfl
  · exact Or.inl rfl

/-- A removal from the list leaves us who we are. -/
theorem delist_selfId (node : Node) (paxid : Nat) :
    (delist node paxid).pax.selfId = node.pax.selfId :=
  congrArg Core.selfId (delist_core node paxid)

/-- A removal from the list leaves who we are and who leads. -/
theorem delist_polity (node : Node) (paxid : Nat) : (delist node paxid).pax.polity =
    ⟨node.pax.selfId, node.pax.proposer, (delist node paxid).pax.roster⟩ := by
  have core := delist_core node paxid
  have self : (delist node paxid).pax.selfId = node.pax.selfId := congrArg Core.selfId core
  have proposer : (delist node paxid).pax.proposer = node.pax.proposer :=
    congrArg Core.proposer core
  rw [Session.polity, self, proposer]

/-- The lists of a session in the middle of a handler. -/
structure Manned (start : Node) (config : Config) : Prop where
  self : config.node.pax.selfId = start.pax.selfId
  kept : config.node.pax.roster.Kept start.pax.selfId

/-- The same people in the same lists. -/
theorem Manned.congr {config after : Config} (manned : Manned start config)
    (same : after.node.pax.polity = config.node.pax.polity) : Manned start after where
  self := (congrArg Polity.selfId same).trans manned.self
  kept := by
    have roster : after.node.pax.roster = config.node.pax.roster := congrArg Polity.roster same
    rw [roster]
    exact manned.kept

/-- Every move keeps the lists, with ourselves among them. -/
theorem Manned.move {config after : Config} (manned : Manned start config)
    (move : Move start event config after) (init : start.pax.roster.Kept start.pax.selfId) :
    Manned start after := by
  -- Each change of the lists has its own lemma, and the other moves change none.
  cases move with
  | top act =>
    rcases act.polity with same | turns
    · exact manned.congr same
    · obtain ⟨opens, self⟩ := turns.opens
      exact ⟨self, opens.kept init⟩
  | inner move =>
    cases move with
    | nest _ act => exact manned.congr act.polity
    | enter => exact manned.congr rfl
    | @learn node _ addr inst =>
      rcases learnt_polity node addr inst (learnRequest node.pax inst.val) with same | ⟨req, same⟩
      · exact manned.congr same
      · constructor
        · exact (congrArg Polity.selfId same).trans manned.self
        · have roster : (learnt node addr inst _).pax.roster =
              (enlist node inst.hdr.inum req).pax.roster := congrArg Polity.roster same
          show Roster.Kept _ (learnt node addr inst _).pax.roster
          rw [roster]
          exact enlist_kept manned.kept inst.hdr.inum req
    | delist other =>
      exact ⟨(delist_selfId _ _).trans manned.self, delist_kept manned.kept (manned.self ▸ other)⟩
    | depose other _ replaces =>
      constructor
      · exact replaces.selfId.trans ((delist_selfId _ _).trans manned.self)
      · rw [replaces.roster]
        exact delist_kept manned.kept (manned.self ▸ other)
    | next => exact manned.congr rfl
    | last => exact manned.congr rfl
    | gap => exact manned.congr rfl
    | rest => exact manned.congr rfl

/-- An acceptor as a welcome lists it: the sender has the channel that the welcome came on. -/
def welcomedAcceptor (source : PeerId) (hdr : Header) (packed : PackedAcceptor) : Acceptor :=
  { paxid := packed.paxid
    peer := if packed.paxid = hdr.ballot.id then some source else none
    desc := packed.desc }

/-- A welcome lists its acceptors in order, and takes the owner of its ballot for the proposer. -/
theorem welcomeAcceptors_polity {source : PeerId} {hdr : Header} {alist : List PackedAcceptor}
    {node : Node} : (welcomeAcceptors source hdr node alist).pax.polity =
      { selfId := node.pax.selfId
        proposer := if alist.any (fun packed => packed.paxid = hdr.ballot.id)
          then some hdr.ballot.id else node.pax.proposer
        roster :=
          { alist := node.pax.alist ++ alist.map (welcomedAcceptor source hdr)
            adefer := node.pax.adefer
            liveCount := node.pax.liveCount +
              alist.countP fun packed => packed.paxid = hdr.ballot.id } } := by
  -- The acceptors are listed one by one, and the owner of the ballot gets the channel.
  induction alist generalizing node with
  | nil => simp [welcomeAcceptors, Session.polity, Session.roster]
  | cons packed rest ih =>
    unfold welcomeAcceptors
    simp only
    split
    · rename_i named
      have named : packed.paxid = hdr.ballot.id := named
      rw [ih]
      simp [Node.setLiveCount, Node.setProposer, Node.setAlist, acceptorUnpack, welcomedAcceptor,
        named]
      omega
    · rename_i other
      have other : packed.paxid ≠ hdr.ballot.id := other
      split
      · rw [ih]
        simp [Node.connect, Node.emit, Node.setAlist, acceptorUnpack, welcomedAcceptor, other]
      · rw [ih]
        simp [Node.setAlist, acceptorUnpack, welcomedAcceptor, other]

/-- Who takes part in a welcomed session. -/
theorem Welcome.polity (welcome : Welcome) : welcome.node.pax.polity =
    { selfId := welcome.hdr.inum
      proposer := if welcome.alist.any (fun packed => packed.paxid = welcome.hdr.ballot.id)
        then some welcome.hdr.ballot.id else none
      roster :=
        { alist := welcome.alist.map (welcomedAcceptor welcome.source welcome.hdr)
          adefer := []
          liveCount := 1 +
            welcome.alist.countP fun packed => packed.paxid = welcome.hdr.ballot.id } } :=
  welcomeAcceptors_polity

/-- A welcome lists acceptors in order, with the newcomer among them. -/
structure Welcome.Peopled (welcome : Welcome) : Prop where
  ranked : welcome.alist.Pairwise fun x y => x.paxid < y.paxid
  newcomer : ∃ packed ∈ welcome.alist, packed.paxid = welcome.hdr.inum

/-- A session begins with its lists in order. -/
theorem Begins.kept {fits : Welcome → Prop} {node : Node} {first : Nat}
    (begins : Begins fits node first) (peopled : ∀ welcome, fits welcome → welcome.Peopled) :
    node.pax.roster.Kept node.pax.selfId := by
  -- The founder has itself, and a newcomer the list of its welcome.
  cases begins with
  | start session desc =>
    constructor
    · exact List.pairwise_singleton _ _
    · exact ⟨_, List.mem_singleton_self _, rfl⟩
    · exact List.Pairwise.nil
    · exact fun acc mem => absurd mem List.not_mem_nil
    · exact fun acc _ other mem => absurd mem List.not_mem_nil
  | welcome welcome fit =>
    obtain ⟨ranked, packed, mem, named⟩ := peopled welcome fit
    have self : welcome.node.pax.selfId = welcome.hdr.inum :=
      congrArg Polity.selfId welcome.polity
    have roster := congrArg Polity.roster welcome.polity
    change welcome.node.pax.roster = _ at roster
    rw [roster, self]
    constructor
    · exact List.pairwise_map.mpr ranked
    · exact ⟨_, List.mem_map_of_mem mem, named⟩
    · exact List.Pairwise.nil
    · exact fun acc mem => absurd mem List.not_mem_nil
    · exact fun acc _ other mem => absurd mem List.not_mem_nil

end Motmot
