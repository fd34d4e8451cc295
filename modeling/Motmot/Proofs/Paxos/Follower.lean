import Motmot.Proofs.Paxos.Calm
import Motmot.Proofs.Paxos.Steering

/-! What a commit does at a node that is not the proposer. -/

namespace Motmot

/-- Nothing is done to the log, and the node remains a follower. -/
structure Hushed (before after : Node) : Prop where
  ilist : after.pax.ilist = before.pax.ilist
  hole : after.pax.ihole = before.pax.ihole
  follows : isProposer after.pax = false

variable {commit : Commit} {node next : Node}

/-- What is hushed twice is hushed. -/
theorem Hushed.trans {mid : Node} (first : Hushed node mid) (later : Hushed mid next) :
    Hushed node next where
  ilist := later.ilist.trans first.ilist
  hole := later.hole.trans first.hole
  follows := later.follows

/-- What leaves the core of the session alone is hushed. -/
theorem Hushed.of_core (core : next.pax.core = node.pax.core)
    (follows : isProposer node.pax = false) : Hushed node next where
  ilist := congrArg Core.ilist core
  hole := congrArg Core.ihole core
  follows := (isProposer_congr core).trans follows

/-- A message to the proposer leaves the session as it is. -/
theorem paxosSendToProposer_ok {msg : Msg} (sent : paxosSendToProposer node msg = .ok next) :
    next.pax = node.pax := by
  have same := paxosSendToProposer_pax node msg
  rw [sent] at same
  exact same

/-- A follower only sends the requests of its client. -/
theorem paxosRequest_hushed {call : ClientCall} (follows : isProposer node.pax = false)
    (returned : paxosRequest commit node call = .ok next) : Hushed node next := by
  -- The request is counted, kept and sent, and a follower decrees nothing.
  unfold paxosRequest at returned
  split at returned
  · contradiction
  · simp only at returned
    -- The count and the cache are no concern of the log.
    generalize kept_eq : (if requestNeedsCached call.dkind = true
      then node.bumpReqId.setRcache (requestInsert node.bumpReqId.pax.rcache _)
      else node.bumpReqId) = kept at returned
    have still : Hushed node kept := by
      rw [← kept_eq]
      split <;> exact ⟨rfl, rfl, follows⟩
    obtain ⟨sent, sending, finishing⟩ := Outcome.andThen_eq_ok.mp returned
    have sends : Hushed kept sent := by
      split at sending
      · cases sending
        exact ⟨rfl, rfl, still.follows⟩
      · rw [if_neg (by simp [still.follows])] at sending
        have same := paxosSendToProposer_ok sending
        exact ⟨by rw [same], by rw [same], by rw [same]; exact still.follows⟩
    rw [if_neg (by simp [sends.follows])] at finishing
    cases finishing
    exact still.trans sends

/-- A follower only sends what its client asks for in a callback. -/
theorem clientCalls_hushed {calls : List ClientCall} (follows : isProposer node.pax = false)
    (returned : clientCalls commit node calls = .ok next) : Hushed node next := by
  -- By induction on the calls of the client.
  induction calls generalizing node with
  | nil =>
    cases returned
    exact ⟨rfl, rfl, follows⟩
  | cons call rest ih =>
    obtain ⟨mid, first, later⟩ := Outcome.andThen_eq_ok.mp returned
    have hushed := paxosRequest_hushed follows first
    exact hushed.trans (ih hushed.follows later)

/-- Whatever the client does from a callback of a follower. -/
theorem invoke_hushed (follows : isProposer node.pax = false)
    (returned : invoke commit node = .ok next) : Hushed node next := by
  unfold invoke at returned
  -- Without a script the client does nothing, and a visit pops the first one.
  split at returned
  · cases returned
    exact ⟨rfl, rfl, follows⟩
  · rename_i visit rest script
    have popped : Hushed node { node with script := rest } := ⟨rfl, rfl, follows⟩
    obtain ⟨mid, calling, returning⟩ := Outcome.andThen_eq_ok.mp returned
    split at returning
    · cases returning
      exact popped.trans (clientCalls_hushed popped.follows calling)
    · contradiction

/-- A callback of a follower. -/
theorem callback_hushed {effect : Effect} (follows : isProposer node.pax = false)
    (returned : callback commit node effect = .ok next) : Hushed node next := by
  have told : Hushed node (node.emit effect) := ⟨rfl, rfl, follows⟩
  exact told.trans (invoke_hushed told.follows returned)

/-- A chat that a follower learns. -/
theorem learnChat_hushed {req : Request} (follows : isProposer node.pax = false)
    (returned : learnChat commit node req = .ok next) : Hushed node next := by
  unfold learnChat at returned
  split at returned
  · contradiction
  · exact callback_hushed follows returned

/-- A join that a follower learns. -/
theorem learnJoin_hushed {inum : Nat} {req : Request} (follows : isProposer node.pax = false)
    (returned : learnJoin commit node inum req = .ok next) : Hushed node next := by
  have enlisted : Hushed node (enlist node inum req) :=
    .of_core (enlist_core node inum req) follows
  unfold learnJoin at returned
  simp only [enlisted.follows] at returned
  exact enlisted.trans (callback_hushed enlisted.follows returned)

/-- A proposer that prepares is still one afterwards. -/
theorem proposerPrepare_leads {old : Bool} (leads : isProposer node.pax = true)
    (returned : proposerPrepare commit node old = .ok next) : isProposer next.pax = true := by
  -- The parts of the dropped are deferred by moves that leave the office alone.
  unfold proposerPrepare at returned
  split at returned
  · contradiction
  · split at returned
    · contradiction
    · obtain ⟨mid, parting, sending⟩ := Outcome.andThen_eq_ok.mp returned
      cases sending
      show isProposer mid.pax = true
      split at parting
      · obtain ⟨last, parted, -, path⟩ := @decreeDropped_follows [] trivial node .sync commit
          (beginPrepare node).pax.alist (beginPrepare node) rfl
        rw [parted] at parting
        cases parting
        exact inner_leads path leads
      · cases parting
        exact leads

/-- A part that a follower learns may make it a proposer, and does nothing to the log otherwise. -/
theorem learnPart_hushed {paxid : Nat} (follows : isProposer node.pax = false)
    (returned : learnPart commit node paxid = .ok next) :
    isProposer next.pax = true ∨ Hushed node next := by
  -- The callback says nothing to the log; only an election gives it a proposer.
  unfold learnPart at returned
  split at returned
  · cases returned
    exact Or.inr ⟨rfl, rfl, follows⟩
  · obtain ⟨mid, calling, parting⟩ := Outcome.andThen_eq_ok.mp returned
    have called := callback_hushed follows calling
    split at parting
    · contradiction
    · have delisted : Hushed mid (delist mid paxid) :=
        .of_core (delist_core mid paxid) called.follows
      simp only at parting
      split at parting
      · contradiction
      · rename_i proposer current
        obtain ⟨last, electing, closing⟩ := Outcome.andThen_eq_ok.mp parting
        cases closing
        -- The channel that is closed at last is no concern of the log.
        suffices elected : isProposer last.pax = true ∨ Hushed node last by
          rcases elected with leads | hushed
          · exact Or.inl ((isProposer_congr (peerDestroy_core last _)).trans leads)
          · exact Or.inr (hushed.trans (.of_core (peerDestroy_core last _) hushed.follows))
        by_cases gone : paxid = proposer
        · simp only [gone, if_true, decide_true, Bool.true_and] at electing
          split at electing
          · -- We are elected, and go on as a proposer.
            rename_i chosen
            exact Or.inl (proposerPrepare_leads chosen electing)
          · rename_i spared
            cases electing
            obtain ⟨_, same⟩ := resetProposer_eq (delist mid proposer)
            subst gone
            refine Or.inr ((called.trans delisted).trans ⟨?_, ?_, by simpa using spared⟩)
            · rw [same]
            · rw [same]
        · simp only [gone, if_false, decide_false, Bool.false_and] at electing
          cases electing
          exact Or.inr (called.trans delisted)

/-- What a follower learns may make it a proposer, and does no more than that to the log. -/
theorem paxosLearn_hushed {addr : Addr} {inst : Instance} {req : Option Request}
    (follows : isProposer node.pax = false)
    (returned : paxosLearn commit node addr inst req = .ok next) :
    isProposer next.pax = true ∨ Hushed (noteLearn node addr inst) next := by
  -- One case for each kind of value; only a part may elect us.
  have noted : isProposer (noteLearn node addr inst).pax = false := follows
  unfold paxosLearn at returned
  simp only at returned
  split at returned
  · cases returned
    exact Or.inr ⟨rfl, rfl, noted⟩
  · exact Or.inr (learnChat_hushed noted returned)
  · exact Or.inr (learnJoin_hushed noted returned)
  · exact learnPart_hushed noted returned
  · exact learnPart_hushed noted returned
  · contradiction
  · contradiction

/-- Where an instance stands for the learning loop: its number, and whether it is done. -/
def Cell.standing (cell : Cell) : Nat × Bool × Bool :=
  (cell.inum, cell.inst.committed, cell.inst.cached)

/-- Marking an instance learned leaves it where it stands. -/
theorem noteLearn_standing (node : Node) (addr : Addr) (inst : Instance) :
    (noteLearn node addr inst).pax.ilist.cells.map Cell.standing =
      node.pax.ilist.cells.map Cell.standing := by
  show (List.map _ node.pax.ilist.cells).map Cell.standing = _
  rw [List.map_map]
  refine List.map_congr_left fun cell _ => ?_
  simp only [Function.comp_apply]
  split <;> rfl

/-- A learning loop moves the hole on to an instance that is not done, or to none. -/
structure Paced (before after : Node) : Prop where
  standing : after.pax.ilist.cells.map Cell.standing = before.pax.ilist.cells.map Cell.standing
  hole : before.pax.ihole ≤ after.pax.ihole
  rests : ∀ cell ∈ after.pax.ilist.cells, cell.inum = after.pax.ihole → cell.inst.unfinished

/-- A learning loop of a follower, which may be elected on the way. -/
theorem learnLoop_paced {start : Node} {event : Event} (commits : Commits start event commit)
    (fuel : Nat) {it : Option Addr} (wf : node.pax.ilist.WellFormed)
    (scripted : Scripted start node) (ready : Ready node.pax it)
    (follows : isProposer node.pax = false) (returned : learnLoop commit fuel node it = .ok next) :
    isProposer next.pax = true ∨ Paced node next := by
  -- The induction is on the rounds, and the loop stops where it finds nothing ready.
  induction fuel generalizing node it with
  | zero => contradiction
  | succ fuel ih =>
    cases it with
    | none =>
      cases returned
      refine Or.inr ⟨rfl, Nat.le_refl _, fun cell mem number => ?_⟩
      exact absurd (⟨cell, mem, number⟩ : node.pax.ilist.Has _) (ready.run_out wf)
    | some addr =>
      unfold learnLoop at returned
      split at returned
      · contradiction
      · rename_i inst held
        split at returned
        · -- A number was skipped.
          rename_i skipped
          cases returned
          have absent : ¬ node.pax.ilist.Has node.pax.ihole := by
            obtain ⟨found, memFound, rfl, fills | ⟨past, _, _, _, whole, hole⟩⟩ := ready
            · have same := Ilist.At.number wf ⟨found, memFound, rfl, rfl⟩ held
              exact absurd (same.trans fills) skipped
            · exact Ready.skips wf whole hole past
          exact Or.inr ⟨rfl, Nat.le_refl _, fun cell mem number =>
            absurd ⟨cell, mem, number⟩ absent⟩
        · rename_i hole
          have hole : inst.hdr.inum = node.pax.ihole := by simpa using hole
          obtain ⟨found, memFound, rfl, -⟩ := ready
          have listed := wf.mem_of_inst? held (Ilist.onList_iff.mpr ⟨found, memFound, rfl⟩)
          split at returned
          · -- The instance at the hole is not done.
            rename_i waits
            cases returned
            refine Or.inr ⟨rfl, Nat.le_refl _, fun cell mem number => ?_⟩
            obtain rfl := wf.inum_inj mem listed (number.trans hole.symm)
            simpa [Instance.unfinished] using waits
          · rename_i finished
            have ready : inst.committed = true ∧ inst.cached = true := by simpa using finished
            split at returned
            · contradiction
            · rename_i unlearned
              simp only at returned
              split at returned
              · contradiction
              · rename_i present
                obtain ⟨mid, learning, going⟩ := Outcome.andThen_eq_ok.mp returned
                have known : requestNeedsCached inst.val.dkind = true →
                    (learnRequest node.pax inst.val).isSome = true := by
                  intro needs
                  simpa [needs, Option.isSome_iff_ne_none] using present
                have path := @paxosLearn_follows _ _ _ commits
                  [] _ _ _ wf scripted held hole ready.1
                  ready.2
                  (by simpa using unlearned) known
                rw [learning] at path
                have wfMid : mid.pax.ilist.WellFormed := inner_wellFormed path wf
                have scriptedMid : Scripted start mid := inner_scripted path scripted
                split at going
                · contradiction
                · rename_i follow link
                  rcases paxosLearn_hushed follows learning with leads | hushed
                  · -- We were elected, and remain so while the loop goes on.
                    have rest := @learnLoop_follows _ _ _ commits [] fuel follow mid.bumpIhole
                      wfMid scriptedMid
                    rw [going] at rest
                    exact Or.inl (inner_leads rest leads)
                  · have busy : Busy mid found.addr := by
                      refine Busy.congr ?_ hushed.ilist hushed.hole
                      refine ⟨markLearned inst, ?_, hole, rfl⟩
                      exact (wf.mem_modify_linked listed markLearned).mpr (Or.inl rfl)
                    have next := @ih mid.bumpIhole follow wfMid scriptedMid (busy.ready wfMid link)
                      hushed.follows going
                    rcases next with leads | paced
                    · exact Or.inl leads
                    · refine Or.inr ⟨?_, ?_, paced.rests⟩
                      · rw [paced.standing, ← noteLearn_standing node found.addr inst,
                          ← hushed.ilist]
                        rfl
                      · have later : mid.pax.ihole + 1 ≤ next.pax.ihole := paced.hole
                        have same : mid.pax.ihole = node.pax.ihole := hushed.hole
                        omega

/-- The link of an element leads to another element, or to the head. -/
theorem Ilist.next_onList {list : Ilist} {addr follow : Addr} (on : list.onList addr = true)
    (link : list.next addr = some (some follow)) : list.onList follow = true := by
  -- The list is split at the element, whose link is the head of what follows.
  obtain ⟨pre, cell, post, whole, -, -, next, -⟩ := split_of_onList on
  rw [next] at link
  obtain ⟨after, head, rfl⟩ := Option.map_eq_some_iff.mp (Option.some.inj link)
  refine onList_iff.mpr ⟨after, ?_, rfl⟩
  rw [whole]
  simp [List.mem_of_mem_head? head]

/-- A commit of a follower at the hole, from a cursor that is on the log. -/
theorem commitHole_paced {start : Node} {event : Event} (commits : Commits start event commit)
    (fuel : Nat) (wf : node.pax.ilist.WellFormed) (scripted : Scripted start node)
    (on : ∀ cursor, node.pax.istart = some cursor → node.pax.ilist.onList cursor = true)
    (follows : isProposer node.pax = false) (returned : commitHole commit fuel node = .ok next) :
    isProposer next.pax = true ∨ Paced node next := by
  -- Wherever the loop starts, it does so on the instance that fills the hole.
  have looped : ∀ first inst, node.inst? first = some inst → inst.hdr.inum = node.pax.ihole →
      node.pax.ilist.onList first = true →
      learnLoop commit fuel (node.setIstart (some first)) (some first) = .ok next →
      isProposer next.pax = true ∨ Paced node next := by
    intro first inst held hole listed looping
    have mem := wf.mem_of_inst? held listed
    have ready : Ready node.pax (some first) := ⟨_, mem, rfl, Or.inl hole⟩
    have paced := @learnLoop_paced _ (node.setIstart (some first)) _ _ _ commits fuel
      (some first) wf
      scripted ready follows looping
    exact paced.imp id fun paced => ⟨paced.standing, paced.hole, paced.rests⟩
  -- The cursor is on the log, so what it aims at is as well.
  unfold commitHole at returned
  split at returned
  · contradiction
  · rename_i last cursor
    split at returned
    · contradiction
    · rename_i inst held
      simp only at returned
      split at returned
      · rename_i first target
        split at returned
        · contradiction
        · rename_i found located
          split at returned
          · contradiction
          · rename_i there
            refine looped first found located (not_not.mp there) ?_ returned
            split at target
            · exact Ilist.next_onList (on last cursor) target
            · obtain rfl := Option.some.inj (Option.some.inj target)
              exact on last cursor
      · contradiction

end Motmot
