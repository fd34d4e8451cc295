import Motmot.Proofs.Paxos.Follow

/-! A commit and the learns that it leads to follow the moves, however deep they nest. -/

namespace Motmot

variable {start : Node} {event : Event} {commit : Commit}

/-- A loop that is inside a learn lets other moves happen. -/
theorem Lets.learning {it : Option Addr} {leaving : Option Nat} {loops : List Loop} :
    Lets (⟨it, .learning leaving⟩ :: loops) :=
  ⟨leaving, rfl⟩

/-- The replacement of a lost proposer follows the moves. -/
theorem replaceProposer_follows {move : Config → Config → Prop} {before after : List Loop}
    (letsBefore : Lets before) (letsAfter : Lets after)
    (included : ∀ config after, Inner start event config after → move config after)
    {base node : Node} (out : node.out = base.out)
    (replace : ∀ next, Replaces node next → move ⟨base, before⟩ ⟨next, after⟩) :
    Leads move before after base
      (if isProposer (resetProposer node).pax = true then
        proposerPrepare commit (resetProposer node) true else .ok (resetProposer node)) := by
  -- The heir prepares, and everybody else elects it.
  obtain ⟨proposer, same⟩ := resetProposer_eq node
  split
  · rename_i chosen
    refine proposerPrepare_follows letsBefore letsAfter included true (by rw [same, out])
      (fun _ => chosen) fun idle enough => ?_
    rw [same] at idle enough
    exact replace _ (.begin chosen idle enough)
  · rename_i remains
    exact .step (replace _ (.elect (by simpa using remains))) .done

/-- A commit past the hole at most asks for the one that is missing. -/
theorem commitAhead_follows {loops : List Loop} (lets : Lets loops) {node : Node} :
    Leads (Inner start event) loops loops node (commitAhead node) := by
  -- A retry is sent in one branch, and nothing in the others.
  unfold commitAhead
  split
  · exact .done
  · split
    · exact .halt (by simp)
    · split
      · split
        · exact .halt (by simp)
        · exact .done
      · exact paxosSendToProposer_follows (.refl node) rfl (by trivial) lets

/-- A retrieve is only sent. -/
theorem paxosRetrieve_follows {loops : List Loop} (lets : Lets loops) {node : Node}
    (inst : Instance) :
    Leads (Inner start event) loops loops node (paxosRetrieve node inst) := by
  unfold paxosRetrieve
  simp only
  split
  · exact .okOuter lets ((Outer.refl node).broadcast rfl trivial)
  · split
    · exact .okOuter lets ((Outer.refl node).broadcast rfl trivial)
    · exact paxosSend_follows (.refl node) rfl (by trivial) lets _

section Learns

variable (commits : Commits start event commit) {loops : List Loop}
include commits

/-- The calls that the client makes from a callback follow the moves. -/
theorem clientCalls_follows (lets : Lets loops) (calls : List ClientCall) {node : Node}
    (wf : node.pax.ilist.WellFormed) (scripted : Scripted start node)
    (called : ∀ call ∈ calls, Calls start event call) :
    Leads (Inner start event) loops loops node (clientCalls commit node calls) := by
  -- By induction on the calls: each begins in the state that the one before has left.
  induction calls generalizing node with
  | nil => exact .done
  | cons call rest ih =>
    refine .andThen (paxosRequest_follows lets (fun _ => commits) wf scripted
      (called call List.mem_cons_self)) fun mid path => ?_
    exact ih (inner_wellFormed path wf) (inner_scripted path scripted)
      fun call mem => called call (List.mem_cons_of_mem _ mem)

/-- Whatever the client does from a callback follows the moves. -/
theorem invoke_follows (lets : Lets loops) {node : Node} (wf : node.pax.ilist.WellFormed)
    (scripted : Scripted start node) :
    Leads (Inner start event) loops loops node (invoke commit node) := by
  -- The client makes its calls one after the other, and comes back to the loop or ends it.
  unfold invoke
  split
  · exact .done
  · rename_i visit rest script
    have popped : Outer start event node { node with script := rest } := .popScript script
    -- The visit was to come from the start.
    have visited : visit ∈ start.script :=
      scripted visit (by rw [script]; exact List.mem_cons_self)
    have called : Leads (Inner start event) loops loops { node with script := rest }
        (clientCalls commit { node with script := rest } visit.calls) :=
      clientCalls_follows commits lets _ wf (popped.scripted scripted)
        fun _ mem => .callback visited mem
    refine .outer lets popped (called.andThen fun mid _ => ?_)
    split
    · exact .done
    · exact .halt (by simp)

/-- A callback follows the moves. -/
theorem callback_follows (lets : Lets loops) {node : Node} (wf : node.pax.ilist.WellFormed)
    (scripted : Scripted start node) {effect : Effect} (side : Side start event node [] effect) :
    Leads (Inner start event) loops loops node (callback commit node effect) := by
  have told : Outer start event node (node.emit effect) := (Outer.refl node).emit side
  exact .outer lets told (invoke_follows commits lets (told.wellFormed wf) scripted)

/-- A join that is learned follows the moves once its acceptor is on the list. -/
theorem learnJoin_follows (lets : Lets loops) {node : Node} {inum : Nat} {req : Request}
    (wf : (enlist node inum req).pax.ilist.WellFormed)
    (scripted : Scripted start (enlist node inum req)) (hole : inum = node.pax.ihole) :
    Leads (Inner start event) loops loops (enlist node inum req)
      (learnJoin commit node inum req) := by
  unfold learnJoin
  simp only
  -- The newcomer is enlisted under the number of the hole, which a learn does not move.
  have same : inum = (enlist node inum req).pax.ihole := by
    rw [show (enlist node inum req).pax.ihole = node.pax.ihole from
      congrArg Core.ihole (enlist_core node inum req)]
    exact hole
  generalize enlist node inum req = joined at wf scripted same ⊢
  -- The proposer asks for a connection to the newcomer before the callback.
  have welcomed : Leads (Inner start event) loops loops joined
      (if isProposer joined.pax = true then proposerWelcome commit joined
        (joinedAcceptor node.pax inum req) else .ok joined) := by
    split
    · rename_i proposer
      have greeted : Outer start event joined (joined.connect .welcome
          (joinedAcceptor node.pax inum req)) :=
        .connect ⟨by simp, fun _ => ⟨proposer, same⟩, by simp⟩
      exact .outer lets greeted (invoke_follows commits lets (greeted.wellFormed wf)
        (greeted.scripted scripted))
    · exact .done
  exact welcomed.andThen fun mid path =>
    callback_follows commits lets (inner_wellFormed path wf) (inner_scripted path scripted)
      (.join _ _)

/-- The part of an acceptor follows the moves, which take it off the list behind the callback. -/
theorem learnPart_follows {it : Option Addr} {node : Node} (wf : node.pax.ilist.WellFormed)
    (scripted : Scripted start node) (paxid : Nat) :
    Leads (Inner start event)
      (⟨it, .learning ((acceptorFind node.pax.alist paxid).map Acceptor.paxid)⟩ :: loops)
      (⟨it, .learning none⟩ :: loops) node (learnPart commit node paxid) := by
  unfold learnPart
  split
  · -- Whoever is not listed is not parted with again.
    rename_i absent
    rw [absent]
    exact .done
  · rename_i acc found
    obtain ⟨-, rfl⟩ := SortedList.findFwd_mem found
    rw [found, Option.map_some]
    refine .andThen (callback_follows commits .learning wf scripted (.part _)) fun mid path => ?_
    split
    · exact paxosEnd_follows .learning rfl id
    · -- The acceptor is removed, and if it was the proposer then another one is elected.
      rename_i other
      simp only
      have core : (delist mid acc.paxid).pax.core = mid.pax.core := delist_core mid acc.paxid
      have out := delist_out mid acc.paxid
      split
      · exact .haltLike (by simp) out (by rw [isProposer_congr core]; exact id)
      · rename_i proposer current
        have led : mid.pax.proposer = some proposer :=
          (congrArg Core.proposer core).symm.trans current
        have replaced : Leads (Inner start event) (⟨it, .learning (some acc.paxid)⟩ :: loops)
            (⟨it, .learning none⟩ :: loops) mid
            (if (decide (acc.paxid = proposer) && isProposer (if acc.paxid = proposer
              then resetProposer (delist mid acc.paxid) else delist mid acc.paxid).pax) = true
            then proposerPrepare commit (if acc.paxid = proposer
              then resetProposer (delist mid acc.paxid) else delist mid acc.paxid) true
            else .ok (if acc.paxid = proposer
              then resetProposer (delist mid acc.paxid) else delist mid acc.paxid)) := by
          by_cases gone : acc.paxid = proposer
          · obtain rfl := gone
            simpa using replaceProposer_follows .learning .learning (fun _ _ => id) out
              fun next replaces => .depose other led replaces
          · simp only [gone, if_false, decide_false, Bool.false_and]
            refine .step (.delist other ?_) .done
            rw [led]
            simpa using Ne.symm gone
        exact replaced.andThen fun last _ => .okOuter .learning (.peerDestroy last _)

/-- A learn follows the moves, from the scan that found it to the end of its learning. -/
theorem paxosLearn_follows {addr : Addr} {inst : Instance} {node : Node}
    (wf : node.pax.ilist.WellFormed) (scripted : Scripted start node)
    (held : node.inst? addr = some inst) (hole : inst.hdr.inum = node.pax.ihole)
    (committed : inst.committed = true)
    (cached : inst.cached = true) (unlearned : inst.learned = false)
    (known : requestNeedsCached inst.val.dkind = true →
      (learnRequest node.pax inst.val).isSome = true) :
    Leads (Inner start event) (⟨some addr, .scanning⟩ :: loops)
      (⟨some addr, .learning none⟩ :: loops)
      node (paxosLearn commit node addr inst (learnRequest node.pax inst.val)) := by
  by_cases gone : inst.val.dkind = .chat ∧ acceptorFind node.pax.alist inst.val.reqid.id = none
  · -- Without its sender the chat is noted, and then the assertion fails.
    obtain ⟨kind, gone⟩ := gone
    obtain ⟨req, found⟩ := Option.isSome_iff_exists.mp (known (by rw [kind]; rfl))
    have stops : paxosLearn commit node addr inst (learnRequest node.pax inst.val) =
        (noteLearn node addr inst).fail .learnSender := by
      rw [found]
      simp only [learnRequest, kind, requestNeedsCached] at found
      have same : req.val.reqid = inst.val.reqid := (SortedList.findFwd_mem found).2
      have gone : acceptorFind (noteLearn node addr inst).pax.alist req.val.reqid.id = none := by
        rw [same]
        exact gone
      simp only [paxosLearn, kind, learnChat, gone]
    rw [stops]
    exact ⟨_, .refl, Or.inr rfl, by simp, by simp,
      fun _ => .learn held hole committed cached unlearned kind gone, id, by simp⟩
  have sent : inst.val.dkind = .chat →
      (acceptorFind node.pax.alist inst.val.reqid.id).isSome = true := by
    intro kind
    rw [Option.isSome_iff_ne_none]
    exact fun absent => gone ⟨kind, absent⟩
  have move : Inner start event ⟨node, ⟨some addr, .scanning⟩ :: loops⟩ _ :=
    .learn held hole committed cached unlearned known sent
  have wfLearnt := move.wellFormed wf
  have scriptedLearnt := move.scripted scripted
  refine .step move ?_
  generalize asked : learnRequest node.pax inst.val = req at known wfLearnt scriptedLearnt ⊢
  unfold paxosLearn learnt leavingOf at *
  simp only at wfLearnt scriptedLearnt ⊢
  -- One case for each kind of value that is learned.
  rcases kind : inst.val.dkind with _ | _ | _ | _ | _
  case null =>
    simp only [kind, heard, List.append_nil]
    exact .done
  case chat =>
    -- The request of a cached chat is there, and so is its sender.
    rcases req with _ | req
    · simp [kind, requestNeedsCached] at known
    · obtain ⟨acc, sender⟩ := Option.isSome_iff_exists.mp (sent kind)
      simp only [learnRequest, kind, requestNeedsCached] at asked
      have same : req.val.reqid = inst.val.reqid := (SortedList.findFwd_mem asked).2
      simp only [kind, heard, sender] at wfLearnt scriptedLearnt ⊢
      have sender : acceptorFind (noteLearn node addr inst).pax.alist req.val.reqid.id =
          some acc := by
        rw [same]
        exact sender
      simp only [learnChat, sender]
      exact invoke_follows commits .learning wfLearnt scriptedLearnt
  case join =>
    rcases req with _ | req
    · simp [kind, requestNeedsCached] at known
    · simp only [kind] at wfLearnt scriptedLearnt ⊢
      exact learnJoin_follows commits .learning wfLearnt scriptedLearnt hole
  case part =>
    simp only [kind, heard, List.append_nil] at wfLearnt scriptedLearnt ⊢
    exact learnPart_follows commits wfLearnt scriptedLearnt inst.val.extra
  case kill =>
    simp only [kind, heard, List.append_nil] at wfLearnt scriptedLearnt ⊢
    exact learnPart_follows commits wfLearnt scriptedLearnt inst.val.extra

/-- A learning loop follows the moves, from any position of its iterator. -/
theorem learnLoop_follows (fuel : Nat) {it : Option Addr} {node : Node}
    (wf : node.pax.ilist.WellFormed) (scripted : Scripted start node) :
    Leads (Inner start event) (⟨it, .scanning⟩ :: loops) loops node
      (learnLoop commit fuel node it) := by
  -- The induction is on the rounds of the loop, each of which learns one instance.
  induction fuel generalizing it node with
  | zero => exact .halt (by simp)
  | succ fuel ih =>
    cases it with
    | none => exact .step .last .done
    | some addr =>
      unfold learnLoop
      split
      · exact .halt (by simp)
      · rename_i inst held
        split
        · rename_i skipped
          exact .step (.gap held skipped) .done
        · rename_i hole
          have hole : inst.hdr.inum = node.pax.ihole := by simpa using hole
          split
          · rename_i waits
            exact .step (.rest held hole (by simpa [Instance.unfinished] using waits)) .done
          · rename_i finished
            split
            · exact .halt (by simp)
            · rename_i unlearned
              simp only
              have ready : inst.committed = true ∧ inst.cached = true := by
                simpa using finished
              split
              · -- The request of a cached value is missing.
                rename_i absent
                obtain ⟨needs, absent⟩ : requestNeedsCached inst.val.dkind = true ∧
                    learnRequest node.pax inst.val = none := by simpa using absent
                refine ⟨_, .refl, Or.inl rfl, by simp, fun _ => ?_, by simp, id, by simp⟩
                refine ⟨addr, inst, held, ready.2, by simpa using unlearned, fun known => ?_⟩
                simp only [learnRequest, needs, if_true] at absent
                have present := known needs
                rw [absent] at present
                contradiction
              · -- The request is there when the value needs one.
                rename_i present
                refine .andThen (paxosLearn_follows commits wf scripted held hole ready.1 ready.2
                  (by simpa using unlearned) ?_) fun mid path => ?_
                · intro needs
                  simpa [needs, Option.isSome_iff_ne_none] using present
                · split
                  · exact .halt (by simp)
                  · rename_i follow link
                    exact .step (.next link)
                      (ih (inner_wellFormed path wf) (inner_scripted path scripted))

/-- A commit at the hole follows the moves: it aims the cursor and learns from there. -/
theorem commitHole_follows (lets : Lets loops) (fuel : Nat) {node : Node} {cell : Cell}
    (wf : node.pax.ilist.WellFormed) (scripted : Scripted start node)
    (mem : cell ∈ node.pax.ilist.cells)
    (unfinished : cell.inst.unfinished) (known : Supplied node.pax cell.inst.val)
    (hole : cell.inum = node.pax.ihole) :
    Leads (Inner start event) loops loops node
      (commitHole commit fuel (finishCommit node cell.addr)) := by
  -- The instance is marked first, and then the cursor decides where the loop starts.
  have wfCached := finishCommit_wellFormed wf mem
  -- Short of a cursor the commit halts as soon as it is marked.
  have stuck : Leads (Inner start event) loops loops node (finishCommit node cell.addr).undefined :=
    .step (.nest lets (.cache mem unfinished known (Nat.le_of_eq hole.symm) commits.licensed))
      (.halt (by simp))
  -- Once the cursor is aimed, the loop starts from it.
  have aimed : ∀ last inst first, (finishCommit node cell.addr).pax.istart = some last →
      (finishCommit node cell.addr).inst? last = some inst →
      (if inst.hdr.inum = node.pax.ihole then first = last
        else (finishCommit node cell.addr).pax.ilist.next last = some (some first)) →
      ∀ found, (finishCommit node cell.addr).inst? first = some found →
      Leads (Inner start event) loops loops node
        (if found.hdr.inum ≠ ((finishCommit node cell.addr).setIstart (some first)).pax.ihole
        then ((finishCommit node cell.addr).setIstart (some first)).fail .commitAtHole
        else learnLoop commit fuel ((finishCommit node cell.addr).setIstart (some first))
          (some first)) := by
    intro last inst first cursor held target found located
    refine .step
      (.nest lets (.aim mem unfinished known hole cursor held target commits.licensed)) ?_
    split
    · exact .halt (by simp)
    · rename_i there
      refine .step (.enter lets rfl located (by simpa using there) commits.licensed) ?_
      exact learnLoop_follows commits fuel wfCached scripted
  unfold commitHole
  split
  · exact stuck
  · rename_i last cursor
    split
    · exact stuck
    · rename_i inst held
      simp only
      -- The cursor rests on the instance itself, or right in front of it.
      by_cases here : inst.hdr.inum = node.pax.ihole
      · have same : ¬ inst.hdr.inum ≠ (finishCommit node cell.addr).pax.ihole :=
          not_not_intro here
        simp only [same, if_false, held]
        exact aimed last inst last cursor held (by rw [if_pos here]) inst held
      · have differ : inst.hdr.inum ≠ (finishCommit node cell.addr).pax.ihole := here
        simp only [differ, ne_eq, not_false_eq_true, if_true]
        split
        · rename_i first follow
          split
          · exact stuck
          · rename_i found located
            exact aimed last inst first cursor held (by rw [if_neg here]; exact follow) found
              located
        · exact stuck

/-- A commit follows the moves when the commits nested in its learns do. -/
theorem commitWith_follows (lets : Lets loops) (fuel : Nat) {node : Node} {cell : Cell}
    (wf : node.pax.ilist.WellFormed) (scripted : Scripted start node)
    (mem : cell ∈ node.pax.ilist.cells)
    (unfinished : cell.inst.unfinished) :
    Leads (Inner start event) loops loops node (commitWith commit fuel node cell) := by
  -- The request is missing, or the number is behind, past or at the hole.
  unfold commitWith
  simp only
  split
  · exact .step (.nest lets (.commit mem unfinished commits.licensed))
      (paxosRetrieve_follows lets _)
  · rename_i there
    have known : Supplied node.pax cell.inst.val := by
      intro needs
      change ¬ (requestNeedsCached cell.inst.val.dkind &&
        (requestFind node.pax.rcache cell.inst.val.reqid).isNone) = true at there
      simpa [needs, Option.isSome_iff_ne_none] using there
    split
    · -- The commit of an instance behind the hole fails.
      rename_i behind
      exact ⟨_, .refl, Or.inl rfl, fun _ => ⟨cell, mem, unfinished, behind⟩, by simp, by simp, id,
        by simp⟩
    · rename_i ahead
      have ahead : node.pax.ihole ≤ cell.inum := Nat.le_of_not_lt ahead
      split
      · exact .step (.nest lets (.cache mem unfinished known ahead commits.licensed))
          (commitAhead_follows lets)
      · rename_i hole
        have hole : cell.inum = node.pax.ihole := not_not.mp hole
        exact commitHole_follows commits lets fuel wf scripted mem unfinished known hole

end Learns

/-- The commit function follows the moves, whatever its fuel, in an event that may use it. -/
theorem paxosCommit_commits (fuel : Nat) (licensed : Licenses start event) :
    Commits start event (paxosCommit fuel) := by
  -- The commits nested in the learns have less fuel.
  induction fuel with
  | zero => exact ⟨licensed, fun _ _ _ _ _ => .halt (by simp)⟩
  | succ fuel ih =>
    exact ⟨licensed, fun lets wf scripted mem unfinished =>
      commitWith_follows ih lets fuel wf scripted mem unfinished⟩

end Motmot
