import Motmot.Proofs.Paxos.Bounds
import Motmot.Proofs.Paxos.Promise

/-!
Every handler comes to its end.

A commit learns, a learn runs callbacks of the client, and these may make decrees that are committed
on the spot.
Each round of the learning loop has one instance less to learn, and each decree that is made from
within takes a call that the client has left.
-/

namespace Motmot

/-- The allocations of the log that were not learned. -/
def Ilist.unlearned (list : Ilist) : Nat :=
  list.cells.countP (fun cell => !cell.inst.learned) +
    list.limbo.countP fun gone => !gone.cell.inst.learned

/-- The calls that the client may still make from callbacks. -/
def Node.calls (node : Node) : Nat := (node.script.flatMap Visit.calls).length

/-- The rounds that the learning loops of a session may still take. -/
def Node.load (node : Node) : Nat := node.pax.ilist.unlearned + node.calls

namespace Ilist

/-- A predicate that a map makes nothing meet holds no more often behind it. -/
theorem countP_map_le {α : Type} {p : α → Bool} {f : α → α} {list : List α}
    (less : ∀ y ∈ list, p (f y) = true → p y = true) : (list.map f).countP p ≤ list.countP p := by
  rw [List.countP_map]
  exact List.countP_mono_left less

/-- It holds less often if the map makes an element fail it. -/
theorem countP_map_lt {α : Type} {p : α → Bool} {f : α → α} {list : List α} {x : α}
    (less : ∀ y ∈ list, p (f y) = true → p y = true) (mem : x ∈ list) (was : p x = true)
    (gone : p (f x) = false) : (list.map f).countP p < list.countP p := by
  -- Nothing in front of the element or behind it is counted that was not counted before.
  obtain ⟨front, back, rfl⟩ := List.append_of_mem mem
  have first : (front.map f).countP p ≤ front.countP p :=
    countP_map_le fun y mem => less y (List.mem_append_left _ mem)
  have last : (back.map f).countP p ≤ back.countP p :=
    countP_map_le fun y mem => less y (List.mem_append_right _ (List.mem_cons_of_mem _ mem))
  simp only [List.map_append, List.map_cons, List.countP_append, List.countP_cons, was, gone,
    Bool.false_eq_true, if_true, if_false]
  omega

/-- A rewrite that unlearns nothing leaves no more to learn. -/
theorem unlearned_modify (list : Ilist) (addr : Addr) {f : Instance → Instance}
    (keeps : ∀ inst, inst.learned = true → (f inst).learned = true) :
    (list.modify addr f).unlearned ≤ list.unlearned := by
  -- Elements and detached allocations are counted apart, and each loses no mark.
  apply Nat.add_le_add
  · apply countP_map_le
    intro cell _ later
    by_contra learned
    have learned : cell.inst.learned = true := by simpa using learned
    split at later
    · simp [keeps _ learned] at later
    · simp [learned] at later
  · apply countP_map_le
    intro gone _ later
    by_contra learned
    have learned : gone.cell.inst.learned = true := by simpa using learned
    split at later
    · simp [keeps _ learned] at later
    · simp [learned] at later

/-- Learning an instance leaves one less to learn. -/
theorem unlearned_learn {list : Ilist} {addr : Addr} {inst : Instance}
    (held : list.inst? addr = some inst) (unlearned : inst.learned = false) :
    (list.modify addr markLearned).unlearned < list.unlearned := by
  -- Nowhere does the write take a mark off, and at its own address it sets one.
  have onList : ∀ cell ∈ list.cells, (!(if cell.addr = addr then
      ({ cell with inst := markLearned cell.inst } : Cell) else cell).inst.learned) = true →
        (!cell.inst.learned) = true := by
    intro cell _ later
    split at later
    · simp [markLearned] at later
    · exact later
  have offList : ∀ gone ∈ list.limbo, (!(if gone.cell.addr = addr then
      ({ gone with cell.inst := markLearned gone.cell.inst } : Detached)
        else gone).cell.inst.learned) = true → (!gone.cell.inst.learned) = true := by
    intro gone _ later
    split at later
    · simp [markLearned] at later
    · exact later
  unfold inst? at held
  split at held
  · -- The instance is an element of the list.
    rename_i cell found
    obtain rfl := Option.some.inj held
    have same : cell.addr = addr := by simpa using List.find?_some found
    apply Nat.add_lt_add_of_lt_of_le
    · apply countP_map_lt onList (List.mem_of_find?_eq_some found)
      · simp [unlearned]
      · simp [same, markLearned]
    · exact countP_map_le offList
  · -- The instance is one outside the list.
    obtain ⟨gone, found, rfl⟩ := Option.map_eq_some_iff.mp held
    have same : gone.cell.addr = addr := by simpa using List.find?_some found
    apply Nat.add_lt_add_of_le_of_lt
    · exact countP_map_le onList
    · apply countP_map_lt offList (List.mem_of_find?_eq_some found)
      · simp [unlearned]
      · simp [same, markLearned]

/-- An insertion leaves one instance more to learn, at most. -/
theorem unlearned_insert (list : Ilist) (inst : Instance) :
    (list.insert inst).unlearned ≤ list.unlearned + 1 := by
  -- The insertion adds one element, or leaves the allocation off the list.
  unfold insert
  split
  · rename_i cells made
    obtain ⟨down, placed, rfl⟩ := Option.map_eq_some_iff.mp made
    obtain ⟨upper, lower, split, rfl, -⟩ := SortedList.insertDown_split placed
    have whole : list.cells = lower.reverse ++ upper.reverse := by
      rw [← List.reverse_append, ← split, List.reverse_reverse]
    have one := @List.countP_le_length _ (fun cell : Cell => !cell.inst.learned)
      [{ addr := list.brk, inst := inst }]
    simp only [List.length_singleton] at one
    simp only [unlearned, whole, List.reverse_append, List.reverse_cons, List.countP_append]
    omega
  · simp only [unlearned, alloc, List.countP_cons]
    split <;> omega

end Ilist

/-- A part of a handler that adds no more than so many rounds, and defers nothing when prepared. -/
structure Frugal (extra : Nat) (node next : Node) : Prop where
  visits : next.script.length ≤ node.script.length
  load : next.load ≤ node.load + extra
  leads : Prepared node.pax → Prepared next.pax ∧ next.pax.idefer = node.pax.idefer

namespace Frugal

variable {extra first last : Nat} {node mid next : Node}

/-- What changes neither the script nor the office, and lets so many instances be learned. -/
theorem frame (script : next.script = node.script)
    (unlearned : next.pax.ilist.unlearned ≤ node.pax.ilist.unlearned + extra)
    (office : isProposer next.pax = isProposer node.pax) (prep : next.pax.prep = node.pax.prep)
    (idefer : next.pax.idefer = node.pax.idefer) : Frugal extra node next where
  visits := Nat.le_of_eq (congrArg List.length script)
  -- The load is made of the calls of the script and what is left to learn.
  load := by
    simp only [Node.load, Node.calls, script]
    omega
  leads := by
    rintro ⟨proposer, idle⟩
    exact ⟨⟨office.trans proposer, prep.trans idle⟩, idefer⟩

/-- What leaves the script and the core alone adds nothing. -/
theorem beside (script : next.script = node.script) (core : next.pax.core = node.pax.core) :
    Frugal extra node next := by
  have ilist : next.pax.ilist = node.pax.ilist := congrArg Core.ilist core
  apply frame script ?_ (isProposer_congr core) (congrArg Core.prep core)
    (congrArg Core.idefer core)
  rw [ilist]
  exact Nat.le_add_right _ _

theorem refl (extra : Nat) (node : Node) : Frugal extra node node := beside rfl rfl

theorem trans (early : Frugal first node mid) (late : Frugal last mid next)
    (sum : first + last ≤ extra) : Frugal extra node next where
  visits := Nat.le_trans late.visits early.visits
  -- The two parts are spent one after the other.
  load := by
    have first := early.load
    have last := late.load
    omega
  leads := by
    intro prepared
    obtain ⟨still, same⟩ := early.leads prepared
    obtain ⟨also, equal⟩ := late.leads still
    exact ⟨also, equal.trans same⟩

end Frugal

/-- A part of a handler that comes to its end, and adds no more than so many rounds. -/
structure Terminates (extra : Nat) (node : Node) (result : Result) : Prop where
  settles : Outcome.Settles Stop.diverged result
  frugal : ∀ next, result = .ok next → Frugal extra node next

namespace Terminates

variable {extra first last : Nat} {node mid next : Node} {result : Result}

theorem ok (frugal : Frugal extra node next) : Terminates extra node (.ok next) where
  settles := .ok next
  frugal := by
    intro other same
    obtain rfl := Outcome.ok.inj same
    exact frugal

theorem stop {reason : Stop} {halted : Node} (other : reason ≠ .diverged) :
    Terminates extra node (.stop reason halted) where
  settles := .stop other halted
  frugal := nofun

/-- What was done before a part adds to what the part does. -/
theorem behind (early : Frugal first node mid) (late : Terminates last mid result)
    (sum : first + last ≤ extra) : Terminates extra node result where
  settles := late.settles
  frugal := fun next returned => early.trans (late.frugal next returned) sum

/-- Parts that go on from one another come to their end if both do. -/
theorem andThen {rest : Node → Result} (early : Terminates first node result)
    (late : ∀ mid, Frugal first node mid → Terminates last mid (rest mid))
    (sum : first + last ≤ extra) : Terminates extra node (result.andThen rest) := by
  -- If the first part halts, the second one never begins.
  cases result with
  | ok mid =>
    have frugal := early.frugal mid rfl
    exact behind frugal (late mid frugal) sum
  | stop reason halted =>
    apply stop
    rintro rfl
    exact early.settles halted rfl

end Terminates

/-- A commit comes to its end where script and load together are below a bound. -/
def Serves (bound : Nat) (commit : Commit) : Prop :=
  ∀ node cell, node.script.length + node.load < bound → Terminates 0 node (commit node cell)

variable {node : Node}

/-- A message is sent in one step. -/
theorem paxosSend_terminates (acc : Acceptor) (msg : Msg) :
    Terminates 0 node (paxosSend node acc msg) := by
  unfold paxosSend
  split
  · exact .ok (.beside rfl rfl)
  · exact .stop (by simp)

/-- So is one to the proposer. -/
theorem paxosSendToProposer_terminates (msg : Msg) :
    Terminates 0 node (paxosSendToProposer node msg) := by
  unfold paxosSendToProposer
  -- Without a proposer nothing is sent.
  split
  · exact .ok (.refl 0 node)
  · split
    · exact paxosSend_terminates _ _
    · exact .stop (by simp)

/-- A retrieve is one message. -/
theorem paxosRetrieve_terminates (inst : Instance) :
    Terminates 0 node (paxosRetrieve node inst) := by
  unfold paxosRetrieve
  dsimp only
  -- The retrieve goes to the proposer's channel, or to everybody.
  split
  · exact .ok (.beside rfl rfl)
  · split
    · exact .ok (.beside rfl rfl)
    · exact paxosSend_terminates _ _

/-- The end of a session is one. -/
theorem paxosEnd_terminates (extra : Nat) : Terminates extra node (paxosEnd node) := .stop (by simp)

/-- The announcement of a decree adds one instance to the log. -/
theorem announceDecree_frugal (node : Node) (inst : Instance) :
    Frugal 1 node (announceDecree node inst) := by
  -- One allocation is inserted, and only the cursor changes besides.
  obtain ⟨_, _, same⟩ := instanceInsertAndUpstart_eq node (decreeOf node.pax inst)
  apply Frugal.frame (announceDecree_script node inst)
  · show (instanceInsertAndUpstart node (decreeOf node.pax inst)).pax.ilist.unlearned ≤ _
    rw [instanceInsertAndUpstart_ilist]
    exact node.pax.ilist.unlearned_insert _
  · show isProposer (instanceInsertAndUpstart node (decreeOf node.pax inst)).pax = _
    rw [same]
    rfl
  · show (instanceInsertAndUpstart node (decreeOf node.pax inst)).pax.prep = _
    rw [same]
  · show (instanceInsertAndUpstart node (decreeOf node.pax inst)).pax.idefer = _
    rw [same]

/-- A rewrite of an instance that unlearns nothing adds nothing. -/
theorem modify_frugal (node : Node) (addr : Addr) {f : Instance → Instance}
    (keeps : ∀ inst, inst.learned = true → (f inst).learned = true) :
    Frugal 0 node (node.modify addr f) :=
  .frame rfl (node.pax.ilist.unlearned_modify addr keeps) rfl rfl rfl

/-- The announcement of a commit adds nothing. -/
theorem announceCommit_frugal (node : Node) (cell : Cell) :
    Frugal 0 node (announceCommit node cell) :=
  .frame rfl (node.pax.ilist.unlearned_modify cell.addr fun _ => id) rfl rfl rfl

section Commit

variable {commit : Commit} {bound : Nat} (serves : Serves bound commit)

include serves

/-- A commit by the proposer adds nothing to the commit itself. -/
theorem proposerCommit_terminates (cell : Cell) (enough : node.script.length + node.load < bound) :
    Terminates 0 node (proposerCommit commit node cell) := by
  have announced := announceCommit_frugal node cell
  have visits := announced.visits
  have load := announced.load
  exact .behind announced (serves _ _ (by omega)) (Nat.le_refl 0)

/-- A decree adds one instance to the log, which may be committed on the spot. -/
theorem proposerDecree_terminates (inst : Instance)
    (enough : node.script.length + node.load + 1 < bound) :
    Terminates 1 node (proposerDecree commit node inst) := by
  -- What the decree announces is one instance more to learn.
  have announced := announceDecree_frugal node inst
  have visits := announced.visits
  have load := announced.load
  unfold proposerDecree
  dsimp only
  split
  · exact .behind announced (proposerCommit_terminates serves _ (by omega)) (Nat.le_refl 1)
  · exact .ok announced

/-- Nothing is deferred by whoever is prepared. -/
theorem decreeOrDefer_terminates (inst : Instance)
    (enough : node.script.length + node.load + 1 < bound) :
    Terminates 1 node (decreeOrDefer commit node inst) := by
  unfold decreeOrDefer
  split
  · -- Whoever defers is preparing.
    rename_i preparing
    refine .ok ⟨Nat.le_refl _, Nat.le_succ _, fun prepared => ?_⟩
    rw [prepared.2] at preparing
    contradiction
  · exact proposerDecree_terminates serves inst enough

/-- A part adds no more than any other decree. -/
theorem proposerDecreePart_terminates (acc : Acceptor) (force : Bool)
    (enough : node.script.length + node.load + 1 < bound) :
    Terminates 1 node (proposerDecreePart commit node acc force) :=
  .behind (.beside rfl rfl : Frugal 0 node node.bumpReqId)
    (decreeOrDefer_terminates serves _ enough) (Nat.le_refl 1)

/-- A request of our own adds no more than its decree. -/
theorem paxosRequest_terminates (call : ClientCall)
    (enough : node.script.length + node.load + 1 < bound) :
    Terminates 1 node (paxosRequest commit node call) := by
  -- The request is cached and sent for free, and a proposer decrees it.
  unfold paxosRequest
  split
  · exact .stop (by simp)
  · dsimp only
    generalize kept : (if requestNeedsCached call.dkind then _ else node.bumpReqId) = cached
    have beside : Frugal 0 node cached := by
      rw [← kept]
      split
      · exact .beside rfl rfl
      · exact .beside rfl rfl
    refine .behind beside (?_ : Terminates 1 cached _) (Nat.le_refl 1)
    refine .andThen (?_ : Terminates 0 cached _) (fun sent frugal => (?_ : Terminates 1 sent _))
      (Nat.le_refl 1)
    · split
      · exact .ok (.beside rfl rfl)
      · split
        · exact .ok (.refl 0 cached)
        · exact paxosSendToProposer_terminates _
    · have visits := frugal.visits
      have load := frugal.load
      have before := beside.visits
      have less := beside.load
      split
      · exact decreeOrDefer_terminates serves _ (by omega)
      · exact .ok (.refl 1 sent)

/-- The calls of a visit each add one round at most. -/
theorem clientCalls_terminates (calls : List ClientCall)
    (enough : node.script.length + node.load + calls.length < bound) :
    Terminates calls.length node (clientCalls commit node calls) := by
  -- By induction on the calls, of which each is a round.
  induction calls generalizing node with
  | nil => exact .ok (.refl 0 node)
  | cons call rest ih =>
    rw [List.length_cons] at enough ⊢
    refine .andThen (paxosRequest_terminates serves call (by omega)) (fun mid frugal => ?_)
      (Nat.le_of_eq (Nat.add_comm 1 rest.length))
    have visits := frugal.visits
    have load := frugal.load
    exact ih (by omega)

/-- A callback takes one visit off the script, and with it the calls that the visit makes. -/
theorem invoke_terminates (enough : node.script.length + node.load ≤ bound) :
    Terminates 0 node (invoke commit node) := by
  -- The visit is taken off the script before its calls are made.
  unfold invoke
  split
  · exact .ok (.refl 0 node)
  · rename_i visit rest script
    have calls : node.calls = visit.calls.length + ({ node with script := rest } : Node).calls := by
      simp [Node.calls, script]
    have visits : node.script.length = rest.length + 1 := by rw [script, List.length_cons]
    have load : node.load = visit.calls.length + ({ node with script := rest } : Node).load := by
      simp only [Node.load, calls]
      omega
    have made : Terminates visit.calls.length { node with script := rest }
        (clientCalls commit { node with script := rest } visit.calls) := by
      apply clientCalls_terminates serves
      show rest.length + _ + _ < bound
      omega
    have popped : Terminates 0 node
        (clientCalls commit { node with script := rest } visit.calls) := by
      -- What the calls add is what the visit took off.
      refine ⟨made.settles, fun next returned => ?_⟩
      obtain ⟨less, within, leads⟩ := made.frugal next returned
      have less : next.script.length ≤ rest.length := less
      exact ⟨by omega, by omega, leads⟩
    refine popped.andThen (fun mid _ => (?_ : Terminates 0 mid _)) (Nat.le_refl 0)
    split
    · exact .ok (.refl 0 mid)
    · exact .stop (by simp)

/-- What a callback is about makes no difference to it. -/
theorem callback_terminates (effect : Effect)
    (enough : node.script.length + node.load ≤ bound) :
    Terminates 0 node (callback commit node effect) :=
  .behind (.beside rfl rfl : Frugal 0 node (node.emit effect)) (invoke_terminates serves enough)
    (Nat.le_refl 0)

omit serves in
/-- Parts of dropped acceptors are only deferred while a prepare runs. -/
theorem decreeDropped_defers (accs : List Acceptor) (preparing : node.pax.prep.isSome = true) :
    ∃ next, decreeDropped commit node accs = .ok next ∧ next.script = node.script ∧
      next.pax.ilist = node.pax.ilist := by
  -- Each part is put off, which leaves the script and the log alone.
  induction accs generalizing node with
  | nil => exact ⟨node, rfl, rfl, rfl⟩
  | cons acc rest ih =>
    unfold decreeDropped
    split
    · exact ih preparing
    · have defers : proposerDecreePart commit node acc (acc.paxid < node.pax.selfId) =
          .ok (node.bumpReqId.setIdefer (node.bumpReqId.pax.idefer ++
            [partInstance node.bumpReqId.pax acc.paxid (acc.paxid < node.pax.selfId)])) := by
        unfold proposerDecreePart decreeOrDefer
        exact if_pos preparing
      rw [defers]
      exact @ih (node.bumpReqId.setIdefer _) preparing

omit serves in
/-- A prepare adds no rounds, for whoever was not prepared. -/
theorem proposerPrepare_terminates {start : Node} (oldProposer : Bool)
    (script : node.script = start.script) (ilist : node.pax.ilist = start.pax.ilist)
    (unprepared : ¬ Prepared start.pax) :
    Terminates 0 start (proposerPrepare commit node oldProposer) := by
  -- Whatever it defers, a prepare leaves the script and the log as they were.
  have keeps : ∀ next : Node, next.script = start.script → next.pax.ilist = start.pax.ilist →
      Frugal 0 start next := by
    intro next script ilist
    refine ⟨Nat.le_of_eq (congrArg List.length script), ?_, fun prepared =>
      absurd prepared unprepared⟩
    simp only [Node.load, Node.calls, script, ilist]
    omega
  unfold proposerPrepare
  split
  · exact .stop (by simp)
  · split
    · exact .stop (by simp)
    · dsimp only
      split
      · obtain ⟨next, dropped, visits, log⟩ := @decreeDropped_defers (beginPrepare node) commit
          (beginPrepare node).pax.alist rfl
        rw [dropped]
        exact .ok (keeps _ (visits.trans script) (log.trans ilist))
      · exact .ok (keeps _ script ilist)

/-- What is learned of a part adds nothing, whoever leaves. -/
theorem learnPart_terminates (paxid : Nat) (enough : node.script.length + node.load ≤ bound) :
    Terminates 0 node (learnPart commit node paxid) := by
  -- The callback is paid for by the script, and the prepare of a new proposer is free.
  unfold learnPart
  split
  · exact .ok (.refl 0 node)
  · refine (callback_terminates serves _ enough).andThen (fun mid _ => (?_ : Terminates 0 mid _))
      (Nat.le_refl 0)
    dsimp only
    split
    · exact .stop (by simp)
    · rename_i other
      have delisted : Frugal 0 mid (delist mid paxid) :=
        .beside (delist_script mid paxid) (delist_core mid paxid)
      split
      · exact .stop (by simp)
      · rename_i proposer leads
        have leads : mid.pax.proposer = some proposer :=
          (congrArg Core.proposer (delist_core mid paxid)).symm.trans leads
        have destroys : ∀ (next : Node) (peer : Option PeerId),
            Frugal 0 next (peerDestroy next peer) := by
          intro next peer
          apply Frugal.beside ?_ (peerDestroy_core next peer)
          cases peer <;> rfl
        by_cases led : paxid = proposer
        · -- Whoever learns the part of the proposer is not the proposer.
          have unprepared : ¬ Prepared mid.pax := by
            rintro ⟨own, -⟩
            rw [isProposer, leads] at own
            apply other
            have own : proposer = mid.pax.selfId := by simpa using own
            exact led.trans own
          obtain ⟨chosen, reset⟩ := resetProposer_eq (delist mid paxid)
          have script : (resetProposer (delist mid paxid)).script = mid.script := by
            rw [reset]
            exact delist_script mid paxid
          have ilist : (resetProposer (delist mid paxid)).pax.ilist = mid.pax.ilist := by
            rw [reset]
            exact congrArg Core.ilist (delist_core mid paxid)
          simp only [led, if_true, decide_true, Bool.true_and]
          rw [led] at script ilist
          refine .andThen (?_ : Terminates 0 mid _) (fun next _ => .ok (destroys next _))
            (Nat.le_refl 0)
          split
          · exact proposerPrepare_terminates true script ilist unprepared
          · refine .ok ⟨Nat.le_of_eq (congrArg List.length script), ?_, fun prepared =>
              absurd prepared unprepared⟩
            simp only [Node.load, Node.calls, script, ilist]
            omega
        · simp only [led, if_false, decide_false, Bool.false_and, Bool.false_eq_true,
            Outcome.andThen_ok]
          exact .ok (delisted.trans (destroys _ _) (Nat.le_refl 0))

/-- What is learned of an instance adds nothing to what its mark has left. -/
theorem paxosLearn_terminates (addr : Addr) (inst : Instance) (req : Option Request)
    (enough : (noteLearn node addr inst).script.length + (noteLearn node addr inst).load ≤
      bound) :
    Terminates 0 (noteLearn node addr inst) (paxosLearn commit node addr inst req) := by
  -- The mark of the learn is paid for, and the rest is callbacks.
  unfold paxosLearn
  dsimp only
  generalize noteLearn node addr inst = marked at enough ⊢
  split
  · exact .ok (.refl 0 marked)
  · unfold learnChat
    split
    · exact .stop (by simp)
    · exact callback_terminates serves _ enough
  · rename_i req _
    have joined : Frugal 0 marked (enlist marked inst.hdr.inum req) := by
      apply Frugal.beside ?_ (enlist_core marked inst.hdr.inum req)
      unfold enlist
      cases acceptorFind marked.pax.adefer inst.hdr.inum <;> rfl
    have visits := joined.visits
    have load := joined.load
    unfold learnJoin
    refine .behind joined (?_ : Terminates 0 _ _) (Nat.le_refl 0)
    refine .andThen (?_ : Terminates 0 _ _) (fun mid frugal => (?_ : Terminates 0 mid _))
      (Nat.le_refl 0)
    · split
      · have connected : Frugal 0 (enlist marked inst.hdr.inum req)
            ((enlist marked inst.hdr.inum req).connect .welcome
              (joinedAcceptor marked.pax inst.hdr.inum req)) := .beside rfl rfl
        have welcomed := connected.visits
        have added := connected.load
        exact .behind connected (invoke_terminates serves (by omega)) (Nat.le_refl 0)
      · exact .ok (.refl 0 _)
    · have visits := frugal.visits
      have load := frugal.load
      exact callback_terminates serves _ (by omega)
  · exact learnPart_terminates serves _ enough
  · exact learnPart_terminates serves _ enough
  · exact .stop (by simp)
  · exact .stop (by simp)

/-- The learning loop takes no more rounds than there are instances to learn. -/
theorem learnLoop_terminates {fuel : Nat} (it : Option Addr) (rounds : node.load < fuel)
    (enough : node.script.length + node.load ≤ bound) :
    Terminates 0 node (learnLoop commit fuel node it) := by
  -- The fuel exceeds what is left to learn, and every round learns one instance.
  induction fuel generalizing node it with
  | zero => exact absurd rounds (Nat.not_lt_zero _)
  | succ fuel ih =>
    cases it with
    | none => exact .ok (.frame rfl (Nat.le_refl _) rfl rfl rfl)
    | some addr =>
      unfold learnLoop
      split
      · exact .stop (by simp)
      · rename_i inst held
        split
        · exact .ok (.frame rfl (Nat.le_refl _) rfl rfl rfl)
        · split
          · exact .ok (.frame rfl (Nat.le_refl _) rfl rfl rfl)
          · split
            · exact .stop (by simp)
            · rename_i unlearned
              dsimp only
              split
              · exact .stop (by simp)
              · -- The instance is marked, so there is one less to learn from here on.
                have less : (noteLearn node addr inst).load < node.load := by
                  have marked := Ilist.unlearned_learn held (by simpa using unlearned)
                  exact Nat.add_lt_add_right marked _
                have noted : Frugal 0 node (noteLearn node addr inst) :=
                  .frame rfl (node.pax.ilist.unlearned_modify addr fun _ _ => rfl) rfl rfl rfl
                have same : (noteLearn node addr inst).script = node.script := rfl
                refine .behind noted (?_ : Terminates 0 _ _) (Nat.le_refl 0)
                have learns := @paxosLearn_terminates node commit bound serves addr inst
                  (learnRequest node.pax inst.val) (by rw [same]; omega)
                refine learns.andThen (fun mid frugal => (?_ : Terminates 0 mid _)) (Nat.le_refl 0)
                split
                · exact .stop (by simp)
                · rename_i follow _
                  have visits := frugal.visits
                  have load := frugal.load
                  rw [same] at visits
                  have bumped : Frugal 0 mid mid.bumpIhole :=
                    .frame rfl (Nat.le_refl _) rfl rfl rfl
                  have rest : Terminates 0 mid.bumpIhole
                      (learnLoop commit fuel mid.bumpIhole follow) := by
                    apply ih
                    · show mid.load < fuel
                      omega
                    · show mid.script.length + mid.load ≤ bound
                      omega
                  exact .behind bumped rest (Nat.le_refl 0)

/-- The commit of the hole takes as many rounds as its loop. -/
theorem commitHole_terminates {fuel : Nat} (rounds : node.load < fuel)
    (enough : node.script.length + node.load ≤ bound) :
    Terminates 0 node (commitHole commit fuel node) := by
  -- The cursor is set for free, and then the loop runs.
  unfold commitHole
  split
  · exact .stop (by simp)
  · split
    · exact .stop (by simp)
    · dsimp only
      split
      · rename_i start _
        split
        · exact .stop (by simp)
        · split
          · exact .stop (by simp)
          · have moved : Frugal 0 node (node.setIstart (some start)) :=
              .frame rfl (Nat.le_refl _) rfl rfl rfl
            exact .behind moved (learnLoop_terminates serves _ rounds enough) (Nat.le_refl 0)
      · exact .stop (by simp)

/-- A commit that comes before its value, or ahead of the hole, takes no rounds. -/
theorem commitWith_terminates {fuel : Nat} (cell : Cell) (rounds : node.load < fuel)
    (enough : node.script.length + node.load ≤ bound) :
    Terminates 0 node (commitWith commit fuel node cell) := by
  -- The marks unlearn nothing, so what comes behind them is within the bound.
  have committed : Frugal 0 node (node.modify cell.addr markCommitted) :=
    modify_frugal node cell.addr fun _ => id
  unfold commitWith
  dsimp only
  split
  · exact .behind committed (paxosRetrieve_terminates _) (Nat.le_refl 0)
  · have cached : Frugal 0 node
        ((node.modify cell.addr markCommitted).modify cell.addr markCached) :=
      committed.trans (modify_frugal _ cell.addr fun _ => id) (Nat.le_refl 0)
    have visits := cached.visits
    have load := cached.load
    refine .behind cached (?_ : Terminates 0 _ _) (Nat.le_refl 0)
    split
    · exact .stop (by simp)
    · split
      · unfold commitAhead
        split
        · exact .ok (.refl 0 _)
        · split
          · exact .stop (by simp)
          · split
            · split
              · exact .stop (by simp)
              · exact .ok (.refl 0 _)
            · exact paxosSendToProposer_terminates _
      · exact commitHole_terminates serves (by omega) (by omega)

/-- The deferred instances are decreed one after the other, and no more come in between. -/
theorem decreeDeferred_settles {fuel : Nat} (prepared : Prepared node.pax)
    (rounds : node.pax.idefer.length < fuel)
    (enough : node.script.length + node.load + node.pax.idefer.length < bound) :
    Outcome.Settles .diverged (decreeDeferred commit fuel node) := by
  -- Each round takes one request off the list and pays for its decree.
  induction fuel generalizing node with
  | zero => exact absurd rounds (Nat.not_lt_zero _)
  | succ fuel ih =>
    unfold decreeDeferred
    split
    · simp
    · rename_i inst rest deferred
      rw [deferred, List.length_cons] at rounds enough
      have decreed : Terminates 1 (node.setIdefer rest)
          (proposerDecree commit (node.setIdefer rest) inst) := by
        apply proposerDecree_terminates serves
        show node.script.length + node.load + 1 < bound
        omega
      cases decree : proposerDecree commit (node.setIdefer rest) inst with
      | ok mid =>
        obtain ⟨visits, load, leads⟩ := decreed.frugal mid decree
        have prepared : Prepared (node.setIdefer rest).pax := prepared
        obtain ⟨still, left⟩ := leads prepared
        have visits : mid.script.length ≤ node.script.length := visits
        have load : mid.load ≤ node.load + 1 := load
        have left : mid.pax.idefer = rest := left
        apply ih still
        · rw [left]
          omega
        · rw [left]
          omega
      | stop reason halted =>
        rw [decree] at decreed
        exact decreed.settles

end Commit

/-- A commit comes to its end with a bound past its script and load. -/
theorem paxosCommit_serves (fuel : Nat) : Serves fuel (paxosCommit (fuel + 1)) := by
  induction fuel with
  | zero => exact fun _ _ below => absurd below (Nat.not_lt_zero _)
  | succ fuel ih =>
    -- The nested commits have one visit less of the script.
    intro node cell below
    exact commitWith_terminates ih cell (by omega) (by omega)

end Motmot
