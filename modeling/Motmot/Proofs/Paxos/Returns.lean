import Motmot.Proofs.Paxos.Redecree
import Motmot.Proofs.Paxos.Rounds
import Motmot.Proofs.Paxos.Stock

/-!
Every handler of a session comes to its end.

What a handler needs at most depends on the log and on the calls that the client makes meanwhile,
and any larger bound gives the same.
-/

namespace Motmot

/-- A failed assertion is an end. -/
@[simp] theorem Node.fail_settles (node : Node) (which : Assertion) :
    Outcome.Settles .diverged (node.fail which) := fun _ => by simp

/-- So is a step without a meaning. -/
@[simp] theorem Node.undefined_settles (node : Node) :
    Outcome.Settles .diverged node.undefined := fun _ => by simp

@[simp] theorem Node.unlinked_settles (node : Node) :
    Outcome.Settles .diverged node.unlinked := fun _ => by simp

namespace Ilist

/-- No instance has a number above that of the top. -/
def Tops (list : Ilist) (top : Nat) : Prop := ∀ inst, list.Allots inst → inst.hdr.inum ≤ top

/-- Every log has a top. -/
theorem exists_tops (list : Ilist) : ∃ top, list.Tops top := by
  let numbers := list.cells.map Cell.inum ++ list.limbo.map fun gone => gone.cell.inum
  refine ⟨numbers.max?.getD 0, ?_⟩
  rintro inst (⟨cell, mem, rfl⟩ | ⟨gone, mem, rfl⟩)
  · exact List.le_max?_getD_of_mem (List.mem_append_left _ (List.mem_map_of_mem mem))
  · exact List.le_max?_getD_of_mem (List.mem_append_right _ (List.mem_map.mpr ⟨gone, mem, rfl⟩))

namespace Tops

variable {list : Ilist} {top : Nat}

/-- Rewrites that keep the numbers of instances keep the top. -/
theorem modify (tops : list.Tops top) (addr : Addr) {f : Instance → Instance}
    (keeps : ∀ inst, (f inst).hdr.inum = inst.hdr.inum) : (list.modify addr f).Tops top := by
  intro inst held
  obtain ⟨old, was, rfl | rfl⟩ := allots_modify held
  · exact tops _ was
  · rw [keeps]
    exact tops _ was

/-- A link of an instance that is not above the top keeps the top. -/
theorem link (tops : list.Tops top) (place : Addr) {cell : Cell} (le : cell.inum ≤ top) :
    ((list.alloc cell.inst).insertAfter place cell).Tops top := by
  intro inst held
  -- The new instance, the scratch, or one that was there.
  rcases allots_insertAfter held with rfl | held
  · exact le
  · rcases allots_alloc held with rfl | held
    · exact le
    · exact tops inst held

end Tops

end Ilist

/-- A gap that is filled below the top leaves the top. -/
theorem fillNull_tops {node : Node} {top inum : Nat} (place : Addr)
    (tops : node.pax.ilist.Tops top) (le : inum ≤ top) :
    (fillNull node place inum).pax.ilist.Tops top := by
  unfold fillNull
  rw [linkScratch_ilist]
  exact tops.link place le

/-- An instance that is decreed again keeps its number, and so the top. -/
theorem redecreeInstance_tops {node : Node} {top : Nat} (addr : Addr) (inst : Instance)
    (tops : node.pax.ilist.Tops top) :
    (redecreeInstance node addr inst).pax.ilist.Tops top :=
  tops.modify addr fun _ => rfl

/-- The loop that ends a prepare stops behind the top of the log. -/
theorem redecree_settles {fuel top : Nat} {node : Node} (it : Addr) {inum : Nat}
    (wf : node.pax.ilist.WellFormed) (tops : node.pax.ilist.Tops top)
    (enough : top + 1 - inum < fuel) :
    Outcome.Settles .diverged (redecree fuel node it inum) := by
  -- The distance to the top is what is left of the fuel.
  induction fuel generalizing node it inum with
  | zero => exact absurd enough (Nat.not_lt_zero _)
  | succ fuel ih =>
    unfold redecree
    split
    · simp
    · simp
    · rename_i it walked
      split
      · simp
      · rename_i inst held
        have below : inst.hdr.inum ≤ top := tops inst (Ilist.allots_of_inst? held)
        split
        · split
          · -- Behind the last number the loop is at its end.
            simp
          · rename_i lower notLast
            split
            · simp
            · -- A gap lies below the last number, so it lies below the top.
              rename_i on
              have on : node.pax.ilist.onList it = true := by simpa using on
              obtain ⟨front, place, upper, whole, rfl, -, past⟩ := wf.getInstanceGlb_spec walked on
              have mem : place ∈ node.pax.ilist.cells := by simp [whole]
              obtain rfl : place.inst = inst := by
                simpa [Node.inst?, wf.inst?_of_mem mem] using held
              have inside : upper ≠ [] := by
                rintro rfl
                simp [Ilist.last, whole] at notLast
              obtain ⟨next, memNext⟩ := List.exists_mem_of_ne_nil upper inside
              have above : inum < next.inum := past next memNext
              have under : next.inum ≤ top :=
                tops next.inst (Ilist.allots_of_mem (by simp [whole, memNext]))
              have wfFilled := fillNull_wellFormed wf whole lower past
              have filled := wfFilled.inst?_of_mem (mem_fillNull wf inum whole)
              dsimp only
              rw [nullInstance_fillNull]
              apply ih
              · exact redecreeInstance_wellFormed wfFilled filled
              · exact redecreeInstance_tops _ _ (fillNull_tops _ tops (by omega))
              · omega
        · rename_i notLower
          split
          · -- The instance is decreed again under its number.
            apply ih
            · exact redecreeInstance_wellFormed wf held
            · exact redecreeInstance_tops _ _ tops
            · omega
          · -- There is a commit for the number.
            exact ih _ wf tops (by omega)

/-- The loop that ends a prepare leaves the proposer in office. -/
theorem redecree_proposer {fuel : Nat} {node next : Node} {it : Addr} {inum : Nat}
    (returned : redecree fuel node it inum = .ok next) :
    isProposer next.pax = isProposer node.pax := by
  -- The rounds write to the log, to the cursor and to the count, and to nothing else.
  induction fuel generalizing node it inum with
  | zero => simp [redecree] at returned
  | succ fuel ih =>
    unfold redecree at returned
    split at returned
    · simp at returned
    · simp at returned
    · split at returned
      · simp at returned
      · split at returned
        · split at returned
          · obtain rfl := Outcome.ok.inj returned
            rfl
          · split at returned
            · simp at returned
            · -- A null changes the log, the cursor and the count of requests.
              rename_i it _ _ _ _ _ _ _
              obtain ⟨ilist, istart, same⟩ := fillNull_eq node it inum
              refine (ih returned).trans ?_
              exact congrArg (fun filled => isProposer filled.pax) same
        · split at returned
          · exact (ih returned).trans rfl
          · exact ih returned

/-- A merge of votes takes one step for each vote. -/
theorem mergeVotes_settles (votes : List PackedInstance) (node : Node) (it : Addr)
    (scratch : Option Addr) : Outcome.Settles .diverged (mergeVotes node it scratch votes) := by
  -- The induction is on the votes, and every round uses one of them up.
  induction votes generalizing node it scratch with
  | nil => exact .ok _
  | cons vote votes ih =>
    unfold mergeVotes
    dsimp only
    split
    · simp
    · simp
    · split
      · simp
      · split
        · -- The vote is linked.
          split
          · simp
          · exact ih _ _ _
        · split
          · -- The vote takes the place of a lower one.
            split
            · simp
            · exact ih _ _ _
          · -- The vote is passed over.
            exact ih _ _ _

/-- So does the merge of a promise. -/
theorem mergePromise_settles (node : Node) (cursor : Option Addr) (votes : List PackedInstance) :
    Outcome.Settles .diverged (mergePromise node cursor votes) := by
  unfold mergePromise
  split
  · simp
  · simp
  · exact mergeVotes_settles _ _ _ _

/-- A prepare takes one step for each acceptor. -/
theorem proposerPrepare_settles (commit : Commit) (node : Node) (oldProposer : Bool) :
    Outcome.Settles .diverged (proposerPrepare commit node oldProposer) := by
  -- Whoever has begun a prepare defers the parts, so no commit is called.
  have unprepared : ¬ Prepared (beginPrepare node).pax := by
    rintro ⟨-, idle⟩
    exact Option.some_ne_none _ idle
  exact (@proposerPrepare_terminates node commit (beginPrepare node) oldProposer rfl rfl
    unprepared).settles

/-- The end of a prepare takes the rounds of its two loops. -/
theorem finishPrepare_settles {node : Node} {prep : Prep} (wf : node.pax.ilist.WellFormed)
    (leads : isProposer node.pax = true) :
    ∃ enough, Outcome.Settles .diverged (finishPrepare enough node prep) := by
  -- One bound is found for the first loop, and a larger one that serves the second as well.
  obtain ⟨top, tops⟩ := node.pax.ilist.exists_tops
  cases cursor : prep.istart with
  | none => exact ⟨0, by simp [finishPrepare, cursor]⟩
  | some start =>
    -- The first loop takes a round for each number up to the top, and one to see that it is done.
    have settles : Outcome.Settles .diverged
        (redecree (top + 2) (node.setBallot prep.ballot) start node.pax.ihole) :=
      redecree_settles start wf tops (by omega)
    cases again : redecree (top + 2) (node.setBallot prep.ballot) start node.pax.ihole with
    | ok mid =>
      have proposer : isProposer mid.pax = true := (redecree_proposer again).trans leads
      have prepared : Prepared (mid.setPrep none).pax := ⟨proposer, rfl⟩
      -- The deferred decrees may need a larger bound, which changes nothing of the first loop.
      let most := mid.script.length + mid.load + mid.pax.idefer.length + top + 2
      have same : redecree (most + 1) (node.setBallot prep.ballot) start node.pax.ihole =
          .ok mid := by
        rw [← again]
        exact redecree_further (by omega) _ _ _ settles
      have rest : Outcome.Settles .diverged
          (decreeDeferred (paxosCommit (most + 1)) (most + 1) (mid.setPrep none)) := by
        apply decreeDeferred_settles (paxosCommit_serves most) prepared
        · show mid.pax.idefer.length < most + 1
          omega
        · show mid.script.length + mid.load + mid.pax.idefer.length < most
          omega
      refine ⟨most + 1, ?_⟩
      have unfolds : finishPrepare (most + 1) node prep =
          (redecree (most + 1) (node.setBallot prep.ballot) start node.pax.ihole).andThen
            fun mid => decreeDeferred (paxosCommit (most + 1)) (most + 1) (mid.setPrep none) := by
        simp only [finishPrepare, cursor]
        rfl
      rw [unfolds, same]
      exact rest
    | stop reason halted =>
      -- The first loop stopped for a reason of its own.
      refine ⟨top + 2, ?_⟩
      have unfolds : finishPrepare (top + 2) node prep = .stop reason halted := by
        have again : redecree (top + 2) (node.setBallot prep.ballot) start
            (node.setBallot prep.ballot).pax.ihole = .stop reason halted := again
        simp only [finishPrepare, cursor, again]
        rfl
      rw [unfolds, ← again]
      exact settles

/-- A promise is merged, and the last one that it takes ends the prepare. -/
theorem proposerAckPromise_settles {node : Node} (msg : Msg) (wf : node.pax.ilist.WellFormed)
    (leads : isProposer node.pax = true) :
    ∃ enough, Outcome.Settles .diverged (proposerAckPromise enough node msg) := by
  -- What falls short of a majority ends here, and a majority ends the prepare.
  unfold proposerAckPromise
  split
  · exact ⟨0, by simp⟩
  · rename_i prep _
    split
    · exact ⟨0, by simp⟩
    · split
      · rename_i count votes _
        split
        · exact ⟨0, by simp⟩
        · have merges := mergePromise_merges prep.istart votes wf
          have settles := mergePromise_settles node prep.istart votes
          cases merge : mergePromise node prep.istart votes with
          | ok mid =>
            rw [merge] at merges
            have wfMid : mid.pax.ilist.WellFormed := merges.wellFormed wf
            have proposer : isProposer mid.pax = true := by
              obtain ⟨ilist, istart, same⟩ := merges.eq
              rw [same]
              exact leads
            dsimp only [Outcome.andThen]
            split
            · -- A majority is still to come.
              exact ⟨0, by simp⟩
            · exact finishPrepare_settles wfMid proposer
          | stop reason halted =>
            -- The merge stopped, for no want of steps.
            rw [merge] at settles
            exact ⟨0, settles⟩
      · exact ⟨0, by simp⟩

section Plain

variable {node : Node}

/-- What sends one message comes to its end. -/
@[simp] theorem paxosSend_settles (acc : Acceptor) (msg : Msg) :
    Outcome.Settles .diverged (paxosSend node acc msg) := (paxosSend_terminates acc msg).settles

/-- So does what sends one to the proposer. -/
@[simp] theorem paxosSendToProposer_settles (msg : Msg) :
    Outcome.Settles .diverged (paxosSendToProposer node msg) :=
  (paxosSendToProposer_terminates msg).settles

/-- A retrieve is answered, or ignored. -/
theorem paxosAckRetrieve_settles (hdr : Header) (paxid : Nat) (val : Value) :
    Outcome.Settles .diverged (paxosAckRetrieve node hdr paxid val) := by
  unfold paxosAckRetrieve
  repeat' split
  all_goals simp

/-- A hello is deferred, or attached. -/
theorem paxosAckHello_settles (source : PeerId) (hdr : Header) :
    Outcome.Settles .diverged (paxosAckHello node source hdr) := by
  -- Nothing in it loops.
  unfold paxosAckHello
  split
  · simp
  · split
    · simp
    · apply Outcome.Settles.andThen
      · unfold helloAttach
        dsimp only
        repeat' split
        all_goals simp
      · intro mid
        unfold helloBallot
        repeat' split
        all_goals simp

/-- A reject is counted, and may ask for a connection. -/
theorem proposerAckReject_settles (hdr : Header) :
    Outcome.Settles .diverged (proposerAckReject node hdr) := by
  unfold proposerAckReject
  dsimp only
  repeat' split
  all_goals simp

/-- A retry is answered. -/
theorem proposerAckRetry_settles (hdr : Header) :
    Outcome.Settles .diverged (proposerAckRetry node hdr) := by
  unfold proposerAckRetry
  repeat' split
  all_goals simp

/-- The last answer to a sync truncates the log. -/
theorem proposerAckLast_settles (hdr : Header) (last : Nat) :
    Outcome.Settles .diverged (proposerAckLast node hdr last) := by
  unfold proposerAckLast proposerTruncate
  dsimp only
  repeat' split
  all_goals simp

/-- A prepare is answered with a promise, or a redirect. -/
theorem acceptorAckPrepare_settles (source : PeerId) (hdr : Header) :
    Outcome.Settles .diverged (acceptorAckPrepare node source hdr) := by
  unfold acceptorAckPrepare acceptorRedirect acceptorPromise
  repeat' split
  all_goals simp

/-- A decree is answered with an accept, or a reject. -/
theorem acceptorAckDecree_settles (hdr : Header) (val : Value) :
    Outcome.Settles .diverged (acceptorAckDecree node hdr val) := by
  -- Whatever the session knows, the answer is one message at most.
  have accepts : Outcome.Settles .diverged (acceptDecree node hdr val) := by
    unfold acceptDecree acceptorAccept
    repeat' split
    all_goals simp
  unfold acceptorAckDecree acceptorReject
  repeat' split
  all_goals simp [accepts]

/-- A request is kept, and may be refused. -/
theorem acceptorAckRequest_settles (source : PeerId) (hdr : Header) (req : Request) :
    Outcome.Settles .diverged (acceptorAckRequest node source hdr req) := by
  unfold acceptorAckRequest acceptorRefuse
  dsimp only
  repeat' split
  all_goals simp

/-- A refuse may ask for a connection. -/
theorem acceptorAckRefuse_settles (msg : Msg) :
    Outcome.Settles .diverged (acceptorAckRefuse node msg) := by
  unfold acceptorAckRefuse
  repeat' split
  all_goals simp

/-- A sync is answered. -/
theorem acceptorAckSync_settles (hdr : Header) :
    Outcome.Settles .diverged (acceptorAckSync node hdr) := by
  unfold acceptorAckSync
  split
  · simp
  · simp

/-- Whoever is reached behind a welcome is sent a hello. -/
theorem continueAckWelcome_settles (chan : Option PeerId) (acc : Acceptor) :
    Outcome.Settles .diverged (continueAckWelcome node chan acc) := by
  unfold continueAckWelcome paxosHello
  dsimp only
  split
  · simp
  · simp

/-- Whoever is reached behind a refuse is sent what was refused. -/
theorem continueAckRefuse_settles (chan : Option PeerId) (acc : Acceptor) (val : Value) :
    Outcome.Settles .diverged (continueAckRefuse node chan acc val) := by
  unfold continueAckRefuse paxosHello resendRefused
  dsimp only
  -- A prepared proposer ignores the attempt, and without a channel it has failed.
  split
  · simp
  · split
    · simp
    · apply Outcome.Settles.andThen
      · simp
      · intro mid
        repeat' split
        all_goals simp

/-- Whether or not a rejected acceptor is reached, its part is decreed again. -/
theorem continueAckReject_settles (chan : Option PeerId) (acc : Acceptor) (inum : Nat) :
    Outcome.Settles .diverged (continueAckReject node chan acc inum) := by
  unfold continueAckReject paxosHello
  dsimp only
  -- With a channel a hello is sent, and in both cases the decree follows.
  split
  · simp
  · apply Outcome.Settles.andThen
    · split
      · simp
      · simp
    · simp

end Plain

section Bounded

variable {fuel : Nat} {node : Node}

/-- A commit comes to its end with a bound that is larger by one. -/
theorem serves_pred (some_ : 0 < fuel) : Serves (fuel - 1) (paxosCommit fuel) := by
  obtain ⟨less, rfl⟩ : ∃ less, fuel = less + 1 := ⟨fuel - 1, by omega⟩
  exact paxosCommit_serves less

/-- A commit settles with a bound past the rounds that its session may take. -/
theorem paxosCommit_settles (cell : Cell) (enough : node.script.length + node.load + 1 < fuel) :
    Outcome.Settles .diverged (paxosCommit fuel node cell) :=
  (serves_pred (by omega) node cell (by omega)).settles

variable (enough : node.script.length + node.load + 2 < fuel)

include enough

/-- A part takes one round more at most. -/
theorem proposerDecreePart_settles (acc : Acceptor) (force : Bool) :
    Outcome.Settles .diverged (proposerDecreePart (paxosCommit fuel) node acc force) :=
  (proposerDecreePart_terminates (serves_pred (by omega)) acc force (by omega)).settles

/-- So does a kill. -/
theorem proposerForceKill_settles (source : PeerId) :
    Outcome.Settles .diverged (proposerForceKill fuel node source) := by
  unfold proposerForceKill
  split
  · exact proposerDecreePart_settles enough _ _
  · simp

/-- So does a request. -/
theorem proposerAckRequest_settles (hdr : Header) (req : Request) :
    Outcome.Settles .diverged (proposerAckRequest fuel node hdr req) := by
  unfold proposerAckRequest
  split
  · split
    · -- A kill of the sender, or a decree after one request more was counted.
      simp
    · exact proposerDecreePart_settles enough _ _
  · dsimp only
    refine (decreeOrDefer_terminates (serves_pred (by omega)) _ ?_).settles
    split
    · show node.script.length + node.load + 1 < fuel - 1
      omega
    · omega

/-- A count of votes takes no rounds of its own. -/
theorem proposerAckAccept_settles (hdr : Header) :
    Outcome.Settles .diverged (proposerAckAccept fuel node hdr) := by
  -- Only the vote that makes a majority commits anything.
  unfold proposerAckAccept
  split
  · simp
  · split
    · simp
    · rename_i cell _
      dsimp only
      split
      · simp
      · split
        · -- The majority is reached, and the instance committed.
          have counted := modify_frugal node cell.addr (f := countVote) fun _ => id
          have load := counted.load
          refine (proposerCommit_terminates (serves_pred (by omega)) _ ?_).settles
          show node.script.length + _ < fuel - 1
          omega
        · simp

/-- Neither does a request that is kept. -/
theorem paxosAckResend_settles (hdr : Header) (req : Request) :
    Outcome.Settles .diverged (paxosAckResend fuel node hdr req) := by
  unfold paxosAckResend
  split
  · simp
  · split
    · -- Whether or not the request is put into the cache, the load is the same.
      simp
    · apply paxosCommit_settles
      split
      · omega
      · show node.script.length + node.load + 1 < fuel
        omega

/-- The commit of an instance that is inserted first has one instance more to learn. -/
theorem commitFresh_settles (inst : Instance) (cell : Cell) :
    Outcome.Settles .diverged (paxosCommit fuel (instanceInsertAndUpstart node inst) cell) := by
  -- The insertion adds one unlearned instance, which the bound has room for.
  obtain ⟨ilist, istart, same⟩ := instanceInsertAndUpstart_eq node inst
  have script : (instanceInsertAndUpstart node inst).script = node.script := by rw [same]
  have inserted := node.pax.ilist.unlearned_insert inst
  apply paxosCommit_settles
  simp only [Node.load, Node.calls, instanceInsertAndUpstart_ilist, script] at enough ⊢
  omega

/-- The commit of an instance that takes on another value has no more to learn. -/
theorem commitHeld_settles (addr : Addr) {f : Instance → Instance}
    (keeps : ∀ inst, inst.learned = true → (f inst).learned = true) (cell : Cell) :
    Outcome.Settles .diverged (paxosCommit fuel (node.modify addr f) cell) := by
  have modified := (modify_frugal node addr keeps).load
  apply paxosCommit_settles
  show node.script.length + _ + 1 < fuel
  omega

/-- An acceptor commits what it is told to. -/
theorem acceptorAckCommit_settles (hdr : Header) (val : Value) :
    Outcome.Settles .diverged (acceptorAckCommit fuel node hdr val) := by
  unfold acceptorAckCommit
  split
  · exact commitFresh_settles enough _ _
  · split
    · simp
    · exact @commitHeld_settles fuel node enough _ (overwrite val) (fun _ => id) _

/-- It does so when it has asked for the commit, too. -/
theorem acceptorAckRecommit_settles (hdr : Header) (val : Value) :
    Outcome.Settles .diverged (acceptorAckRecommit fuel node hdr val) := by
  unfold acceptorAckRecommit
  split
  · exact commitFresh_settles enough _ _
  · split
    · simp
    · exact @commitHeld_settles fuel node enough _ (adopt hdr val) (fun _ => id) _

/-- A newcomer is welcomed, or parted. -/
theorem continueWelcome_settles (chan : Option PeerId) (acc : Acceptor) :
    Outcome.Settles .diverged (continueWelcome fuel node chan acc) := by
  unfold continueWelcome
  -- Without a channel the newcomer is parted, and with one it is sent its welcome.
  cases chan with
  | none =>
    apply proposerDecreePart_settles
    show node.script.length + node.load + 2 < fuel
    exact enough
  | some peer => simp

end Bounded

section Dispatch

variable {fuel : Nat} {node : Node}

/-- A redirect begins a prepare again at most. -/
theorem proposerAckRedirect_settles (msg : Msg) :
    Outcome.Settles .diverged (proposerAckRedirect fuel node msg) := by
  unfold proposerAckRedirect
  dsimp only
  -- Every branch sends a message at most or begins a prepare.
  repeat' split
  all_goals first
    | exact proposerPrepare_settles _ _ _
    | simp

/-- So does a connection attempt to whom we were redirected to. -/
theorem continueAckRedirect_settles (chan : Option PeerId) (acc : Acceptor) :
    Outcome.Settles .diverged (continueAckRedirect fuel node chan acc) := by
  unfold continueAckRedirect paxosHello
  dsimp only
  -- Every branch sends a message at most or begins a prepare.
  repeat' split
  all_goals first
    | exact proposerPrepare_settles _ _ _
    | simp

/-- All messages to a proposer but promises come to their end with the same bound. -/
theorem proposerDispatch_settles (source : PeerId) {msg : Msg}
    (enough : node.script.length + node.load + 2 < fuel) (other : msg.hdr.opcode ≠ .promise) :
    Outcome.Settles .diverged (proposerDispatch fuel node source msg) := by
  have kills := proposerForceKill_settles enough source
  unfold proposerDispatch
  dsimp only
  -- One case for each opcode.
  split
  · exact kills
  · exact kills
  · exact kills
  · exact kills
  · rename_i opcode
    exact absurd opcode other
  · exact proposerAckAccept_settles enough _
  · exact proposerAckRequest_settles enough _ _
  · exact paxosAckRetrieve_settles _ _ _
  · exact paxosAckResend_settles enough _ _
  · exact paxosAckHello_settles _ _
  · exact proposerAckRedirect_settles _
  · exact kills.andThen fun _ => proposerAckReject_settles _
  · exact proposerAckReject_settles _
  · exact proposerAckRetry_settles _
  · exact kills
  · exact kills
  · exact kills
  · exact proposerAckLast_settles _ _
  all_goals simp

/-- All messages to an acceptor come to their end with the same bound. -/
theorem acceptorDispatch_settles (source : PeerId) (msg : Msg)
    (enough : node.script.length + node.load + 2 < fuel) :
    Outcome.Settles .diverged (acceptorDispatch fuel node source msg) := by
  -- One case per opcode, in the order of the source.
  unfold acceptorDispatch
  split
  · exact acceptorAckPrepare_settles _ _
  · exact acceptorAckDecree_settles _ _
  · exact acceptorAckCommit_settles enough _ _
  · exact acceptorAckRequest_settles _ _ _
  · exact paxosAckRetrieve_settles _ _ _
  · exact paxosAckResend_settles enough _ _
  · exact paxosAckHello_settles _ _
  · exact acceptorAckRefuse_settles _
  · exact acceptorAckRecommit_settles enough _ _
  · exact acceptorAckSync_settles _
  · exact .ok _
  all_goals simp

/-- A peer that is struck off and no longer counted as live adds nothing. -/
theorem strikePeer_frugal (node : Node) (source : PeerId) (paxid count : Nat) :
    Frugal 0 node (((node.emit (.close source)).setPeer paxid none).setLiveCount count) :=
  .beside rfl rfl

/-- So do drops. -/
theorem paxosDropConnection_settles (source : PeerId)
    (enough : node.script.length + node.load + 2 < fuel) :
    Outcome.Settles .diverged (paxosDropConnection fuel node source) := by
  -- Either a part is decreed or a prepare begins, and neither loops.
  unfold paxosDropConnection
  split
  · simp
  · rename_i acc _
    dsimp only
    have struck := strikePeer_frugal node source acc.paxid
      (unsignedPred ((node.emit (.close source)).setPeer acc.paxid none).pax.liveCount)
    generalize Node.setLiveCount _ _ = counted at struck ⊢
    split
    · -- A proposer decrees the part of whoever was dropped.
      have visits := struck.visits
      have load := struck.load
      exact proposerDecreePart_settles (by omega) _ _
    · split
      · simp
      · split
        · -- Whoever is next behind a proposer that was dropped prepares.
          split
          · exact proposerPrepare_settles _ _ _
          · simp
        · simp

/-- So do connection attempts. -/
theorem connectinuate_settles (handle : Nat) (chan : Option PeerId)
    (enough : node.script.length + node.load + 2 < fuel) :
    Outcome.Settles .diverged (connectinuate fuel node handle chan) := by
  -- Only the continuation of a welcome decrees anything.
  unfold connectinuate
  split
  · simp
  · rename_i k _
    apply Outcome.Settles.andThen
    · split
      · rename_i acc _
        cases k.purpose with
        | welcome => exact continueWelcome_settles enough _ _
        | ackWelcome => exact continueAckWelcome_settles _ _
        | ackRedirect => exact continueAckRedirect_settles _ _
        | ackRefuse val => exact continueAckRefuse_settles _ _ _
        | ackReject inum => exact continueAckReject_settles _ _ _
      · simp
    · simp

end Dispatch

/-- The handler of an event comes to its end with some bound. -/
theorem handle_settles {node : Node} (event : Event) (wf : node.pax.ilist.WellFormed) :
    ∃ enough, Outcome.Settles .diverged (handle enough node event) := by
  -- This is enough for everything but the promise that ends a prepare.
  have enough : node.script.length + node.load + 2 < node.script.length + node.load + 3 := by omega
  -- One case for each kind of event; only the promise at a proposer needs a larger bound.
  cases event with
  | message source msg =>
    by_cases leads : isProposer node.pax
    · by_cases promise : msg.hdr.opcode = .promise
      · obtain ⟨bound, settles⟩ := proposerAckPromise_settles msg wf leads
        refine ⟨bound, ?_⟩
        simpa [handle, paxosDispatch, leads, proposerDispatch, promise] using settles
      · have settles := proposerDispatch_settles source enough promise
        exact ⟨_, by simpa [handle, paxosDispatch, leads] using settles⟩
    · have settles := acceptorDispatch_settles source msg enough
      exact ⟨_, by simpa [handle, paxosDispatch, leads] using settles⟩
  | drop source => exact ⟨_, paxosDropConnection_settles source enough⟩
  | connected key chan => exact ⟨_, connectinuate_settles key chan enough⟩
  | client call =>
    exact ⟨_, (paxosRequest_terminates (serves_pred (Nat.zero_lt_of_lt enough)) call
      (by omega)).settles⟩
  | sync => exact ⟨0, .ok _⟩
  | disconnect => exact ⟨0, (paxosEnd_terminates 0).settles⟩

/-- The handler of an event returns, in a way that no bound that is large enough changes. -/
theorem handle_returns {node : Node} (event : Event) (wf : node.pax.ilist.WellFormed) :
    Outcome.Returns .diverged fun fuel => handle fuel node event := by
  obtain ⟨enough, settles⟩ := handle_settles event wf
  exact Outcome.returns_of_settles (fun _ _ le => handle_further le node event) settles

end Motmot
