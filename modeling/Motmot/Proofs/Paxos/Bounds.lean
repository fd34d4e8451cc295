import Motmot.Logic.Bounded
import Motmot.Paxos.Dispatch

/-!
A larger bound on its loops gets a handler further, and changes nothing else.

Every function is followed from the commit that it calls to the handler of an event.
-/

namespace Motmot

/-- A run that gets as far as another one, or as far as the bound of that one. -/
abbrev Further (first last : Result) : Prop := Outcome.Approximates Stop.diverged first last

section Commit

variable {commit more : Commit}
  (further : ∀ node cell, Further (commit node cell) (more node cell))

include further

/-- A decree gets as far as the commit that it may lead to. -/
theorem proposerDecree_further (node : Node) (inst : Instance) :
    Further (proposerDecree commit node inst) (proposerDecree more node inst) := by
  unfold proposerDecree
  dsimp only
  split
  · exact further _ _
  · exact .same _

/-- What defers a decree calls nothing. -/
theorem decreeOrDefer_further (node : Node) (inst : Instance) :
    Further (decreeOrDefer commit node inst) (decreeOrDefer more node inst) := by
  unfold decreeOrDefer
  split
  · exact .same _
  · exact proposerDecree_further further node inst

/-- A part is decreed or deferred as any other value. -/
theorem proposerDecreePart_further (node : Node) (acc : Acceptor) (force : Bool) :
    Further (proposerDecreePart commit node acc force)
      (proposerDecreePart more node acc force) :=
  decreeOrDefer_further further _ _

/-- The parts of dropped acceptors come one after the other. -/
theorem decreeDropped_further (node : Node) (accs : List Acceptor) :
    Further (decreeDropped commit node accs) (decreeDropped more node accs) := by
  -- By induction on the acceptors: each that is gone is parted, and the loop goes on from there.
  induction accs generalizing node with
  | nil => exact .same _
  | cons acc rest ih =>
    unfold decreeDropped
    split
    · exact ih node
    · exact .andThen (proposerDecreePart_further further _ _ _) ih

/-- A prepare gets as far as the parts that it begins with. -/
theorem proposerPrepare_further (node : Node) (oldProposer : Bool) :
    Further (proposerPrepare commit node oldProposer)
      (proposerPrepare more node oldProposer) := by
  -- Only the decree of the parts takes steps.
  unfold proposerPrepare
  split
  · exact .same _
  · split
    · exact .same _
    · apply Outcome.Approximates.andThen
      · split
        · exact decreeDropped_further further _ _
        · exact .same _
      · exact fun _ => .same _

/-- A request of our own may be decreed on the spot. -/
theorem paxosRequest_further (node : Node) (call : ClientCall) :
    Further (paxosRequest commit node call) (paxosRequest more node call) := by
  -- The broadcast does not depend on the bound, the decree behind it does.
  unfold paxosRequest
  split
  · exact .same _
  · apply Outcome.Approximates.andThen (.same _)
    intro sent
    split
    · exact decreeOrDefer_further further _ _
    · exact .same _

/-- The calls of the client come one after the other. -/
theorem clientCalls_further (node : Node) (calls : List ClientCall) :
    Further (clientCalls commit node calls) (clientCalls more node calls) := by
  induction calls generalizing node with
  | nil => exact .same _
  | cons call rest ih => exact .andThen (paxosRequest_further further node call) ih

/-- A callback gets as far as the calls of the client in it. -/
theorem invoke_further (node : Node) : Further (invoke commit node) (invoke more node) := by
  unfold invoke
  split
  · exact .same _
  · exact .andThen (clientCalls_further further _ _) fun _ => .same _

/-- What is learned of a part goes through a callback, and may begin a prepare. -/
theorem learnPart_further (node : Node) (paxid : Nat) :
    Further (learnPart commit node paxid) (learnPart more node paxid) := by
  -- The callback and the prepare of a new proposer take the steps.
  unfold learnPart
  split
  · exact .same _
  · apply Outcome.Approximates.andThen (invoke_further further _)
    intro mid
    dsimp only
    split
    · exact .same _
    · split
      · exact .same _
      · rename_i proposer _
        generalize (if paxid = proposer then resetProposer (delist mid paxid)
          else delist mid paxid) = elected
        apply Outcome.Approximates.andThen
        · split
          · exact proposerPrepare_further further _ _
          · exact .same _
        · exact fun _ => .same _

/-- What is learned goes through callbacks, whatever is learned. -/
theorem paxosLearn_further (node : Node) (addr : Addr) (inst : Instance) (req : Option Request) :
    Further (paxosLearn commit node addr inst req) (paxosLearn more node addr inst req) := by
  -- Only what reaches a client takes steps.
  unfold paxosLearn
  dsimp only
  split
  · exact .same _
  · -- A chat.
    unfold learnChat
    split
    · exact .same _
    · exact invoke_further further _
  · -- A join, which the proposer asks the client to connect for.
    unfold learnJoin
    apply Outcome.Approximates.andThen
    · split
      · exact invoke_further further _
      · exact .same _
    · exact fun _ => invoke_further further _
  · exact learnPart_further further _ _
  · exact learnPart_further further _ _
  · exact .same _
  · exact .same _

/-- The learning loop has a bound of its own, and the one of the commits within. -/
theorem learnLoop_further {fuel bound : Nat} (le : fuel ≤ bound) (node : Node)
    (it : Option Addr) :
    Further (learnLoop commit fuel node it) (learnLoop more bound node it) := by
  -- Either bound counts the rounds of the loop, and the larger one is not exhausted first.
  induction fuel generalizing bound node it with
  | zero => exact .bounded _ _ _
  | succ fuel ih =>
    obtain ⟨bound, rfl⟩ : ∃ less, bound = less + 1 := ⟨bound - 1, by omega⟩
    cases it with
    | none => exact .same _
    | some addr =>
      unfold learnLoop
      split
      · exact .same _
      · split
        · exact .same _
        · split
          · exact .same _
          · split
            · exact .same _
            · dsimp only
              split
              · exact .same _
              · -- The instance is learned, and the loop goes on with the next one.
                apply Outcome.Approximates.andThen (paxosLearn_further further _ _ _ _)
                intro mid
                split
                · exact .same _
                · exact ih (by omega) _ _

/-- Only the commit of the hole takes steps. -/
theorem commitWith_further {fuel bound : Nat} (le : fuel ≤ bound) (node : Node) (cell : Cell) :
    Further (commitWith commit fuel node cell) (commitWith more bound node cell) := by
  -- One bound is for the loop of the hole; the ways out before it take none.
  unfold commitWith
  dsimp only
  split
  · -- The value is retrieved.
    exact .same _
  · split
    · exact .same _
    · split
      · -- The hole is another one.
        exact .same _
      · unfold commitHole
        split
        · exact .same _
        · split
          · exact .same _
          · dsimp only
            split
            · split
              · exact .same _
              · split
                · exact .same _
                · exact learnLoop_further further le _ _
            · exact .same _

/-- The deferred decrees come one after the other. -/
theorem decreeDeferred_further {fuel bound : Nat} (le : fuel ≤ bound) (node : Node) :
    Further (decreeDeferred commit fuel node) (decreeDeferred more bound node) := by
  induction fuel generalizing bound node with
  | zero => exact .bounded _ _ _
  | succ fuel ih =>
    obtain ⟨bound, rfl⟩ : ∃ less, bound = less + 1 := ⟨bound - 1, by omega⟩
    unfold decreeDeferred
    split
    · exact .same _
    · -- One less is deferred, and one step less is left.
      exact .andThen (proposerDecree_further further _ _) fun mid => ih (by omega) mid

end Commit

variable {fuel bound : Nat}

/-- A commit gets further with a larger bound, by what its nested commits do. -/
theorem paxosCommit_further (le : fuel ≤ bound) (node : Node) (cell : Cell) :
    Further (paxosCommit fuel node cell) (paxosCommit bound node cell) := by
  induction fuel generalizing bound node cell with
  | zero => exact .bounded _ _ _
  | succ fuel ih =>
    obtain ⟨bound, rfl⟩ : ∃ less, bound = less + 1 := ⟨bound - 1, by omega⟩
    have le : fuel ≤ bound := by omega
    -- The commits within have a step less, and so has the loop.
    exact commitWith_further (ih le) le node cell

/-- The loop that ends a prepare gets further with a larger bound. -/
theorem redecree_further (le : fuel ≤ bound) (node : Node) (it : Addr) (inum : Nat) :
    Further (redecree fuel node it inum) (redecree bound node it inum) := by
  -- A larger bound takes the same rounds and may go on.
  induction fuel generalizing bound node it inum with
  | zero => exact .bounded _ _ _
  | succ fuel ih =>
    obtain ⟨bound, rfl⟩ : ∃ less, bound = less + 1 := ⟨bound - 1, by omega⟩
    have le : fuel ≤ bound := by omega
    unfold redecree
    split
    · exact .same _
    · exact .same _
    · split
      · exact .same _
      · split
        · split
          · exact .same _
          · split
            · exact .same _
            · exact ih le _ _ _
        · split
          · exact ih le _ _ _
          · exact ih le _ _ _

/-- So does the end of a prepare, through both of its loops. -/
theorem finishPrepare_further (le : fuel ≤ bound) (node : Node) (prep : Prep) :
    Further (finishPrepare fuel node prep) (finishPrepare bound node prep) := by
  -- The loop of the redecrees comes first, then that of the deferred requests.
  unfold finishPrepare
  dsimp only
  split
  · exact .same _
  · apply Outcome.Approximates.andThen (redecree_further le _ _ _)
    exact fun mid => decreeDeferred_further (paxosCommit_further le) le _

/-- The merge of a promise has no bound, unlike the end of the prepare behind it. -/
theorem proposerAckPromise_further (le : fuel ≤ bound) (node : Node) (msg : Msg) :
    Further (proposerAckPromise fuel node msg) (proposerAckPromise bound node msg) := by
  -- The votes are merged without a bound, and the last answer ends the prepare.
  unfold proposerAckPromise
  split
  · exact .same _
  · split
    · exact .same _
    · split
      · split
        · exact .same _
        · apply Outcome.Approximates.andThen (.same _)
          intro mid
          dsimp only
          split
          · exact .same _
          · exact finishPrepare_further le _ _
      · exact .same _

/-- An accept may lead to a commit. -/
theorem proposerAckAccept_further (le : fuel ≤ bound) (node : Node) (hdr : Header) :
    Further (proposerAckAccept fuel node hdr) (proposerAckAccept bound node hdr) := by
  -- Only the accept that makes a majority commits.
  unfold proposerAckAccept
  split
  · exact .same _
  · split
    · exact .same _
    · dsimp only
      split
      · exact .same _
      · split
        · exact paxosCommit_further le _ _
        · exact .same _

/-- A request is decreed, or gets its sender killed. -/
theorem proposerAckRequest_further (le : fuel ≤ bound) (node : Node) (hdr : Header)
    (req : Request) :
    Further (proposerAckRequest fuel node hdr req) (proposerAckRequest bound node hdr req) := by
  unfold proposerAckRequest
  split
  · split
    · exact .same _
    · exact proposerDecreePart_further (paxosCommit_further le) _ _ _
  · exact decreeOrDefer_further (paxosCommit_further le) _ _

/-- A request that was resent lets its commit go on. -/
theorem paxosAckResend_further (le : fuel ≤ bound) (node : Node) (hdr : Header)
    (req : Request) :
    Further (paxosAckResend fuel node hdr req) (paxosAckResend bound node hdr req) := by
  unfold paxosAckResend
  split
  · exact .same _
  · split
    · exact .same _
    · exact paxosCommit_further le _ _

/-- A commit is carried out by an acceptor. -/
theorem acceptorAckCommit_further (le : fuel ≤ bound) (node : Node) (hdr : Header)
    (val : Value) :
    Further (acceptorAckCommit fuel node hdr val) (acceptorAckCommit bound node hdr val) := by
  unfold acceptorAckCommit
  split
  · exact paxosCommit_further le _ _
  · split
    · exact .same _
    · exact paxosCommit_further le _ _

/-- So is one that was asked for again. -/
theorem acceptorAckRecommit_further (le : fuel ≤ bound) (node : Node) (hdr : Header)
    (val : Value) :
    Further (acceptorAckRecommit fuel node hdr val) (acceptorAckRecommit bound node hdr val) := by
  unfold acceptorAckRecommit
  split
  · exact paxosCommit_further le _ _
  · split
    · exact .same _
    · exact paxosCommit_further le _ _

/-- A redirect may lead to another prepare. -/
theorem proposerAckRedirect_further (le : fuel ≤ bound) (node : Node) (msg : Msg) :
    Further (proposerAckRedirect fuel node msg) (proposerAckRedirect bound node msg) := by
  -- Only the redirect that leaves us proposer begins another prepare.
  unfold proposerAckRedirect
  split
  · exact .same _
  · split
    · exact .same _
    · split
      · split
        · exact .same _
        · dsimp only
          split
          · exact .same _
          · split
            · exact proposerPrepare_further (paxosCommit_further le) _ _
            · exact .same _
      · exact .same _

/-- So may a connection attempt to whom we were redirected to. -/
theorem continueAckRedirect_further (le : fuel ≤ bound) (node : Node) (chan : Option PeerId)
    (acc : Acceptor) :
    Further (continueAckRedirect fuel node chan acc)
      (continueAckRedirect bound node chan acc) := by
  -- Only a failed attempt begins another prepare.
  unfold continueAckRedirect
  split
  · exact .same _
  · split
    · exact .same _
    · cases chan with
      | some peer => exact .same _
      | none => exact proposerPrepare_further (paxosCommit_further le) _ _

/-- A newcomer that cannot be reached is parted. -/
theorem continueWelcome_further (le : fuel ≤ bound) (node : Node) (chan : Option PeerId)
    (acc : Acceptor) :
    Further (continueWelcome fuel node chan acc) (continueWelcome bound node chan acc) := by
  cases chan with
  | some peer => exact .same _
  | none => exact proposerDecreePart_further (paxosCommit_further le) _ _ _

/-- A kill is a part that is forced. -/
theorem proposerForceKill_further (le : fuel ≤ bound) (node : Node) (source : PeerId) :
    Further (proposerForceKill fuel node source) (proposerForceKill bound node source) := by
  unfold proposerForceKill
  split
  · exact proposerDecreePart_further (paxosCommit_further le) _ _ _
  · exact .same _

/-- A drop leads to a part, or to a prepare by whoever is next. -/
theorem paxosDropConnection_further (le : fuel ≤ bound) (node : Node) (source : PeerId) :
    Further (paxosDropConnection fuel node source) (paxosDropConnection bound node source) := by
  -- The proposer decrees a part, and whoever comes next prepares.
  unfold paxosDropConnection
  split
  · exact .same _
  · dsimp only
    split
    · exact proposerDecreePart_further (paxosCommit_further le) _ _ _
    · split
      · exact .same _
      · split
        · split
          · exact proposerPrepare_further (paxosCommit_further le) _ _
          · exact .same _
        · exact .same _

/-- Every message gets as far as its handler. -/
theorem paxosDispatch_further (le : fuel ≤ bound) (node : Node) (source : PeerId) (msg : Msg) :
    Further (paxosDispatch fuel node source msg) (paxosDispatch bound node source msg) := by
  have kills := proposerForceKill_further le node source
  unfold paxosDispatch
  split
  · unfold proposerDispatch
    dsimp only
    -- One case for each opcode; whatever takes no bound is the same.
    split
    all_goals first
      | exact kills
      | exact .same _
      | exact proposerAckPromise_further le _ _
      | exact proposerAckAccept_further le _ _
      | exact proposerAckRequest_further le _ _ _
      | exact paxosAckResend_further le _ _ _
      | exact proposerAckRedirect_further le _ _
      | exact kills.andThen fun _ => .same _
  · unfold acceptorDispatch
    split
    all_goals first
      | exact .same _
      | exact acceptorAckCommit_further le _ _ _
      | exact paxosAckResend_further le _ _ _
      | exact acceptorAckRecommit_further le _ _ _

/-- Every connection attempt gets as far as its continuation. -/
theorem connectinuate_further (le : fuel ≤ bound) (node : Node) (handle : Nat)
    (chan : Option PeerId) :
    Further (connectinuate fuel node handle chan) (connectinuate bound node handle chan) := by
  -- The continuation runs with the bound, and taking it off the list needs none.
  unfold connectinuate
  split
  · exact .same _
  · rename_i k _
    apply Outcome.Approximates.andThen
    · split
      · rename_i acc _
        cases k.purpose with
        | welcome => exact continueWelcome_further le _ _ _
        | ackRedirect => exact continueAckRedirect_further le _ _ _
        | _ => exact .same _
      · exact .same _
    · exact fun _ => .same _

/-- A larger bound gets the handler of an event further, and changes nothing else. -/
theorem handle_further (le : fuel ≤ bound) (node : Node) (event : Event) :
    Further (handle fuel node event) (handle bound node event) := by
  -- By the event; only the sync and the disconnection run no loop.
  cases event with
  | message source msg => exact paxosDispatch_further le node source msg
  | drop source => exact paxosDropConnection_further le node source
  | connected handle chan => exact connectinuate_further le node handle chan
  | client call => exact paxosRequest_further (paxosCommit_further le) node call
  | sync | disconnect => exact .same _

end Motmot
