import Motmot.Proofs.Paxos.Handlers

/-! Hellos, continuations and drops follow the moves, and with them every event of a session. -/

namespace Motmot

variable {start : Node} {event : Event}

section Messages

variable {source : PeerId} {hdr : Header} {body : Body}

/-- A retrieve follows the moves. -/
theorem paxosAckRetrieve_follows (paxid : Nat) (val : Value) :
    Follows start event start (paxosAckRetrieve start hdr paxid val) := by
  unfold paxosAckRetrieve
  split
  · exact .halt (by simp)
  · -- A request that is not cached is not answered, and a cached one is sent.
    split
    · exact .done
    · rename_i req found
      split
      · exact .halt (by simp)
      · refine .inner (paxosSend_follows (.refl start) rfl ?_ lets_nil _)
        exact .cached (SortedList.findFwd_mem found).1

/-- Request data that is sent again follows the moves. -/
theorem paxosAckResend_follows (fuel : Nat) {req : Request} (wf : start.pax.ilist.WellFormed)
    (asked : event = .message source ⟨hdr, .request req⟩) (opcode : hdr.opcode = .resend) :
    Follows start event start (paxosAckResend fuel start hdr req) := by
  -- The data are cached if they are new, and the commit that has waited for them is made.
  unfold paxosAckResend
  split
  · exact .done
  · rename_i cell found
    split
    · exact .done
    · rename_i uncached
      obtain ⟨mem, -⟩ := wf.find_eq_some.mp found
      have unfinished : cell.inst.unfinished := Or.inr (by simpa using uncached)
      have commits : Commits start event (paxosCommit fuel) :=
        paxosCommit_commits fuel (.finishes asked (Or.inr (Or.inr opcode)))
      simp only
      split
      · exact .inner (commits.follows lets_nil wf (.refl start) mem unfinished)
      · exact .outer ((Outer.refl start).cacheRequest (.brought ⟨source, hdr, asked⟩))
          (Follows.inner (commits.follows lets_nil wf (.refl start) mem unfinished))

/-- A message deposes nobody. -/
theorem message_stays {pax : Session} {msg : Msg} (asked : event = .message source msg) :
    ¬ Deposes pax event := by
  rintro ⟨_, _, dropped, _⟩
  rw [asked] at dropped
  contradiction

/-- A hello is yielded to only when it comes from somebody lost who outranks the proposer. -/
theorem Yields.of_hello {pax : Session} (yields : Yields pax event)
    (asked : event = .message source ⟨hdr, body⟩) :
    ∃ acc proposer, acceptorFind pax.alist hdr.inum = some acc ∧ acc.peer = none ∧
      pax.proposer = some proposer ∧ hdr.inum < proposer := by
  -- A continuation cannot be asked for by a message.
  cases yields with
  | hello other opcode heeded found lost current higher =>
    rw [asked] at other
    cases other
    exact ⟨_, _, found, lost, current, higher⟩
  | «continue» _ continues =>
    obtain ⟨_, _, completed, -⟩ := continues
    rw [asked] at completed
    contradiction

/-- Taking over the ballot of a hello follows the moves. -/
theorem helloBallot_follows {node : Node} {acc : Acceptor} (prior : Prior start event node)
    (keeps : ¬ Yields start.pax event)
    (asked : event = .message source ⟨hdr, body⟩) (opcode : hdr.opcode = .hello)
    (heeded : Heeds start.pax hdr)
    (found : acceptorFind start.pax.alist hdr.inum = some acc) :
    Follows start event start (helloBallot node hdr) := by
  have proposer : node.pax.proposer = start.pax.proposer := congrArg Core.proposer prior.core
  refine .prior prior (message_stays asked) keeps ?_
  -- The proposer that greets hands its ballot over, and no other one does.
  unfold helloBallot
  split
  · exact .halt (by simp)
  · rename_i current
    split
    · rename_i same
      exact Follows.top (.helloBallot prior asked opcode heeded found
        (by rw [← proposer, current, same])) .done
    · exact .done

/-- A hello follows the moves. -/
theorem paxosAckHello_follows (asked : event = .message source ⟨hdr, body⟩)
    (opcode : hdr.opcode = .hello) :
    Follows start event start (paxosAckHello start source hdr) := by
  -- The sender waits, gets a channel over none, or takes the place of the one that is held.
  unfold paxosAckHello
  split
  · exact .done
  · rename_i ignored
    have heeded : Heeds start.pax hdr := by simpa [Heeds, and_assoc] using ignored
    have stays : ¬ Deposes start.pax event := message_stays asked
    split
    · rename_i absent
      refine .okPrior ⟨.setAdefer _ _, .wait asked opcode heeded absent⟩ stays fun yields => ?_
      obtain ⟨acc, _, found, -⟩ := yields.of_hello asked
      rw [absent] at found
      contradiction
    · rename_i acc found
      obtain ⟨-, named⟩ := SortedList.findFwd_mem found
      unfold helloAttach
      split
      · rename_i lost
        have lost : acc.peer = none := by simpa using lost
        have attached : Prior start event
            ((start.setPeer acc.paxid (some source)).setLiveCount (start.pax.liveCount + 1)) :=
          ⟨(Beside.setPeer _ _ _).trans (.setLiveCount _ _),
            .greet asked opcode heeded found lost⟩
        simp only
        split
        · rename_i unknown
          refine .prior attached stays (fun yields => ?_) (.halt (by simp))
          obtain ⟨_, proposer, -, -, current, -⟩ := yields.of_hello asked
          have unknown : start.pax.proposer = none := unknown
          rw [unknown] at current
          contradiction
        · rename_i proposer current
          have current : start.pax.proposer = some proposer := current
          split
          · -- The proposer turns out to be alive.
            rename_i higher
            have act := Top.helloYield attached asked opcode heeded found lost current
              (named ▸ higher) rfl
            rw [Outcome.andThen_ok]
            refine Follows.top act ?_
            unfold helloBallot
            simp only [Node.setProposer, named, if_true]
            exact .done
          · rename_i lower
            refine helloBallot_follows attached (fun yields => lower ?_) asked opcode heeded found
            obtain ⟨_, other, -, -, known, higher⟩ := yields.of_hello asked
            obtain rfl := Option.some.inj (known.symm.trans current)
            rw [named]
            exact higher
      · rename_i held
        have held : acc.peer.isSome = true := by simpa [Option.isSome_iff_ne_none] using held
        have keeps : ¬ Yields start.pax event := by
          intro yields
          obtain ⟨other, _, same, lost, -⟩ := yields.of_hello asked
          obtain rfl := Option.some.inj (same.symm.trans found)
          simp [lost] at held
        split
        · rename_i lower
          -- The channel that the higher-ranked end made replaces ours.
          have replaced : Prior start event
              ((peerDestroy start acc.peer).setPeer acc.paxid (some source)) := by
            refine ⟨(Outer.peerDestroy _ _).toBeside.trans (.setPeer _ _ _), ?_⟩
            have opened := Opens.replace asked opcode heeded found held lower
            cases peer : acc.peer <;> exact opened
          exact helloBallot_follows replaced keeps asked opcode heeded found
        · exact helloBallot_follows (.refl start) keeps asked opcode heeded found

end Messages

section Continuations

variable {chan : Option PeerId} {acc : Acceptor}

/-- Introducing ourselves over a channel that was just made is an outer move. -/
theorem hello_outer {node mid : Node} {purpose : Purpose} {peer : PeerId}
    (prior : Outer start event node mid)
    (continues : Continues start.pax event purpose acc (some peer))
    (attaches : Attaches start.pax acc purpose) (self : mid.pax.selfId = start.pax.selfId)
    (ballot : mid.pax.ballot = start.pax.ballot) :
    Outer start event node (mid.emit (.send peer
      { hdr := headerInit mid.pax .hello mid.pax.selfId, body := .empty })) :=
  prior.emit (.hello continues attaches rfl self ballot)

/-- The completion of a connection attempt deposes nobody. -/
theorem continues_stays {purpose : Purpose}
    (continues : Continues start.pax event purpose acc chan) : ¬ Deposes start.pax event := by
  obtain ⟨_, _, completed, -⟩ := continues
  rintro ⟨_, _, dropped, _⟩
  rw [completed] at dropped
  contradiction

/-- An event completes one connection attempt only. -/
theorem Continues.unique {pax : Session} {purpose other : Purpose} {acc found : Acceptor}
    {chan made : Option PeerId} (continues : Continues pax event purpose acc chan)
    (again : Continues pax event other found made) :
    other = purpose ∧ found = acc ∧ made = chan := by
  obtain ⟨handle, k, rfl, held, rfl, listed⟩ := continues
  obtain ⟨_, k', completed, held', rfl, listed'⟩ := again
  cases completed
  obtain rfl := Option.some.inj (held.symm.trans held')
  exact ⟨rfl, Option.some.inj (listed'.symm.trans listed), rfl⟩

/-- A continuation yields only when it reached somebody who outranks the proposer. -/
theorem Yields.of_continues {pax : Session} {purpose : Purpose} (yields : Yields pax event)
    (continues : Continues pax event purpose acc chan) :
    (purpose = .ackRedirect ∨ ∃ val, purpose = .ackRefuse val) ∧ ∃ peer proposer,
      chan = some peer ∧ pax.proposer = some proposer ∧ acc.paxid < proposer := by
  -- A hello cannot be what completes an attempt.
  cases yields with
  | hello asked =>
    obtain ⟨_, _, completed, -⟩ := continues
    rw [asked] at completed
    contradiction
  | «continue» resolves again _ current higher =>
    obtain ⟨rfl, rfl, rfl⟩ := continues.unique again
    exact ⟨resolves, _, _, rfl, current, higher⟩

/-- Nobody is yielded to without a channel. -/
theorem continues_keeps {purpose : Purpose}
    (continues : Continues start.pax event purpose acc none) : ¬ Yields start.pax event := by
  intro yields
  obtain ⟨-, _, _, made, -⟩ := yields.of_continues continues
  contradiction

/-- The continuation of a welcome follows the moves. -/
theorem continueWelcome_follows (fuel : Nat) (wf : start.pax.ilist.WellFormed)
    (continues : Continues start.pax event .welcome acc chan) :
    Follows start event start (continueWelcome fuel start chan acc) := by
  have attached : Prior start event (attachChannel start acc.paxid chan) :=
    .attachChannel continues trivial
  refine .prior attached (continues_stays continues)
    (fun yields => by simpa using (yields.of_continues continues).1) ?_
  unfold continueWelcome
  cases chan with
  | none =>
    -- The newcomer cannot be reached, so it is parted by whoever asked for the connection.
    have quorum : majority (attachChannel start acc.paxid none).pax = majority start.pax := by
      simp [majority, attachChannel, Node.setPeer]
    refine .inner (proposerDecreePart_follows lets_nil
      (fun few => paxosCommit_commits fuel (.alone continues (quorum ▸ few)))
      (attached.wellFormed wf) (attached.scripted (.refl start)) acc false
        (Or.inr ⟨attached.core, acc, continues⟩))
  | some peer => exact Follows.top (.welcome attached continues) .done

/-- The continuation of our own welcome follows the moves. -/
theorem continueAckWelcome_follows (continues : Continues start.pax event .ackWelcome acc chan) :
    Follows start event start (continueAckWelcome start chan acc) := by
  have attached : Prior start event (attachChannel start acc.paxid chan) :=
    .attachChannel continues trivial
  have keeps : ¬ Yields start.pax event :=
    fun yields => by simpa using (yields.of_continues continues).1
  unfold continueAckWelcome
  -- Without a channel nothing happens, and with one the newcomer is greeted over it.
  cases chan with
  | none => exact .okPrior attached (continues_stays continues) keeps
  | some peer =>
    exact .prior attached (continues_stays continues) keeps
      (.okOuter (hello_outer (.refl _) continues trivial rfl rfl))

/-- A proposer that is known is yielded to by the write of the proposership alone. -/
theorem yieldTo_eq {node : Node} {acc : Acceptor} {proposer : Nat}
    (known : node.pax.proposer = some proposer) :
    yieldTo node acc = if acc.paxid < proposer
      then ((node.setPrep none).setIdefer []).setProposer acc.paxid
      else (node.setPrep none).setIdefer [] := by
  simp only [yieldTo, known]

/-- The continuation of a redirect follows the moves. -/
theorem continueAckRedirect_follows (fuel : Nat)
    (continues : Continues start.pax event .ackRedirect acc chan) :
    Follows start event start (continueAckRedirect fuel start chan acc) := by
  -- An attempt that fails is followed by a prepare, one that succeeds by a yield.
  unfold continueAckRedirect
  split
  · exact .halt (by simp)
  · rename_i rank
    have higher : acc.paxid < start.pax.selfId := not_not.mp rank
    split
    · split
      · exact .halt (by simp)
      · exact .done
    · rename_i dead
      have lost : acc.peer = none := by simpa using dead
      have attached : Prior start event (attachChannel start acc.paxid chan) :=
        .attachChannel continues ⟨lost, higher⟩
      have stays := continues_stays continues
      cases chan with
      | none =>
        have keeps := continues_keeps continues
        refine .prior attached stays keeps (proposerPrepare_follows lets_nil lets_nil
          (fun _ _ => .inner)
          false rfl id fun _ enough => .top ?_)
        exact .rebegin (Or.inr ⟨attached, acc, continues, lost, higher⟩) enough
      | some peer =>
        simp only
        split
        · rename_i unknown
          refine .prior attached stays (fun yields => ?_) (.haltLike (by simp) rfl id)
          obtain ⟨-, _, _, -, current, -⟩ := yields.of_continues continues
          have unknown : start.pax.proposer = none := unknown
          rw [unknown] at current
          contradiction
        · rename_i proposer current
          have current : start.pax.proposer = some proposer := current
          have act : Top start event start (yieldTo (attachChannel start acc.paxid (some peer))
            acc) :=
            .yieldRedirect attached continues lost higher (by rw [current]; rfl) rfl
          rw [yieldTo_eq (by exact current)] at act
          refine Follows.top act ?_
          -- The hello names us under the ballot that we had.
          split
          · exact .okOuter (hello_outer (.refl _) continues ⟨lost, higher⟩ rfl rfl)
          · exact .okOuter (hello_outer (.refl _) continues ⟨lost, higher⟩ rfl rfl)

/-- Sending a refused request again follows the moves: it may have to be rebuilt. -/
theorem resendRefused_follows {node : Node} (paxid : Nat) {val : Value}
    (rebuilds : requestFind node.pax.rcache val.reqid = none → Rebuilds start.pax event val) :
    Follows start event node (resendRefused node paxid val) := by
  unfold resendRefused
  refine .inner (paxosSendToProposer_follows (.refl node) rfl ?_ lets_nil)
  show Source start event node [] _
  -- The request is cached, or it is rebuilt from the value.
  cases found : requestFind node.pax.rcache val.reqid with
  | none => exact .rebuilt (rebuilds found) rfl
  | some req => exact .cached (SortedList.findFwd_mem found).1

/-- Yielding, and sending the refused request again if that changed the proposer. -/
theorem yieldResend_follows {node : Node} {val : Value} {proposer : Nat}
    (known : node.pax.proposer = some proposer) (act : Top start event start (yieldTo node acc))
    (rebuilds : acc.paxid < proposer → requestFind node.pax.rcache val.reqid = none →
      Rebuilds start.pax event val) :
    Follows start event start
      (if acc.paxid < proposer then
        resendRefused (((node.setPrep none).setIdefer []).setProposer acc.paxid) acc.paxid val
      else .ok ((node.setPrep none).setIdefer [])) := by
  refine .top act ?_
  rw [yieldTo_eq known]
  -- Only a yield to somebody higher changes the proposer, and needs the request again.
  split
  · rename_i higher
    exact resendRefused_follows acc.paxid (rebuilds higher)
  · exact .done

/-- The continuation of a refuse follows the moves. -/
theorem continueAckRefuse_follows {val : Value}
    (continues : Continues start.pax event (.ackRefuse val) acc chan) :
    Follows start event start (continueAckRefuse start chan acc val) := by
  -- The channel is attached and greeted, and then the request is sent again.
  unfold continueAckRefuse
  split
  · exact .done
  · rename_i ignored
    have unprepared : isProposer start.pax = false ∨ start.pax.prep.isSome = true := by
      cases proposing : isProposer start.pax with
      | false => exact Or.inl rfl
      | true =>
        cases preparing : start.pax.prep with
        | none => simp [proposing, preparing] at ignored
        | some prep => exact Or.inr rfl
    have attached : Prior start event (attachChannel start acc.paxid chan) :=
      .attachChannel continues unprepared
    have stays := continues_stays continues
    cases chan with
    | none => exact .okPrior attached stays (continues_keeps continues)
    | some peer =>
      have greeted := attached.outer (hello_outer (.refl _) continues unprepared rfl rfl)
      have act := Top.yieldRefuse greeted continues unprepared rfl
      simp only [paxosHello, paxosSend, Outcome.andThen_ok]
      split
      · rename_i unknown
        refine .prior greeted stays (fun yields => ?_) (.haltLike (by simp) rfl id)
        obtain ⟨-, _, _, -, current, -⟩ := yields.of_continues continues
        have unknown : start.pax.proposer = none := unknown
        rw [unknown] at current
        contradiction
      · rename_i proposer known
        -- Neither the channel nor the hello has touched the cache.
        exact yieldResend_follows known act fun higher gone =>
          ⟨⟨acc, peer, proposer, continues, unprepared, known, higher⟩, gone⟩

/-- The continuation of a reject follows the moves. -/
theorem continueAckReject_follows {inum : Nat}
    (continues : Continues start.pax event (.ackReject inum) acc chan) :
    Follows start event start (continueAckReject start chan acc inum) := by
  -- The part is decreed again as it is, or as a null for an acceptor that was reached.
  unfold continueAckReject
  split
  · exact .done
  · rename_i cell found
    have attached : Prior start event (attachChannel start acc.paxid chan) :=
      .attachChannel continues ⟨cell, found⟩
    have stays := continues_stays continues
    have keeps : ¬ Yields start.pax event :=
      fun yields => by simpa using (yields.of_continues continues).1
    cases chan with
    | none =>
      exact .prior attached stays keeps (Follows.top (.rewrite attached continues found) .done)
    | some peer =>
      have greeted := attached.outer (hello_outer (.refl _) continues ⟨cell, found⟩ rfl rfl)
      exact .prior greeted stays keeps (Follows.top (.rewrite greeted continues found) .done)

/-- The completion of a connection attempt follows the moves. -/
theorem connectinuate_follows (fuel : Nat) {handle : Nat} (wf : start.pax.ilist.WellFormed)
    (completed : event = .connected handle chan) :
    Follows start event start (connectinuate fuel start handle chan) := by
  -- The attempt is for one of five purposes, and is taken off the list behind its continuation.
  unfold connectinuate
  split
  · exact .done
  · rename_i k held
    have forget : ∀ mid : Node, Follows start event mid
        (.ok (mid.setClist (mid.pax.clist.filter fun k => k.handle ≠ handle))) := fun _ =>
      .okOuter (.write rfl rfl rfl rfl (fun _ mem => List.mem_of_mem_filter mem) (fun _ => id) rfl)
    refine Leads.andThen (?_ : Follows start event start _) fun mid _ => forget mid
    split
    · rename_i acc found
      have continues : ∀ purpose, k.purpose = purpose →
          Continues start.pax event purpose acc chan :=
        fun purpose same => ⟨handle, k, completed, held, same, found⟩
      unfold continuePurpose
      split
      · rename_i same
        exact continueWelcome_follows fuel wf (continues _ same)
      · rename_i same
        exact continueAckWelcome_follows (continues _ same)
      · rename_i same
        exact continueAckRedirect_follows fuel (continues _ same)
      · rename_i same
        exact continueAckRefuse_follows (continues _ same)
      · rename_i same
        exact continueAckReject_follows (continues _ same)
    · exact .done

end Continuations

/-- The loss of a connection follows the moves. -/
theorem paxosDropConnection_follows (fuel : Nat) (wf : start.pax.ilist.WellFormed)
    {source : PeerId} (dropped : event = .drop source) :
    Follows start event start (paxosDropConnection fuel start source) := by
  unfold paxosDropConnection
  split
  · exact .done
  · rename_i acc found
    have closed : Beside start event start ((start.emit (.close source)).setPeer acc.paxid none) :=
      ((Beside.refl start).emit (.close source)).trans (.setPeer _ _ _)
    have counted : Prior start event
        (((start.emit (.close source)).setPeer acc.paxid none).setLiveCount (unsignedPred
          ((start.emit (.close source)).setPeer acc.paxid none).pax.liveCount)) :=
      ⟨closed.trans (.setLiveCount _ _), .lose dropped found⟩
    have wfCounted := counted.wellFormed wf
    have hushed : Outer start event start (start.emit (.close source)) :=
      (Outer.refl start).emit (.close _)
    have out : (((start.emit (.close source)).setPeer acc.paxid none).setLiveCount (unsignedPred
        ((start.emit (.close source)).setPeer acc.paxid none).pax.liveCount)).out =
          (start.emit (.close source)).out := rfl
    have desk : (((start.emit (.close source)).setPeer acc.paxid none).setLiveCount (unsignedPred
        ((start.emit (.close source)).setPeer acc.paxid none).pax.liveCount)).pax.desk =
          (start.emit (.close source)).pax.desk := setLiveCount_desk _ _
    simp only
    generalize ((start.emit (.close source)).setPeer acc.paxid none).setLiveCount
      (unsignedPred _) = node at counted wfCounted out desk ⊢
    have proposing : isProposer node.pax = isProposer start.pax := isProposer_congr counted.core
    have current : node.pax.proposer = start.pax.proposer := congrArg Core.proposer counted.core
    have keeps : ¬ Yields start.pax event := by
      intro yields
      cases yields with
      | hello asked => simp [asked] at dropped
      | «continue» _ continues =>
        obtain ⟨_, _, completed, -⟩ := continues
        simp [completed] at dropped
    -- Somebody is deposed when the channel lost is the one to the proposer.
    have deposes : Deposes start.pax event ↔ isProposer start.pax = false ∧
        start.pax.proposer = some acc.paxid := by
      constructor
      · rintro ⟨other, lost, same, foundOther, deposed, led⟩
        obtain rfl : source = other := by simpa [dropped] using same
        obtain rfl : acc = lost := by simpa [found] using foundOther
        exact ⟨deposed, led⟩
      · rintro ⟨deposed, led⟩
        exact ⟨source, acc, dropped, found, deposed, led⟩
    split
    · rename_i proposer
      have stays : ¬ Deposes start.pax event := by
        rw [deposes, ← proposing, proposer]
        simp
      have licensed : Licenses start event := by
        refine .leads (proposing ▸ proposer) ?_
        simp [Event.greets, dropped]
      exact .prior counted stays keeps (.inner (proposerDecreePart_follows lets_nil
        (fun _ => paxosCommit_commits fuel licensed) wfCounted (counted.scripted (.refl start)) _ _
          (Or.inl proposer)))
    · rename_i deposed
      split
      · rename_i nobody
        refine .prior counted ?_ keeps (.halt (by simp))
        rw [deposes, ← current, nobody]
        simp
      · rename_i proposer led
        split
        · rename_i same
          have lost : Deposes start.pax event :=
            deposes.mpr ⟨by simpa [proposing] using deposed, by rw [← current, led, same]⟩
          exact .outer hushed (replaceProposer_follows lets_nil lets_nil (fun _ _ => .inner) out
            fun next replaces =>
              .top (.depose hushed counted out lost replaces counted.counted desk))
        · rename_i other
          refine .okPrior counted ?_ keeps
          rw [deposes, ← current, led]
          simpa using fun _ => Ne.symm other

/-- The tick of a sync timer is an outer move. -/
theorem proposerSync_outer (node : Node) : Outer start event node (proposerSync node) := by
  have restart : ∀ sync, Outer start event node
      (paxosBroadcast { node.setSync sync with pax.syncId := node.pax.syncId + 1 }
        { hdr := headerInit node.pax .sync (node.pax.syncId + 1), body := .empty }) := fun sync =>
    Outer.broadcast (.write rfl rfl rfl rfl (fun _ => id) (fun _ => id) rfl) rfl (by trivial)
  unfold proposerSync
  -- A sync waits, goes on, or is started anew.
  split
  · exact .refl node
  · split
    · exact .refl node
    · split
      · exact .refl node
      · simp only
        split
        · exact restart _
        · split
          · exact .setSync _ _
          · exact restart _

/-- A message to the proposer follows the moves. -/
theorem proposerDispatch_follows (fuel : Nat) {source : PeerId} {msg : Msg}
    (wf : start.pax.ilist.WellFormed) (asked : event = .message source msg)
    (proposer : isProposer start.pax = true) :
    Follows start event start (proposerDispatch fuel start source msg) := by
  -- A message that no acceptor sends to its proposer has its sender killed.
  obtain ⟨hdr, body⟩ := msg
  have kill : hdr.opcode ≠ .hello →
      Follows start event start (proposerForceKill fuel start source) := by
    intro busy
    refine proposerForceKill_follows fuel wf proposer ?_ source
    simp [Event.greets, asked, busy]
  unfold proposerDispatch
  simp only
  split
  -- Only a proposer sends these.
  case h_1 opcode | h_2 opcode | h_3 opcode | h_4 opcode => exact kill (by simp [opcode])
  case h_5 opcode => exact proposerAckPromise_follows fuel wf asked opcode proposer
  case h_6 opcode => exact proposerAckAccept_follows fuel wf asked opcode proposer
  case h_7 opcode => exact proposerAckRequest_follows fuel wf asked opcode proposer
  case h_8 => exact paxosAckRetrieve_follows _ _
  case h_9 opcode => exact paxosAckResend_follows fuel wf asked opcode
  case h_10 opcode => exact paxosAckHello_follows asked opcode
  case h_11 opcode => exact proposerAckRedirect_follows fuel asked opcode proposer
  case h_12 opcode =>
    -- The kill is followed by the case of a reject.
    exact (kill (by simp [opcode])).andThen fun mid path =>
      proposerAckReject_follows (move_wellFormed path wf) asked (Or.inr opcode) proposer
  case h_13 opcode => exact proposerAckReject_follows wf asked (Or.inl opcode) proposer
  case h_14 opcode => exact proposerAckRetry_follows asked opcode proposer
  case h_15 opcode | h_16 opcode | h_17 opcode => exact kill (by simp [opcode])
  case h_18 opcode => exact proposerAckLast_follows asked opcode
  all_goals exact .halt (by simp)

/-- A message to an acceptor follows the moves. -/
theorem acceptorDispatch_follows (fuel : Nat) {source : PeerId} {msg : Msg}
    (wf : start.pax.ilist.WellFormed) (asked : event = .message source msg)
    (acceptor : isProposer start.pax = false) :
    Follows start event start (acceptorDispatch fuel start source msg) := by
  -- The messages that only a proposer gets are ignored.
  obtain ⟨hdr, body⟩ := msg
  unfold acceptorDispatch
  simp only
  split
  case h_1 opcode => exact acceptorAckPrepare_follows asked opcode acceptor
  case h_2 opcode => exact acceptorAckDecree_follows asked opcode acceptor
  case h_3 opcode => exact acceptorAckCommit_follows fuel wf asked opcode acceptor
  case h_4 => exact acceptorAckRequest_follows asked
  case h_5 => exact paxosAckRetrieve_follows _ _
  case h_6 opcode => exact paxosAckResend_follows fuel wf asked opcode
  case h_7 opcode => exact paxosAckHello_follows asked opcode
  case h_8 => exact acceptorAckRefuse_follows asked
  case h_9 opcode => exact acceptorAckRecommit_follows fuel wf asked opcode acceptor
  case h_10 => exact acceptorAckSync_follows
  case h_11 opcode => exact acceptorAckTruncate_follows asked opcode acceptor
  case h_12 | h_13 | h_14 | h_15 | h_16 | h_17 | h_18 => exact .done
  all_goals exact .halt (by simp)

/-- Every event of a session follows the moves. -/
theorem handle_follows (fuel : Nat) (event : Event) (wf : start.pax.ilist.WellFormed) :
    Follows start event start (handle fuel start event) := by
  -- One case for each kind of event.
  cases event with
  | message source msg =>
    show Follows start _ start (paxosDispatch fuel start source msg)
    unfold paxosDispatch
    split
    · rename_i proposer
      exact proposerDispatch_follows fuel wf rfl proposer
    · rename_i acceptor
      exact acceptorDispatch_follows fuel wf rfl (by simpa using acceptor)
  | drop source => exact paxosDropConnection_follows fuel wf rfl
  | connected handle chan => exact connectinuate_follows fuel wf rfl
  | client call =>
    exact .inner (paxosRequest_follows lets_nil
      (fun proposer => paxosCommit_commits fuel (.leads proposer rfl)) wf (.refl start)
      (.client call))
  | sync =>
    show Follows start _ start (.ok (if isProposer start.pax then proposerSync start else start))
    split
    · exact .okOuter (proposerSync_outer start)
    · exact .done
  | disconnect => exact .inner (paxosEnd_follows lets_nil rfl id)

end Motmot
