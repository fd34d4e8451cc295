import Mathlib.Data.List.Induction
import Motmot.Paxos.Peer

/-! The stream to a peer loses nothing, and when its channel stays watched. -/

namespace Motmot

namespace Peer

/-- How many watches of a kind the channel has. -/
def watched (peer : Peer) (kind : Watch) : Nat := peer.watches.count kind

/-- What every event keeps: nothing is lost, and no kind of watch is there twice. -/
structure Wired (peer : Peer) : Prop where
  lossless : peer.accepted ++ peer.writeBuffer = peer.sent
  writes : peer.watched .write ≤ 1
  idle : peer.writeBuffer = [] → peer.watched .write = 0
  gone : peer.freed = true → ∀ id, peer.watches.kindOf id = none

/-- A peer is watched for writing while it has something to write. -/
def Writing (peer : Peer) : Prop := peer.writeBuffer ≠ [] → 0 < peer.watched .write

/-- A peer that was not destroyed has its write watch, and until the end of file its read watch. -/
structure Attended (peer : Peer) : Prop where
  writing : peer.freed = false → peer.Writing
  reading : peer.eof = false → peer.watched .read = 1

/-- What sending to a peer leaves as it was. -/
structure Extends (old new : Peer) : Prop where
  eof : new.eof = old.eof
  freed : new.freed = old.freed
  reads : new.watched .read = old.watched .read
  given : old.watches.next ≤ new.watches.next
  kinds : ∀ id, id < old.watches.next → new.watches.kindOf id = old.watches.kindOf id
  busy : old.writeBuffer ≠ [] →
    new.writeBuffer ≠ [] ∧ new.watched .write = old.watched .write
  wired : old.freed = false → old.Wired → new.Wired
  writing : old.Writing → new.Writing

theorem Extends.refl (peer : Peer) : peer.Extends peer :=
  ⟨rfl, rfl, rfl, Nat.le_refl _, fun _ _ => rfl, fun busy => ⟨busy, rfl⟩,
    fun _ wired => wired, fun writing => writing⟩

theorem Extends.trans {first second third : Peer} (left : first.Extends second)
    (right : second.Extends third) : first.Extends third where
  eof := right.eof.trans left.eof
  freed := right.freed.trans left.freed
  reads := right.reads.trans left.reads
  given := Nat.le_trans left.given right.given
  kinds := fun id given =>
    (right.kinds id (Nat.lt_of_lt_of_le given left.given)).trans (left.kinds id given)
  -- A buffer that is not empty stays so, with the same watch.
  busy := by
    intro busy
    obtain ⟨still, same⟩ := left.busy busy
    obtain ⟨still, again⟩ := right.busy still
    exact ⟨still, again.trans same⟩
  wired := fun alive wired => right.wired (left.freed.trans alive) (left.wired alive wired)
  writing := fun writing => right.writing (left.writing writing)

/-- Sending adds a write watch exactly when it puts something into an empty buffer. -/
theorem paxosPeerSend_extends (peer : Peer) (buffer : Bytes) :
    peer.Extends (peer.paxosPeerSend buffer) := by
  -- The buffer was empty and something is sent, or the watches stay as they are.
  by_cases starts : peer.writeBuffer.length = 0 ∧ buffer.length > 0
  · have shape : peer.paxosPeerSend buffer = { peer with
        watches := peer.watches.add .write, writeBuffer := peer.writeBuffer ++ buffer
        sent := peer.sent ++ buffer } := by
      rw [paxosPeerSend, if_pos starts]
    have empty : peer.writeBuffer = [] := List.length_eq_zero_iff.mp starts.1
    have filled : buffer ≠ [] := List.ne_nil_of_length_pos starts.2
    rw [shape]
    refine ⟨rfl, rfl, by simp [watched], Nat.le_succ _, ?_, ?_, ?_, ?_⟩
    · exact fun id given => Watches.kindOf_add given .write
    · exact fun busy => absurd empty busy
    · intro alive wired
      -- There was no write watch before, as there was nothing to write.
      have none := wired.idle empty
      simp only [watched] at none
      constructor
      · simp [← wired.lossless]
      · simp [watched, none]
      · simp [filled]
      · simp [alive]
    · intro _ _
      simp [watched]
  · have shape : peer.paxosPeerSend buffer = { peer with
        writeBuffer := peer.writeBuffer ++ buffer, sent := peer.sent ++ buffer } := by
      rw [paxosPeerSend, if_neg starts]
    -- What was not busy before is not busy now.
    have same : peer.writeBuffer ++ buffer = [] ↔ peer.writeBuffer = [] := by
      simp only [List.append_eq_nil_iff, and_iff_left_iff_imp]
      intro empty
      by_contra filled
      exact starts ⟨by simp [empty], List.length_pos_iff.mpr filled⟩
    rw [shape]
    refine ⟨rfl, rfl, rfl, Nat.le_refl _, fun _ _ => rfl, ?_, ?_, ?_⟩
    · exact fun busy => ⟨mt same.mp busy, rfl⟩
    · intro _ wired
      constructor
      · simp [← wired.lossless]
      · exact wired.writes
      · exact fun empty => wired.idle (same.mp empty)
      · exact wired.gone
    · exact fun writing busy => writing (mt same.mpr busy)

/-- The sends of a handler. -/
theorem sends_extends (peer : Peer) (sends : List Bytes) :
    peer.Extends (sends.foldl paxosPeerSend peer) := by
  induction sends generalizing peer with
  | nil => exact Extends.refl peer
  | cons buffer sends ih => exact (peer.paxosPeerSend_extends buffer).trans (ih _)

/-- The handlers of a read send, and fail if one of them does. -/
theorem popObjects_spec (peer : Peer) (replies : List Reply) : ∃ mid, peer.Extends mid ∧
    peer.popObjects replies = (replies.any Reply.fails, mid) := by
  -- By induction on the replies: each sends, and the loop ends where one fails.
  induction replies generalizing peer with
  | nil => exact ⟨peer, Extends.refl peer, rfl⟩
  | cons reply replies ih =>
    have sends := peer.sends_extends reply.sends
    rw [popObjects]
    split
    · rename_i fails
      exact ⟨_, sends, by simp [fails]⟩
    · rename_i works
      obtain ⟨mid, more, popped⟩ := ih (reply.sends.foldl paxosPeerSend peer)
      exact ⟨mid, sends.trans more, by simp [popped, works]⟩

/-- Whether a handler fails in some round of a read. -/
def fails (rounds : List ReadRound) : Bool := rounds.any fun round => round.replies.any Reply.fails

/-- The round of a read that meets the end of file, by whether it destroys the peer. -/
def ending (rounds : List ReadRound) : Option Bool :=
  (rounds.find? fun round => round.status = .eof).map ReadRound.attached

/-- A read sends, drops the connection at the end of file, and stays unless a handler fails. -/
theorem readLoop_spec (r : Bool) (peer : Peer) (rounds : List ReadRound) : ∃ mid, peer.Extends mid ∧
    readLoop r peer rounds = match ending rounds with
      | some attached => (false, mid.dropConnection attached)
      | none => (r && !fails rounds, mid) := by
  -- Each round dispatches what has come and then goes on, or ends at the end of file.
  induction rounds generalizing r peer with
  | nil => exact ⟨peer, Extends.refl peer, by simp [readLoop, ending, fails]⟩
  | cons round rounds ih =>
    obtain ⟨mid, sends, popped⟩ := peer.popObjects_spec round.replies
    simp only [readLoop, popped]
    split
    · rename_i ends
      exact ⟨mid, sends, by simp [ending, ends]⟩
    · rename_i goes
      obtain ⟨last, more, looped⟩ := ih (if round.replies.any Reply.fails then false else r) mid
      refine ⟨last, sends.trans more, ?_⟩
      have later : ending (round :: rounds) = ending rounds := by simp [ending, goes]
      rw [looped, later]
      cases ending rounds with
      | some attached => rfl
      | none =>
        simp only [fails, List.any_cons]
        cases round.replies.any Reply.fails <;> simp

/-- Dropping the connection destroys the peer with its watches, or leaves them as they are. -/
theorem dropConnection_wired {peer : Peer} (alive : peer.freed = false) (wired : peer.Wired)
    (attached : Bool) : (peer.dropConnection attached).Wired := by
  -- Only a channel that is attached is dropped.
  cases attached with
  | false => exact ⟨wired.lossless, wired.writes, wired.idle, by simp [dropConnection, alive]⟩
  | true =>
    refine ⟨wired.lossless, ?_, ?_, ?_⟩
    · simp [dropConnection, paxosPeerDestroy, watched]
    · simp [dropConnection, paxosPeerDestroy, watched]
    · simp [dropConnection, paxosPeerDestroy]

/-- After the end of file only a peer that was not destroyed needs a watch, for writing. -/
theorem dropConnection_attended {peer : Peer} (writing : peer.Writing) (attached : Bool) :
    (peer.dropConnection attached).Attended := by
  cases attached with
  | false => exact ⟨fun _ => writing, by simp [dropConnection]⟩
  | true =>
    exact ⟨by simp [dropConnection, paxosPeerDestroy], by simp [dropConnection, paxosPeerDestroy]⟩

/-- A source that the main loop removes leaves the others as they were. -/
theorem returned_wired {outcome : Bool × Peer} (wired : outcome.2.Wired) (id : Nat) :
    (returned id outcome).Wired := by
  -- A source that stays changes nothing, and one that goes takes at most a watch with it.
  obtain ⟨stay, peer⟩ := outcome
  cases stay with
  | true => exact ⟨wired.lossless, wired.writes, wired.idle, wired.gone⟩
  | false =>
    have fewer := peer.watches.count_remove_le id .write
    refine ⟨wired.lossless, Nat.le_trans fewer wired.writes, ?_, ?_⟩
    · intro empty
      exact Nat.le_zero.mp (Nat.le_trans fewer (Nat.le_of_eq (wired.idle empty)))
    · exact fun freed other => Watches.kindOf_remove_none (wired.gone freed other)

/-- The write to the channel, before the end of file is looked at. -/
def written (peer : Peer) (count : Nat) : Peer :=
  { peer with
    watches := if peer.writeBuffer.length ≤ count then peer.watches.clear.add .read
      else peer.watches
    accepted := peer.accepted ++ peer.writeBuffer.take count
    writeBuffer := peer.writeBuffer.drop count }

/-- With something to write, the callback writes it and reads on at the end of file. -/
theorem paxosPeerWrite_eq {peer : Peer} (busy : peer.writeBuffer ≠ []) (writeout : Writeout) :
    peer.paxosPeerWrite writeout = if writeout.status = .eof then
        (false, ((peer.written writeout.bytesWritten).paxosPeerRead writeout.rounds).2)
      else (true, peer.written writeout.bytesWritten) := by
  -- What is written may drain the buffer or leave a part of it.
  have some : ¬ peer.writeBuffer.length = 0 := mt List.length_eq_zero_iff.mp busy
  by_cases drained : peer.writeBuffer.length ≤ writeout.bytesWritten
  · have empty : (peer.writeBuffer.drop writeout.bytesWritten).length = 0 := by simp [drained]
    simp only [paxosPeerWrite, if_neg some, if_pos empty, written, if_pos drained]
  · have left : ¬ (peer.writeBuffer.drop writeout.bytesWritten).length = 0 := by
      simpa [Nat.sub_eq_zero_iff_le] using drained
    simp only [paxosPeerWrite, if_neg some, if_neg left, written, if_neg drained]

/-- The hack that drains the watches leaves a read watch alone. -/
theorem written_watched (peer : Peer) (count : Nat) (kind : Watch) :
    (peer.written count).watched kind = if peer.writeBuffer.length ≤ count then
      if kind = .read then 1 else 0 else peer.watched kind := by
  simp only [watched, written]
  split
  · cases kind <;> simp
  · rfl

/-- A write moves bytes from the buffer to the channel, and gives up the watches when it drains. -/
theorem written_wired {peer : Peer} (alive : peer.freed = false) (wired : peer.Wired)
    (count : Nat) : (peer.written count).Wired := by
  have writes := written_watched peer count .write
  -- What is written leaves the buffer; once it is empty, the write watch goes.
  constructor
  · simp [written, ← wired.lossless]
  · rw [writes]
    split
    · simp
    · exact wired.writes
  · intro empty
    have drained : peer.writeBuffer.length ≤ count := by simpa [written] using empty
    rw [writes, if_pos drained]
    rfl
  · simp [written, alive]

/-- A write that drains the buffer leaves the read watch, and another one leaves all watches. -/
theorem written_attended {peer : Peer} (attended : peer.Attended) (alive : peer.freed = false)
    (count : Nat) : (peer.written count).Attended := by
  -- The write watch goes only with the last byte, and the read watch is set again.
  constructor
  · intro _ busy
    have left : ¬ peer.writeBuffer.length ≤ count := by simpa [written] using busy
    rw [written_watched, if_neg left]
    refine attended.writing alive ?_
    rintro empty
    simp [empty] at left
  · intro goes
    rw [written_watched]
    split
    · rfl
    · exact attended.reading goes

/-- A source runs only at a peer that was not destroyed. -/
theorem Wired.alive {peer : Peer} (wired : peer.Wired) {id : Nat} {kind : Watch}
    (source : peer.watches.kindOf id = some kind) : peer.freed = false := by
  cases freed : peer.freed with
  | false => rfl
  | true => simp [wired.gone freed id] at source

/-- What the environment may do for the peer to stay attended. -/
def Event.Sound (peer : Peer) : Event → Prop
  | .send _ => True
  | .read _ rounds => peer.eof = true ∨ (ending rounds).isSome ∨ fails rounds = false
  | .write _ writeout => writeout.status = .eof →
      peer.writeBuffer.length ≤ writeout.bytesWritten ∨ ending writeout.rounds = some true

instance (peer : Peer) : DecidablePred (Event.Sound peer) := by
  intro event
  cases event <;> unfold Event.Sound <;> infer_instance

/-- The read callback keeps the wiring. -/
theorem readLoop_wired {peer : Peer} (alive : peer.freed = false) (wired : peer.Wired) (r : Bool)
    (rounds : List ReadRound) : (readLoop r peer rounds).2.Wired := by
  -- The loop has sent, and may have dropped the channel at its end.
  obtain ⟨mid, sends, looped⟩ := readLoop_spec r peer rounds
  have midWired := sends.wired alive wired
  rw [looped]
  cases ending rounds with
  | some attached => exact dropConnection_wired (sends.freed.trans alive) midWired attached
  | none => exact midWired

/-- Every event keeps the wiring, whatever handlers and channel do. -/
theorem step_wired {peer next : Peer} {event : Event} (wired : peer.Wired)
    (taken : peer.step event = some next) : next.Wired := by
  -- One case for each event; the callbacks run only while their source is there.
  cases event with
  | send buffer =>
    simp only [step] at taken
    split at taken
    · simp at taken
    · obtain rfl := Option.some.inj taken
      rename_i alive
      exact (peer.paxosPeerSend_extends buffer).wired (by simpa using alive) wired
  | read id rounds =>
    simp only [step] at taken
    split at taken
    · obtain rfl := Option.some.inj taken
      rename_i enabled
      exact returned_wired (readLoop_wired (wired.alive enabled.1) wired true rounds) id
    · simp at taken
  | write id writeout =>
    simp only [step] at taken
    split at taken
    · obtain rfl := Option.some.inj taken
      rename_i source
      have alive := wired.alive source
      refine returned_wired ?_ id
      by_cases busy : peer.writeBuffer = []
      · rw [paxosPeerWrite, if_pos (List.length_eq_zero_iff.mpr busy)]
        exact wired
      · rw [paxosPeerWrite_eq busy]
        have left := written_wired alive wired writeout.bytesWritten
        split
        · have still : (peer.written writeout.bytesWritten).freed = false := alive
          exact readLoop_wired still left true writeout.rounds
        · exact left
    · simp at taken

/-- A callback that stays leaves the peer as it left it. -/
theorem returned_true (id : Nat) (peer : Peer) : returned id (true, peer) = peer := rfl

/-- The read watch goes with the callback, which matters until the end of file. -/
theorem returned_read_iff {peer : Peer} (writing : peer.freed = false → peer.Writing) {id : Nat}
    (source : peer.watches.kindOf id = some .read)
    (reads : peer.eof = false → peer.watched .read = 1) :
    (returned id (false, peer)).Attended ↔ peer.eof = true := by
  -- Removing the source takes one read watch and no write watch.
  have fewer := Watches.count_remove source .read
  have same := Watches.count_remove source .write
  -- The callback is gone, which is right exactly if there is nothing left to read.
  constructor
  · intro attended
    cases eof : peer.eof with
    | true => rfl
    | false =>
      have one := reads eof
      have still : (peer.watches.remove id).count .read = 1 := attended.reading eof
      simp only [watched] at one
      simp only [if_pos] at fewer
      omega
  · intro eof
    refine ⟨?_, ?_⟩
    · intro alive busy
      have busy := writing alive busy
      simp only [watched] at busy
      simp only [reduceCtorEq, if_false, Nat.add_zero] at same
      rw [same] at busy
      exact busy
    · intro goes
      rw [returned, eof] at goes
      simp at goes

/-- A read callback leaves the peer attended exactly when it is sound. -/
theorem read_attended_iff {peer : Peer} (wired : peer.Wired) (attended : peer.Attended) {id : Nat}
    (source : peer.watches.kindOf id = some .read) (rounds : List ReadRound) :
    (returned id (peer.paxosPeerRead rounds)).Attended ↔ (Event.read id rounds).Sound peer := by
  -- The rounds send, reach the end of file, or fail in a handler.
  have alive := wired.alive source
  obtain ⟨mid, sends, looped⟩ := readLoop_spec true peer rounds
  have writing : mid.Writing := sends.writing (attended.writing alive)
  have here : mid.watches.kindOf id = some .read :=
    (sends.kinds id (Watches.lt_of_kindOf source)).trans source
  have reads : mid.eof = false → mid.watched .read = 1 := by
    rw [sends.eof, sends.reads]
    exact attended.reading
  rw [paxosPeerRead, looped, Event.Sound]
  cases ends : ending rounds with
  | some attached =>
    -- At the end of file the callback goes, with the peer or without it.
    refine iff_of_true ?_ (Or.inr (Or.inl rfl))
    cases attached with
    | true =>
      exact ⟨by simp [returned, dropConnection, paxosPeerDestroy],
        by simp [returned, dropConnection, paxosPeerDestroy]⟩
    | false =>
      have dropped := @returned_read_iff (mid.dropConnection false) (fun _ => writing) id here
      exact (dropped (by simp [dropConnection])).mpr rfl
  | none =>
    cases failed : fails rounds with
    | false =>
      refine iff_of_true ?_ (Or.inr (Or.inr rfl))
      exact ⟨fun _ => writing, reads⟩
    | true =>
      have settled := returned_read_iff (fun _ => writing) here reads
      rw [sends.eof] at settled
      simpa using settled

/-- Without its only write watch a peer that has something to write is not attended. -/
theorem returned_write_not {peer : Peer} (alive : peer.freed = false)
    (busy : peer.writeBuffer ≠ []) (writes : peer.watched .write ≤ 1) {id : Nat}
    (source : peer.watches.kindOf id = some .write) :
    ¬ (returned id (false, peer)).Attended := by
  -- The removal takes the watch that a peer with something to write needs.
  intro attended
  have fewer := Watches.count_remove source .write
  have still : 0 < (peer.watches.remove id).count .write := attended.writing alive busy
  simp only [watched] at writes
  simp only [if_pos] at fewer
  omega

/-- A source that is registered no more cannot be removed again. -/
theorem returned_absent {peer : Peer} (attended : peer.Attended) {id : Nat}
    (absent : peer.watches.kindOf id = none) : (returned id (false, peer)).Attended := by
  -- The removal of a source that is absent changes no watch.
  refine ⟨?_, ?_⟩
  · intro alive busy
    have writing := attended.writing alive busy
    simpa [watched, returned, Watches.settle, Watches.count_remove_absent absent] using writing
  · intro goes
    have reading := attended.reading goes
    simpa [watched, returned, Watches.settle, Watches.count_remove_absent absent] using reading

/-- A write callback leaves the peer attended exactly when it is sound. -/
theorem write_attended_iff {peer : Peer} (wired : peer.Wired) (attended : peer.Attended) {id : Nat}
    (source : peer.watches.kindOf id = some .write) (writeout : Writeout) :
    (returned id (peer.paxosPeerWrite writeout)).Attended ↔
      (Event.write id writeout).Sound peer := by
  -- The source that runs is the write watch.
  have alive := wired.alive source
  -- There is a write watch, so there is something to write.
  have busy : peer.writeBuffer ≠ [] := by
    intro empty
    have none := wired.idle empty
    have fewer := Watches.count_remove source .write
    simp only [watched] at none
    simp only [if_pos] at fewer
    omega
  have left := written_attended attended alive writeout.bytesWritten
  rw [paxosPeerWrite_eq busy, Event.Sound]
  by_cases ends : writeout.status = .eof
  · rw [if_pos ends, paxosPeerRead]
    obtain ⟨mid, sends, looped⟩ :=
      readLoop_spec true (peer.written writeout.bytesWritten) writeout.rounds
    have midAlive : mid.freed = false := sends.freed.trans alive
    rw [looped]
    by_cases drained : peer.writeBuffer.length ≤ writeout.bytesWritten
    · -- The source went with the others, and a later one has another identifier.
      refine iff_of_true ?_ fun _ => Or.inl drained
      have given : id < (peer.written writeout.bytesWritten).watches.next := by
        have := Watches.lt_of_kindOf source
        simp only [written, if_pos drained, Watches.add, Watches.clear]
        omega
      have absent : mid.watches.kindOf id = none := by
        rw [sends.kinds id given]
        simp only [written, if_pos drained]
        have old := Watches.lt_of_kindOf source
        have fresh : id < peer.watches.clear.next := old
        rw [Watches.kindOf_add fresh]
        rfl
      have writing : mid.Writing := sends.writing (left.writing alive)
      cases ending writeout.rounds with
      | none =>
        refine returned_absent ⟨fun _ => writing, ?_⟩ absent
        rw [sends.eof, sends.reads]
        exact left.reading
      | some attached =>
        refine returned_absent (dropConnection_attended writing attached) ?_
        cases attached
        · exact absent
        · rfl
    · -- Something is left to write, and the only write watch goes.
      have filled : (peer.written writeout.bytesWritten).writeBuffer ≠ [] := by
        simpa [written] using drained
      have same : (peer.written writeout.bytesWritten).watches = peer.watches := by
        simp only [written, if_neg drained]
      obtain ⟨still, writes⟩ := sends.busy filled
      have here : mid.watches.kindOf id = some .write := by
        rw [sends.kinds id (by rw [same]; exact Watches.lt_of_kindOf source), same]
        exact source
      have single : mid.watched .write ≤ 1 := by
        rw [writes, watched, same]
        exact wired.writes
      cases result : ending writeout.rounds with
      | none =>
        refine iff_of_false (returned_write_not midAlive still single here) ?_
        simpa [ends] using drained
      | some attached =>
        cases attached with
        | false =>
          have lost := @returned_write_not (mid.dropConnection false) midAlive still single id here
          refine iff_of_false lost ?_
          simpa [ends] using drained
        | true =>
          refine iff_of_true ?_ fun _ => Or.inr rfl
          exact returned_absent (dropConnection_attended (sends.writing (left.writing alive)) true)
            rfl
  · rw [if_neg ends]
    exact iff_of_true left fun eof => absurd eof ends

/-- An event leaves an attended peer attended exactly when it is sound. -/
theorem step_attended_iff {peer next : Peer} {event : Event} (wired : peer.Wired)
    (attended : peer.Attended) (taken : peer.step event = some next) :
    next.Attended ↔ event.Sound peer := by
  -- A send is always sound, and the two callbacks are as sound as their events.
  cases event with
  | send buffer =>
    simp only [step] at taken
    split at taken
    · simp at taken
    · obtain rfl := Option.some.inj taken
      have sends := peer.paxosPeerSend_extends buffer
      refine iff_of_true ⟨?_, ?_⟩ trivial
      · rw [sends.freed]
        exact fun alive => sends.writing (attended.writing alive)
      · rw [sends.eof, sends.reads]
        exact attended.reading
  | read id rounds =>
    simp only [step] at taken
    split at taken
    · obtain rfl := Option.some.inj taken
      rename_i enabled
      exact read_attended_iff wired attended enabled.1 rounds
    · simp at taken
  | write id writeout =>
    simp only [step] at taken
    split at taken
    · obtain rfl := Option.some.inj taken
      rename_i source
      exact write_attended_iff wired attended source writeout
    · simp at taken

/-- A run goes on from where its front has led. -/
theorem exec_append (peer : Peer) (front rest : List Event) :
    peer.exec (front ++ rest) = (peer.exec front).bind fun mid => mid.exec rest := by
  simp [exec, List.foldlM_append]

/-- A run that goes through takes each of its events in turn. -/
theorem exec_split {peer last : Peer} {front rest : List Event} {event : Event}
    (ran : peer.exec (front ++ event :: rest) = some last) : ∃ mid next,
      peer.exec front = some mid ∧ mid.step event = some next ∧
      peer.exec (front ++ [event]) = some next := by
  -- The run is cut in front of the event, which is then the first of the rest.
  rw [exec_append] at ran
  obtain ⟨mid, before, after⟩ := Option.bind_eq_some_iff.mp ran
  simp only [exec, List.foldlM_cons] at after
  obtain ⟨next, taken, _⟩ := Option.bind_eq_some_iff.mp after
  refine ⟨mid, next, before, taken, ?_⟩
  rw [exec_append, before]
  simp [exec, taken]

/-- Every run keeps the wiring. -/
theorem exec_wired {peer last : Peer} (wired : peer.Wired) {events : List Event}
    (ran : peer.exec events = some last) : last.Wired := by
  -- By induction on the events, each of which keeps the wiring.
  induction events generalizing peer with
  | nil =>
    obtain rfl : peer = last := by simpa [exec] using ran
    exact wired
  | cons event events ih =>
    simp only [exec, List.foldlM_cons] at ran
    obtain ⟨mid, taken, rest⟩ := Option.bind_eq_some_iff.mp ran
    exact ih (step_wired wired taken) rest

/-- A peer that was just set up has nothing to write and is watched for reading. -/
theorem init_wired : paxosPeerInit.Wired := by
  constructor <;> simp [paxosPeerInit, watched]

/-- A peer that was just set up is attended. -/
theorem init_attended : paxosPeerInit.Attended := by
  constructor <;> simp [paxosPeerInit, Writing, watched]

/-- Nothing that was sent is lost or changes its order: the channel has accepted a prefix of it. -/
theorem accepted_prefix {peer : Peer} {events : List Event}
    (ran : paxosPeerInit.exec events = some peer) : peer.accepted <+: peer.sent :=
  ⟨peer.writeBuffer, (exec_wired init_wired ran).lossless⟩

/-- The stream is as it should be in every state of a run exactly when every event is sound. -/
theorem streams_attended_iff {events : List Event} {last : Peer}
    (ran : paxosPeerInit.exec events = some last) :
    (∀ front rest peer, events = front ++ rest → paxosPeerInit.exec front = some peer →
      peer.accepted ++ peer.writeBuffer = peer.sent ∧ peer.Attended) ↔
    ∀ front event rest peer, events = front ++ event :: rest →
      paxosPeerInit.exec front = some peer → event.Sound peer := by
  -- One way the states tell of the event, and the other way the induction is on the run.
  constructor
  · intro always front event rest peer split reached
    rw [split] at ran
    obtain ⟨mid, next, before, taken, after⟩ := exec_split ran
    obtain rfl : mid = peer := Option.some.inj (before.symm.trans reached)
    have attended := (always front (event :: rest) mid split before).2
    have still := (always (front ++ [event]) rest next (by simp [split]) after).2
    exact (step_attended_iff (exec_wired init_wired before) attended taken).mp still
  · intro sound front
    induction front using List.reverseRecOn with
    | nil =>
      intro rest peer _ reached
      obtain rfl : paxosPeerInit = peer := by simpa [exec] using reached
      exact ⟨init_wired.lossless, init_attended⟩
    | append_singleton front event ih =>
      intro rest peer split reached
      obtain ⟨mid, next, before, taken, after⟩ := exec_split reached
      obtain rfl : next = peer := Option.some.inj (after.symm.trans reached)
      have split : events = front ++ event :: rest := by simpa using split
      have attended := (ih (event :: rest) mid split before).2
      have fine := sound front event rest mid split before
      have wired := exec_wired init_wired before
      exact ⟨(step_wired wired taken).lossless,
        (step_attended_iff wired attended taken).mpr fine⟩

/-- A message is answered, in two writes, and then the other side closes the connection. -/
def answer : List Event :=
  [.read 0 [{ status := .again, attached := true
              replies := [{ sends := [[1], [2, 3]], result := 0, selfId := 1 }] }],
    .write 1 { status := .again, bytesWritten := 2, rounds := [] },
    .write 1 { status := .normal, bytesWritten := 1, rounds := [] },
    .read 2 [{ status := .eof, attached := true, replies := [] }]]

/-- The answer reaches the channel, and the read watch that was made anew sees the end of file. -/
theorem streams_attended_answer :
    (paxosPeerInit.exec answer).map accepted = some [1, 2, 3] ∧
    ∀ front rest peer, answer = front ++ rest → paxosPeerInit.exec front = some peer →
      peer.accepted ++ peer.writeBuffer = peer.sent ∧ peer.Attended := by
  refine ⟨rfl, (streams_attended_iff rfl).mpr ?_⟩
  -- There are four events in the answer, of which each is checked.
  intro front event rest peer split _
  have member : event ∈ answer := by simp [split]
  simp only [answer, List.mem_cons, List.not_mem_nil, or_false] at member
  rcases member with rfl | rfl | rfl | rfl
  · exact Or.inr (Or.inr rfl)
  · simp [Event.Sound]
  · simp [Event.Sound]
  · exact Or.inr (Or.inl rfl)

/-- The handler of one message fails, and nobody reads what the peer sends after it. -/
theorem stream_unread : ¬ ∀ events peer, paxosPeerInit.exec events = some peer →
    peer.accepted ++ peer.writeBuffer = peer.sent ∧ peer.Attended := by
  intro always
  have kept := always [.read 0 [{ status := .again, attached := true
                                  replies := [{ sends := [], result := 1, selfId := 1 }] }]] _ rfl
  have reading := kept.2.reading rfl
  exact absurd reading (by decide)

end Peer

end Motmot
