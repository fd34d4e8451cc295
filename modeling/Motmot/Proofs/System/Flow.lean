import Motmot.Proofs.System.Turns

/-! What becomes of connections, and of the messages on them, in one step of the system. -/

namespace Motmot

/-- A connection holds, and neither of its ends was closed. -/
def Channel.Open (chan : Channel) : Prop :=
  chan.up = true ∧ ∀ second, (chan.atEnd second).closed = false

namespace System

variable {sys mid next : System}

/-- The connection of a channel holds. -/
def Holds (sys : System) (channel : Nat) : Prop :=
  ∃ chan, sys.channels[channel]? = some chan ∧ chan.Open

/-- What an acting process does to channels: what it sends arrives, unless the connection goes. -/
structure Flows (sys next : System) (told : List Effect) : Prop where
  size : next.channels.length = sys.channels.length
  holds : ∀ {channel}, next.Holds channel → sys.Holds channel
  stays : ∀ {channel second msg}, sys.Waits channel second msg → next.Holds channel →
    next.Waits channel second msg
  sent : ∀ {channel second msg}, .send (peerOf channel second) msg ∈ told → next.Holds channel →
    next.Waits channel (!second) msg
  shut : ∀ {channel second}, .close (peerOf channel second) ∈ told → ¬ next.Holds channel

/-- Channels that nobody touches. -/
theorem Flows.same {told : List Effect} (channels : next.channels = sys.channels)
    (sends : ∀ peer msg, .send peer msg ∉ told) (closes : ∀ peer, .close peer ∉ told) :
    Flows sys next told where
  size := congrArg List.length channels
  holds := by
    -- The channels are the same, and whatever is asked of them.
    rintro channel ⟨chan, held, whole⟩
    exact ⟨chan, channels ▸ held, whole⟩
  stays := by
    rintro channel second msg ⟨chan, held, mem⟩ -
    exact ⟨chan, by rw [channels]; exact held, mem⟩
  sent := fun mem => absurd mem (sends _ _)
  shut := fun mem => absurd mem (closes _)

/-- What a process turns into is nothing that channels show. -/
theorem Flows.setProcess {told : List Effect} {id : NodeId} {process : Process}
    (flows : Flows (sys.setProcess id process) next told) : Flows sys next told :=
  ⟨flows.size, flows.holds, flows.stays, flows.sent, flows.shut⟩

/-- What is done in two turns is done. -/
theorem Flows.trans {early late : List Effect} (first : Flows sys mid early)
    (later : Flows mid next late) : Flows sys next (early ++ late) where
  -- What the first turn sends stays through the second.
  size := later.size.trans first.size
  holds := fun whole => first.holds (later.holds whole)
  stays := fun waits whole => later.stays (first.stays waits (later.holds whole)) whole
  sent := by
    intro channel second msg mem whole
    rcases List.mem_append.mp mem with mem | mem
    · exact later.stays (first.sent mem (later.holds whole)) whole
    · exact later.sent mem whole
  shut := by
    intro channel second mem whole
    rcases List.mem_append.mp mem with mem | mem
    · exact first.shut mem (later.holds whole)
    · exact later.shut mem whole

/-- A channel after a rewrite of one of them. -/
theorem getElem?_mapChannel {peer : PeerId} {f : Channel → Bool → Channel} {channel : Nat}
    {chan : Channel} (held : (sys.mapChannel peer f).channels[channel]? = some chan) :
    ∃ old, sys.channels[channel]? = some old ∧
      chan = if peer / 2 = channel then f old (peer % 2 = 1) else old := by
  -- The channel is the one that is rewritten, or another one.
  by_cases here : peer / 2 = channel
  · obtain ⟨old, at_, rfl⟩ : ∃ old, sys.channels[channel]? = some old ∧
        f old (peer % 2 = 1) = chan := by
      simpa [System.mapChannel, List.getElem?_modify, here] using held
    exact ⟨old, at_, by rw [if_pos here]⟩
  · refine ⟨chan, ?_, by rw [if_neg here]⟩
    simpa [System.mapChannel, List.getElem?_modify, here] using held

/-- The channel at a place after a rewrite of one of them. -/
theorem mapChannel_getElem? {peer : PeerId} {f : Channel → Bool → Channel} {channel : Nat}
    {old : Channel} (held : sys.channels[channel]? = some old) :
    (sys.mapChannel peer f).channels[channel]? =
      some (if peer / 2 = channel then f old (peer % 2 = 1) else old) := by
  by_cases here : peer / 2 = channel
  · simp [System.mapChannel, here, held]
  · simp [System.mapChannel, here, held]

/-- A rewrite of one channel that opens nothing and loses no message of an open connection. -/
theorem Flows.mapChannel {peer : PeerId} {f : Channel → Bool → Channel} {told : List Effect}
    (opens : ∀ chan second, (f chan second).Open → chan.Open)
    (keeps : ∀ chan second, (f chan second).Open → ∀ side, ∀ msg ∈ (chan.atEnd side).inbox,
      msg ∈ ((f chan second).atEnd side).inbox)
    (sends : ∀ target msg, .send target msg ∈ told → target = peer ∧ ∀ chan second,
      (f chan second).Open → msg ∈ ((f chan second).atEnd (!second)).inbox)
    (closes : ∀ target, .close target ∈ told → target = peer ∧ ∀ chan second,
      ¬ (f chan second).Open) : Flows sys (sys.mapChannel peer f) told where
  -- Each part is read off the channel that was rewritten.
  size := List.length_modify _ _ _
  holds := by
    rintro channel ⟨chan, held, whole⟩
    obtain ⟨old, at_, rfl⟩ := getElem?_mapChannel held
    refine ⟨old, at_, ?_⟩
    split at whole
    · exact opens _ _ whole
    · exact whole
  stays := by
    rintro channel second msg ⟨old, at_, mem⟩ ⟨chan, held, whole⟩
    refine ⟨_, mapChannel_getElem? at_, ?_⟩
    obtain rfl := Option.some.inj (held.symm.trans (mapChannel_getElem? at_))
    split at whole
    · -- The channel is the one that is rewritten, or another.
      rename_i here
      rw [if_pos here]
      exact keeps _ _ whole second msg mem
    · rename_i other
      rw [if_neg other]
      exact mem
  sent := by
    rintro channel second msg mem ⟨chan, held, whole⟩
    obtain ⟨rfl, arrives⟩ := sends _ _ mem
    obtain ⟨old, at_, rfl⟩ := getElem?_mapChannel held
    refine ⟨_, held, ?_⟩
    rw [peerOf_channel, if_pos rfl, peerOf_second] at whole ⊢
    exact arrives old second whole
  shut := by
    rintro channel second mem ⟨chan, held, whole⟩
    obtain ⟨rfl, closed⟩ := closes _ mem
    obtain ⟨old, at_, rfl⟩ := getElem?_mapChannel held
    rw [peerOf_channel, if_pos rfl] at whole
    exact closed _ _ whole

end System

/-- A push goes through on an open connection, and changes nothing else. -/
theorem Channel.push_open {chan : Channel} {second : Bool} {msg : Msg} (whole : chan.Open) :
    chan.push second msg =
      chan.mapEnd (!second) fun far => { far with inbox := far.inbox ++ [msg] } := by
  obtain ⟨up, ends⟩ := whole
  have first : chan.fst.closed = false := ends false
  have last : chan.snd.closed = false := ends true
  simp [Channel.push, up, first, last]

/-- Rewriting an end without closing it. -/
theorem Channel.open_mapEnd {chan : Channel} {second : Bool} {f : End → End}
    (closed : ∀ near, (f near).closed = near.closed) :
    (chan.mapEnd second f).Open ↔ chan.Open := by
  unfold Channel.Open
  have up : (chan.mapEnd second f).up = chan.up := by cases second <;> rfl
  -- An end stays open or closed, on both sides.
  have ends : ∀ side, ((chan.mapEnd second f).atEnd side).closed = (chan.atEnd side).closed := by
    intro side
    rw [Channel.atEnd_mapEnd]
    split
    · exact closed _
    · rfl
  simp only [up, ends]

/-- A channel is open after a push if it was before. -/
theorem Channel.open_push {chan : Channel} {second : Bool} {msg : Msg} :
    (chan.push second msg).Open ↔ chan.Open := by
  unfold Channel.push
  split
  · exact Channel.open_mapEnd fun _ => rfl
  · exact Iff.rfl

namespace System

variable {sys mid next : System}

/-- Carrying out an effect does what the effect says. -/
theorem carry_flows (id : NodeId) (sys : System) (effect : Effect) :
    Flows sys (carry id sys effect) [effect] := by
  -- Sending, watching and closing rewrite one channel, and no other effect touches any.
  cases effect with
  | send peer msg =>
    refine @Flows.mapChannel sys peer (fun chan second => chan.push second msg) _ ?_ ?_ ?_ ?_
    · exact fun _ _ => Channel.open_push.mp
    · -- A message that is pushed comes last in its inbox.
      intro chan second whole side other mem
      rw [Channel.push_open (Channel.open_push.mp whole), Channel.atEnd_mapEnd]
      split
      · exact List.mem_append_left _ mem
      · exact mem
    · intro target other mem
      obtain ⟨rfl, rfl⟩ := Effect.send.inj (List.mem_singleton.mp mem)
      refine ⟨rfl, fun chan second whole => ?_⟩
      rw [Channel.push_open (Channel.open_push.mp whole), Channel.atEnd_mapEnd_self]
      exact List.mem_append_right _ (List.mem_singleton_self _)
    · intro target mem
      cases List.mem_singleton.mp mem
  | watch peer =>
    have same : ∀ (chan : Channel) second, (chan.mapEnd second fun near =>
        { near with watched := true }).Open ↔ chan.Open :=
      fun _ _ => Channel.open_mapEnd fun _ => rfl
    refine @Flows.mapChannel sys peer (fun chan second =>
      chan.mapEnd second fun near => { near with watched := true }) _ ?_ ?_ ?_ ?_
    · exact fun chan second => (same chan second).mp
    · intro chan second _ side msg mem
      rw [Channel.atEnd_mapEnd]
      split <;> exact mem
    · intro target msg mem
      cases List.mem_singleton.mp mem
    · intro target mem
      cases List.mem_singleton.mp mem
  -- A channel that is closed is not open.
  | close peer =>
    have shuts : ∀ (chan : Channel) second, ¬ (chan.mapEnd second fun near =>
        { near with closed := true }).Open := by
      rintro chan second ⟨-, ends⟩
      simpa using ends second
    refine @Flows.mapChannel sys peer (fun chan second =>
      chan.mapEnd second fun near => { near with closed := true }) _ ?_ ?_ ?_ ?_
    · exact fun chan second whole => absurd whole (shuts chan second)
    · exact fun chan second whole => absurd whole (shuts chan second)
    · intro target msg mem
      cases List.mem_singleton.mp mem
    · intro target mem
      obtain rfl := Effect.close.inj (List.mem_singleton.mp mem)
      exact ⟨rfl, shuts⟩
  | _ => exact .same rfl (by simp) (by simp)

/-- Carrying out effects does what they say. -/
theorem carries_flows (id : NodeId) (effects : List Effect) (sys : System) :
    Flows sys (effects.foldl (carry id) sys) effects := by
  induction effects generalizing sys with
  | nil => exact .same rfl (by simp) (by simp)
  | cons effect rest ih => exact (carry_flows id sys effect).trans (ih _)

/-- An end has one owner. -/
theorem Owns.unique {id other : NodeId} {channel : Nat} {second : Bool}
    (owns : sys.Owns id channel second) (owned : sys.Owns other channel second) : id = other := by
  obtain ⟨chan, held, rfl⟩ := owns
  obtain ⟨_, held', rfl⟩ := owned
  obtain rfl := Option.some.inj (held.symm.trans held')
  rfl

/-- A channel that somebody owns an end of is there. -/
theorem Owns.inside {id : NodeId} {channel : Nat} {second : Bool}
    (owns : sys.Owns id channel second) : channel < sys.channels.length := by
  obtain ⟨chan, held, -⟩ := owns
  exact (List.getElem?_eq_some_iff.mp held).1

/-- A connection that holds is there. -/
theorem Holds.inside {channel : Nat} (holds : sys.Holds channel) :
    channel < sys.channels.length := by
  obtain ⟨chan, held, -⟩ := holds
  exact (List.getElem?_eq_some_iff.mp held).1

/-- The ends of a channel that was there had their owners before. -/
theorem Grows.owned {sent : List Effect} {id : NodeId} {channel : Nat} {second : Bool}
    (grows : Grows sys next sent) (inside : channel < sys.channels.length)
    (owns : next.Owns id channel second) : sys.Owns id channel second := by
  have before : sys.Owns (sys.channels[channel].atEnd second).owner channel second :=
    ⟨_, List.getElem?_eq_getElem inside, rfl⟩
  rw [owns.unique (grows.owns before)]
  exact before

/-- What one step does to connections and to what is on them. -/
structure Passes (sys next : System) (what : Option (NodeId × Event)) : Prop where
  size : sys.channels.length ≤ next.channels.length
  holds : ∀ {channel}, channel < sys.channels.length → next.Holds channel → sys.Holds channel
  /-- A message stays on its connection until its receiver is handed it. -/
  stays : ∀ {channel second msg}, sys.Waits channel second msg → next.Holds channel →
    next.Waits channel second msg ∨ ∃ id, sys.Owns id channel second ∧
      what = some (id, .message (peerOf channel second) msg)
  made : ∀ {channel}, sys.channels.length ≤ channel → next.Holds channel →
    ∃ id handle, what = some (id, .connected handle (some (peerOf channel false)))
  lost : ∀ {id channel second}, what = some (id, .drop (peerOf channel second)) →
    ¬ next.Holds channel

/-- What happens to the channels that are there makes no channel. -/
theorem Flows.passes {told : List Effect} {what : Option (NodeId × Event)}
    (flows : Flows sys next told)
    (drops : ∀ id peer, what = some (id, .drop peer) → .close peer ∈ told) :
    Passes sys next what where
  size := Nat.le_of_eq flows.size.symm
  holds := fun _ => flows.holds
  stays := fun waits whole => Or.inl (flows.stays waits whole)
  made := fun outside whole => absurd (flows.holds whole).inside (Nat.not_lt_of_le outside)
  lost := fun dropped => flows.shut (drops _ _ dropped)

/-- What a process does then makes no channel. -/
theorem Passes.flow {told : List Effect} {what : Option (NodeId × Event)}
    (passes : Passes sys mid what) (flows : Flows mid next told) : Passes sys next what where
  size := Nat.le_trans passes.size (Nat.le_of_eq flows.size.symm)
  holds := fun inside whole => passes.holds inside (flows.holds whole)
  stays := by
    intro channel second msg waits whole
    -- What was there is still there, or was handed over, whatever the process does behind that.
    rcases passes.stays waits (flows.holds whole) with waits | handed
    · exact Or.inl (flows.stays waits whole)
    · exact Or.inr handed
  made := fun outside whole => passes.made outside (flows.holds whole)
  lost := fun dropped whole => passes.lost dropped (flows.holds whole)

/-- A message that is handed over is the only one that is missed. -/
theorem pop_passes {channel : Nat} {second : Bool} {chan : Channel} {msg : Msg} {rest : List Msg}
    (held : sys.channels[channel]? = some chan) (first : (chan.atEnd second).inbox = msg :: rest) :
    Passes sys (sys.mapChannel (peerOf channel second) fun chan second =>
      chan.mapEnd second fun near => { near with inbox := rest })
      (some ((chan.atEnd second).owner, .message (peerOf channel second) msg)) where
  -- The head of the inbox goes, and everything else stays.
  size := Nat.le_of_eq (List.length_modify _ _ _).symm
  holds := by
    rintro place - ⟨now, at_, whole⟩
    obtain ⟨old, before, rfl⟩ := getElem?_mapChannel at_
    refine ⟨old, before, ?_⟩
    split at whole
    · refine (Channel.open_mapEnd ?_).mp whole
      exact fun _ => rfl
    · exact whole
  stays := by
    rintro place side late ⟨old, before, mem⟩ -
    by_cases here : place = channel ∧ side = second ∧ late = msg
    · -- This is the message that is handed over.
      obtain ⟨rfl, rfl, rfl⟩ := here
      obtain rfl := Option.some.inj (held.symm.trans before)
      exact Or.inr ⟨_, ⟨chan, held, rfl⟩, rfl⟩
    · left
      refine ⟨_, mapChannel_getElem? before, ?_⟩
      split
      · rename_i same
        rw [peerOf_channel] at same
        subst same
        obtain rfl := Option.some.inj (held.symm.trans before)
        rw [Channel.atEnd_mapEnd, peerOf_second]
        split
        · rename_i same
          subst same
          rw [first] at mem
          exact (List.mem_cons.mp mem).resolve_left fun same => here ⟨rfl, rfl, same⟩
        · exact mem
      · exact mem
  made := by
    intro place outside ⟨now, at_, _⟩
    obtain ⟨old, before, -⟩ := getElem?_mapChannel at_
    exact absurd (List.getElem?_eq_some_iff.mp before).1 (Nat.not_lt_of_le outside)
  lost := by
    intro id place side dropped
    obtain ⟨-, same⟩ := Prod.mk.inj (Option.some.inj dropped)
    contradiction

/-- A channel that is made is the only one that is new. -/
theorem link_passes {near far : NodeId} {handle : Nat} (linked : next.channels = sys.channels ++ [
    { fst := { owner := near, inbox := [], watched := false, closed := false }
      snd := { owner := far, inbox := [], watched := true, closed := false }
      up := true }]) : Passes sys next
      (some (near, .connected handle (some (peerOf sys.channels.length false)))) where
  -- The channels that there were keep their places.
  size := by
    rw [linked, List.length_append]
    exact Nat.le_add_right _ _
  holds := by
    rintro channel inside ⟨chan, held, whole⟩
    rw [linked, List.getElem?_append_left inside] at held
    exact ⟨chan, held, whole⟩
  stays := by
    rintro channel second msg ⟨chan, held, mem⟩ -
    have inside : channel < sys.channels.length := (List.getElem?_eq_some_iff.mp held).1
    exact Or.inl ⟨chan, by rw [linked, List.getElem?_append_left inside]; exact held, mem⟩
  made := by
    intro channel outside whole
    have inside := whole.inside
    rw [linked, List.length_append, List.length_singleton] at inside
    obtain rfl : channel = sys.channels.length := by omega
    exact ⟨near, handle, rfl⟩
  lost := by
    intro id channel second dropped
    obtain ⟨-, same⟩ := Prod.mk.inj (Option.some.inj dropped)
    contradiction

/-- A connection that drops takes along what was on its way. -/
theorem cut_passes {channel : Nat} {chan : Channel} (held : sys.channels[channel]? = some chan) :
    Passes sys { sys with channels := sys.channels.set channel chan.cut } none := by
  -- Cutting is a rewrite of one channel.
  have cuts : { sys with channels := sys.channels.set channel chan.cut } =
      sys.mapChannel (peerOf channel false) fun chan _ => chan.cut := by
    simp [System.mapChannel, List.modify_eq_set_getElem?, held]
  have down : ∀ chan : Channel, ¬ chan.cut.Open := by
    rintro chan ⟨up, -⟩
    contradiction
  rw [cuts]
  refine @Flows.passes sys _ [] _ (.mapChannel ?_ ?_ ?_ ?_) ?_
  · exact fun chan _ whole => absurd whole (down chan)
  · exact fun chan _ whole => absurd whole (down chan)
  · exact fun _ _ sent => absurd sent List.not_mem_nil
  · exact fun _ shut => absurd shut List.not_mem_nil
  · intro id peer dropped
    contradiction

/-- Before a session handles its event, connections are as they were, or as the event says. -/
theorem Handover.passes {step : Step} {id : NodeId} {event : Event}
    (handover : Handover sys step id event mid) : Passes sys mid (some (id, event)) := by
  -- Only a drop loses a channel.
  have still : ∀ later : System, later.channels = sys.channels →
      (∀ peer, event ≠ .drop peer) → Passes sys later (some (id, event)) := by
    intro later same other
    refine (@Flows.same sys later [] same (by simp) (by simp)).passes fun _ peer dropped => ?_
    exact absurd (Prod.mk.inj (Option.some.inj dropped)).2 (other peer)
  -- What comes before the event takes a message, makes a channel, closes one, or nothing.
  cases handover with
  | client | disconnect | tick | fail => exact still _ rfl (by simp)
  | pop held first => exact pop_passes held first
  | link => exact link_passes rfl
  | @close channel second chan =>
    refine (carry_flows (chan.atEnd second).owner sys (.close _)).passes fun _ peer dropped => ?_
    obtain ⟨-, same⟩ := Prod.mk.inj (Option.some.inj dropped)
    rw [Event.drop.inj same]
    exact List.mem_singleton_self _

/-- What a session that reacts sends and closes. -/
theorem react_flows {choice : Choice} {id : NodeId} {event : Event} {node : Node}
    (reacted : sys.react choice id event = some next) (live : (sys.process id).node = some node) :
    Flows sys next (fresh node
      (handle choice.fuel { node with script := choice.script } event)) := by
  -- The effects are carried out one after the other.
  unfold react run at reacted
  simp only [live] at reacted
  split at reacted
  · rename_i held up same
    obtain rfl := Option.some.inj same
    have made := Option.some.inj reacted
    generalize handle choice.fuel { node with script := choice.script } event = result at made ⊢
    rw [← made]
    exact (carries_flows id (fresh node result) _).setProcess
  · contradiction

/-- Who reacts is up and in the session. -/
theorem react_live {choice : Choice} {id : NodeId} {event : Event}
    (reacted : sys.react choice id event = some next) :
    (sys.process id).crashed = false ∧ ∃ node, (sys.process id).node = some node := by
  cases live : (sys.process id).node with
  | none => simp [react, run, live] at reacted
  | some node => exact ⟨(react_made reacted live).1, node, rfl⟩

/-- A step that no session reacts to. -/
theorem step_quiet {choice : Choice} {step : Step} (stepped : sys.step choice step = some next)
    (quiet : ∀ id event, sys.occasion step = some (id, event) →
      (sys.process id).crashed = false → (sys.process id).node = none) :
    Passes sys next (sys.occasion step) := by
  -- Whoever reacts is live, which is excluded.
  have silent : ∀ {id event} (mid : System), mid.process = sys.process →
      sys.occasion step = some (id, event) → mid.react choice id event = some next →
        Passes sys next (sys.occasion step) := by
    intro id event mid same what reacted
    obtain ⟨up, node, live⟩ := react_live reacted
    rw [same] at up live
    rw [quiet id event what up] at live
    contradiction
  have still : sys.occasion step = none → next.channels = sys.channels →
      Passes sys next (sys.occasion step) := by
    intro nothing same
    rw [nothing]
    refine (@Flows.same sys next [] same (by simp) (by simp)).passes fun _ _ dropped => ?_
    contradiction
  -- Only some steps move messages or channels.
  cases step with
  | client id call =>
    simp only [System.step] at stepped
    split at stepped
    · exact silent sys rfl rfl stepped
    · contradiction
  | disconnect id => exact silent sys rfl rfl stepped
  | tick id => exact silent sys rfl rfl stepped
  | start id session =>
    simp only [System.step] at stepped
    split at stepped
    · contradiction
    · obtain rfl := Option.some.inj stepped
      exact still rfl rfl
  | crash id =>
    simp only [System.step] at stepped
    split at stepped
    · contradiction
    · obtain rfl := Option.some.inj stepped
      exact still rfl rfl
  | cut channel =>
    simp only [System.step] at stepped
    split at stepped
    · rename_i chan held
      split at stepped
      · obtain rfl := Option.some.inj stepped
        exact cut_passes held
      · contradiction
    · contradiction
  -- A message is taken from its inbox, and dropped if nobody takes it.
  | deliver channel second =>
    obtain ⟨chan, held, stepped⟩ := Option.bind_eq_some_iff.mp stepped
    simp only at stepped
    split at stepped
    · contradiction
    · split at stepped
      · contradiction
      · rename_i msg rest first
        have what : sys.occasion (.deliver channel second) =
            some ((chan.atEnd second).owner, .message (peerOf channel second) msg) := by
          simp [occasion, held, first]
        have popped := pop_passes held first
        unfold receive at stepped
        simp only at stepped
        split at stepped
        · contradiction
        · split at stepped
          · exact silent _ (by rfl) what stepped
          · rw [what]
            split at stepped
            · obtain rfl := Option.some.inj stepped
              exact popped.flow (carries_flows _ _ _).setProcess
            · obtain rfl := Option.some.inj stepped
              exact popped
  -- A connection that is made for nobody is not made.
  | complete attempt made =>
    obtain ⟨pending, held, stepped⟩ := Option.bind_eq_some_iff.mp stepped
    have what : sys.occasion (.complete attempt made) = some (pending.owner, .connected
        pending.handle (if made then some (peerOf sys.channels.length false) else none)) := by
      simp [occasion, held]
    cases made with
    | false => exact silent _ (by rfl) what stepped
    | true =>
      simp only [if_true] at stepped
      split at stepped
      · contradiction
      · exact silent _ (by rfl) what stepped
  -- The end of a connection is closed, or handed to whom it belongs.
  | eof channel second =>
    obtain ⟨chan, held, stepped⟩ := Option.bind_eq_some_iff.mp stepped
    have what : sys.occasion (.eof channel second) =
        some ((chan.atEnd second).owner, .drop (peerOf channel second)) := by
      simp [occasion, held]
    simp only at stepped
    split at stepped
    · contradiction
    · split at stepped
      · contradiction
      · split at stepped
        · obtain rfl := Option.some.inj stepped
          rw [what]
          exact (Handover.close held).passes
        · exact silent _ (by rfl) what stepped

/-- An event comes from where a process is connected, before it is handled. -/
theorem Handover.arrives {step : Step} {id : NodeId} {event : Event}
    (handover : Handover sys step id event mid) {sent : List Effect}
    (grows : Grows mid next sent) : Arrives sys next id event := by
  -- A message comes from the channel it was on, and a link from the one just made.
  cases handover with
  | client | disconnect | tick | fail | close => trivial
  | @pop channel second chan msg rest held first =>
    refine ⟨channel, second, rfl, ⟨chan, held, rfl⟩, chan, held, ?_⟩
    rw [first]
    exact List.mem_cons_self
  | link => exact ⟨_, rfl, grows.owns ⟨_, List.getElem?_concat_length, rfl⟩⟩

/-- A session handles the event of a step. -/
structure Reacts (sys next : System) (step : Step) (id : NodeId) (event : Event) (node : Node)
    (result : Result) : Prop where
  live : sys.Live id node
  handles : Handles node event result
  made : next.process id = after (sys.process id) result
  others : ∀ other, other ≠ id → next.process other = sys.process other
  started : next.started = sys.started
  arrives : Arrives sys next id event
  grows : Grows sys next (fresh node result)
  passes : Passes sys next (some (id, event))
  sent : ∀ {channel second msg}, .send (peerOf channel second) msg ∈ fresh node result →
    next.Holds channel → next.Waits channel (!second) msg
  shut : ∀ {channel second}, .close (peerOf channel second) ∈ fresh node result →
    ¬ next.Holds channel
  /-- A channel that was made leads to whom the attempt was for. -/
  far : ∀ {handle peer}, event = .connected handle (some peer) → ∃ attempt pending,
    step = .complete attempt true ∧ sys.attempts[attempt]? = some pending ∧ pending.owner = id ∧
      pending.handle = handle ∧ peer = peerOf sys.channels.length false ∧
        next.Owns pending.desc sys.channels.length true

/-- A step that hands an event to a live session is one that the session reacts to. -/
theorem step_handled {choice : Choice} {step : Step} {id : NodeId} {event : Event} {node : Node}
    (stepped : sys.step choice step = some next) (what : sys.occasion step = some (id, event))
    (live : sys.Live id node) : ∃ result, Reacts sys next step id event node result := by
  -- The handover comes first, and the reaction behind it.
  obtain ⟨mid, handover, reacted⟩ := step_reacts stepped what live.1 live.2
  have same := handover.process
  obtain ⟨-, made, others, started, grows⟩ := react_made reacted (same ▸ live.2)
  have flows := react_flows reacted (same ▸ live.2)
  rw [same] at made others
  refine ⟨_, live, ⟨choice.fuel, choice.script, rfl⟩, made, others, started.trans ?_,
    handover.arrives grows, handover.grows.trans grows, handover.passes.flow flows, flows.sent,
    flows.shut, ?_⟩
  · cases handover <;> rfl
  · rintro handle peer rfl
    cases handover with
    | @link attempt pending held =>
      refine ⟨attempt, pending, rfl, held, rfl, rfl, rfl, grows.owns ?_⟩
      exact ⟨_, List.getElem?_concat_length, rfl⟩

end System

end Motmot
