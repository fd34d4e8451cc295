import Motmot.Logic.Octets
import Motmot.Proofs.Paxos.Peer
import Motmot.Proofs.Paxos.Wire

/-!
The two ends of a connection.

What one end sends lies in its write buffer, in the channel or in the unpacker of the other end,
until the other end dispatches it.
-/

namespace Motmot.Wire

open Msgpack

/-- A message that is packed as a whole and fits its format. -/
structure Sendable (msg : Msg) : Prop where
  fits : FitsMsg msg
  shape : shaped msg.hdr.opcode msg.body = true
  whole : whole msg.body
  sized : ∀ token ∈ msgPack msg, token.Fits

section Codecs

variable (codec : Codec) (dispatch : List Object → Reply)

/-- The buffer that is handed to `paxos_peer_send` for a message. -/
def msgBytes (msg : Msg) : Bytes := codec.pack (msgPack msg)

variable {codec dispatch}

/-- The bytes of a message are unpacked as an object that has the message in it. -/
theorem Sendable.object {msg : Msg} (sendable : Sendable msg) : ∃ object,
    codec.unpacker.Reads (msgBytes codec msg) object ∧
      msgUnpack object = some (msg.hdr, sent msg.body) := by
  obtain ⟨object, unpacked, reads⟩ :=
    reads_of_whole sendable.fits sendable.shape sendable.whole []
  rw [List.append_nil] at unpacked
  exact ⟨object, codec.undoes unpacked sendable.sized, reads⟩

variable {msgs : List Msg} {object : Msg → Object} {arrived : Bytes}
  {reader : Stream.Reader Object UInt8}

/-- What a peer has dispatched are the first messages, and it stops only behind a failure. -/
structure Delivers (codec : Codec) (dispatch : List Object → Reply) (msgs : List Msg)
    (object : Msg → Object) (arrived : Bytes) (reader : Stream.Reader Object UInt8) : Prop where
  follows : Stream.Reader.Follows msgs (msgBytes codec) object arrived reader
  stops : (reader.objects ≠ [] ∧ (dispatch reader.objects).fails = true) ∨
    codec.unpacker.next reader.buffer = none

/-- One read off the channel goes on with the messages, whichever of their dispatches fail. -/
theorem Delivers.feed (reads : ∀ msg ∈ msgs, codec.unpacker.Reads (msgBytes codec msg) (object msg))
    {bytes : Bytes} (come : arrived ++ bytes <+: msgs.flatMap (msgBytes codec))
    (delivers : Delivers codec dispatch msgs object arrived reader) :
    Delivers codec dispatch msgs object (arrived ++ bytes)
      (reader.feedUntil codec.unpacker dispatch Reply.fails bytes).2 where
  follows := delivers.follows.feedUntil reads come
  stops := Stream.Reader.takeUntil_stops (Nat.le_refl _)

/-- The rounds of a read callback go on with the messages, one after the other. -/
theorem Delivers.rounds
    (reads : ∀ msg ∈ msgs, codec.unpacker.Reads (msgBytes codec msg) (object msg))
    {arrivals : List Arrival}
    (come : arrived ++ (Inbound.readRounds codec.unpacker dispatch reader arrivals).2.2 <+:
      msgs.flatMap (msgBytes codec))
    (delivers : Delivers codec dispatch msgs object arrived reader) :
    Delivers codec dispatch msgs object
      (arrived ++ (Inbound.readRounds codec.unpacker dispatch reader arrivals).2.2)
      (Inbound.readRounds codec.unpacker dispatch reader arrivals).2.1 := by
  -- Each arrival is fed to what the rounds before it have left.
  induction arrivals generalizing arrived reader with
  | nil =>
    rw [Inbound.readRounds, List.append_nil]
    exact delivers
  | cons arrival rest ih =>
    rw [Inbound.readRounds] at come ⊢
    dsimp only at come ⊢
    split at come
    · rename_i ends
      rw [if_pos ends]
      exact delivers.feed reads come
    · rename_i goes
      rw [if_neg goes]
      rw [← List.append_assoc] at come ⊢
      exact ih come (delivers.feed reads ((List.prefix_append _ _).trans come))

/-- Every event of a peer goes on with the messages, as far as they have come in. -/
theorem Delivers.step
    (reads : ∀ msg ∈ msgs, codec.unpacker.Reads (msgBytes codec msg) (object msg))
    {inbound next : Inbound Object} {event : Inbound.Event}
    (taken : inbound.step codec.unpacker dispatch event = some next) :
    inbound.arrived <+: next.arrived ∧ (next.arrived <+: msgs.flatMap (msgBytes codec) →
      Delivers codec dispatch msgs object inbound.arrived inbound.reader →
        Delivers codec dispatch msgs object next.arrived next.reader) := by
  -- Only a read and the poll that follows a write feed the reader.
  cases event with
  | send buffer =>
    obtain ⟨_, -, rfl⟩ := Option.map_eq_some_iff.mp taken
    exact ⟨List.prefix_rfl, fun _ delivers => delivers⟩
  | read id arrivals =>
    obtain ⟨_, -, rfl⟩ := Option.map_eq_some_iff.mp taken
    exact ⟨List.prefix_append _ _, fun come delivers => delivers.rounds reads come⟩
  | write id status bytesWritten arrivals =>
    simp only [Inbound.step] at taken
    split at taken
    · obtain ⟨_, -, rfl⟩ := Option.map_eq_some_iff.mp taken
      exact ⟨List.prefix_append _ _, fun come delivers => delivers.rounds reads come⟩
    · obtain ⟨_, -, rfl⟩ := Option.map_eq_some_iff.mp taken
      exact ⟨List.prefix_rfl, fun _ delivers => delivers⟩

/-- Whatever happens to a peer, it has dispatched the first messages of its stream. -/
theorem Delivers.exec
    (reads : ∀ msg ∈ msgs, codec.unpacker.Reads (msgBytes codec msg) (object msg))
    {inbound last : Inbound Object} {events : List Inbound.Event}
    (ran : inbound.exec codec.unpacker dispatch events = some last) :
    inbound.arrived <+: last.arrived ∧ (last.arrived <+: msgs.flatMap (msgBytes codec) →
      Delivers codec dispatch msgs object inbound.arrived inbound.reader →
        Delivers codec dispatch msgs object last.arrived last.reader) := by
  -- Each event goes on from where the one before has left the stream.
  induction events generalizing inbound with
  | nil =>
    obtain rfl : inbound = last := by simpa [Inbound.exec] using ran
    exact ⟨List.prefix_rfl, fun _ delivers => delivers⟩
  | cons event events ih =>
    simp only [Inbound.exec, List.foldlM_cons] at ran
    obtain ⟨mid, taken, rest⟩ := Option.bind_eq_some_iff.mp ran
    obtain ⟨first, delivers⟩ := Delivers.step reads taken
    obtain ⟨more, goes⟩ := ih rest
    exact ⟨first.trans more, fun come before => goes come (delivers (more.trans come) before)⟩

/--
A connection delivers the messages that were sent over it, in the order in which they were sent.

Neither partial writes nor the cuts between reads make a difference: no message is lost, doubled
or changed. What has come in is dispatched or held back, and nothing that is there as a whole is
held back unless the last dispatch has failed.
-/
theorem connection_delivers (codec : Codec) (dispatch : List Object → Reply)
    {events : List Peer.Event} {peer : Peer} {msgs : List Msg} {arrivals : List Inbound.Event}
    {inbound : Inbound Object} (run : Peer.paxosPeerInit.exec events = some peer)
    (sends : peer.sent = msgs.flatMap (msgBytes codec)) (sendable : ∀ msg ∈ msgs, Sendable msg)
    (comes : Inbound.paxosPeerInit.exec codec.unpacker dispatch arrivals = some inbound)
    (arrived : inbound.arrived <+: peer.accepted) : ∃ count ≤ msgs.length,
      inbound.reader.objects.map msgUnpack =
        (msgs.take count).map (fun msg => some (msg.hdr, sent msg.body)) ∧
      inbound.arrived = (msgs.take count).flatMap (msgBytes codec) ++ inbound.reader.buffer ∧
      (inbound.reader.objects = [] ∨ (dispatch inbound.reader.objects).fails = false →
        ∀ whole ≤ msgs.length, (msgs.take whole).flatMap (msgBytes codec) <+: inbound.arrived →
          whole ≤ count) := by
  -- What has come in is a prefix of what was sent.
  have part : inbound.arrived <+: msgs.flatMap (msgBytes codec) :=
    sends ▸ arrived.trans (Peer.accepted_prefix run)
  choose! object reads same using fun msg mem => @Sendable.object codec msg (sendable msg mem)
  -- What was dispatched follows the messages from the first on.
  have delivers := (Delivers.exec reads comes).2 part
    ⟨⟨0, Nat.zero_le _, rfl, rfl⟩, Or.inr Stream.Unpacker.next_nil⟩
  obtain ⟨count, inside, taken, split⟩ := delivers.follows
  refine ⟨count, inside, ?_, split, fun calm whole within all => ?_⟩
  · rw [taken, List.map_map]
    exact List.map_congr_left fun msg mem => same msg (List.mem_of_mem_take mem)
  · have waiting : codec.unpacker.next inbound.reader.buffer = none := by
      refine delivers.stops.resolve_left ?_
      rintro ⟨some, failed⟩
      rcases calm with none | works
      · exact some none
      · rw [works] at failed
        contradiction
    exact Stream.Reader.Follows.prompt reads split waiting within all

end Codecs

/-- The hello of the first participant and a chat of its own, one behind the other. -/
def greeting : List Msg :=
  [⟨⟨7, ⟨1, 1⟩, .hello, 1⟩, .empty⟩,
    ⟨⟨7, ⟨1, 1⟩, .decree, 300⟩, .value ⟨.chat, ⟨1, 70000⟩, 0⟩⟩]

/-- A dispatch that fails for the first message of a stream, and for no other. -/
def stumble (objects : List Object) : Reply :=
  { sends := [], result := if objects.length = 1 then 1 else 0, selfId := 2 }

/-- How the two come in: in two reads, and a third that brings nothing. -/
def stumbling : List Inbound.Event :=
  [.read 0 [⟨.normal, (greeting.flatMap (msgBytes octets)).take 5, true⟩,
    ⟨.normal, (greeting.flatMap (msgBytes octets)).drop 5, true⟩, ⟨.again, [], true⟩]]

/-- The dispatch of the first fails while the second is there, which the next round dispatches. -/
theorem connection_delivers_greeting : ∃ inbound,
    Inbound.paxosPeerInit.exec unpacker stumble stumbling = some inbound ∧
      inbound.reader.objects.map msgUnpack =
        greeting.map fun msg => some (msg.hdr, sent msg.body) := by
  have sendable : ∀ msg ∈ greeting, Sendable msg := by
    intro msg mem
    simp only [greeting, List.mem_cons, List.not_mem_nil, or_false] at mem
    rcases mem with rfl | rfl
    · exact ⟨by decide, rfl, trivial, by decide⟩
    · exact ⟨by decide, rfl, trivial, by decide⟩
  have able : (Inbound.paxosPeerInit.exec unpacker stumble stumbling).map (fun inbound =>
      (inbound.arrived, inbound.reader.objects.length)) =
        some (greeting.flatMap (msgBytes octets), 2) := by decide +kernel
  obtain ⟨inbound, comes, same⟩ := Option.map_eq_some_iff.mp able
  obtain ⟨whole, both⟩ := Prod.mk.inj same
  -- The sender has written the two in parts.
  obtain ⟨count, inside, dispatched, -, prompt⟩ := @connection_delivers octets stumble
    [.send (greeting.flatMap (msgBytes octets)), .write 1 ⟨.again, 4, []⟩,
      .write 1 ⟨.again, 21, []⟩] _ greeting stumbling inbound rfl rfl sendable comes
    (by rw [whole]; decide +kernel)
  have last : (stumble inbound.reader.objects).fails = false := by
    rw [stumble, both]
    rfl
  have all : count = greeting.length := by
    have more := prompt (Or.inr last) 2 (by decide) (by rw [whole]; exact List.prefix_rfl)
    exact Nat.le_antisymm inside more
  refine ⟨inbound, comes, ?_⟩
  rw [dispatched, all, List.take_length]

end Motmot.Wire
