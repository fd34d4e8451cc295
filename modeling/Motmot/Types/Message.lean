import Motmot.Types.Session

/-! The payloads exchanged between participants, as the receiving handlers unpack them. -/

namespace Motmot

/-- The fields of an instance that travel over the wire. -/
structure PackedInstance where
  hdr : Header
  committed : Bool
  val : Value
  deriving DecidableEq, Repr

/-- Packs the header, the commit flag and the value of an instance. -/
def instancePack (inst : Instance) : PackedInstance :=
  { hdr := inst.hdr, committed := inst.committed, val := inst.val }

/-- Unpacks an instance, with every field that is not sent set to zero. -/
def instanceUnpack (packed : PackedInstance) : Instance :=
  { hdr := packed.hdr, committed := packed.committed, cached := false, learned := false,
    votes := 0, rejects := 0, val := packed.val }

/-- The fields of an acceptor that travel over the wire. -/
structure PackedAcceptor where
  paxid : Nat
  desc : Bytes
  deriving DecidableEq, Repr

/-- Packs the identity of an acceptor. -/
def acceptorPack (acc : Acceptor) : PackedAcceptor :=
  { paxid := acc.paxid, desc := acc.desc }

/-- Unpacks an acceptor, with no channel attached. -/
def acceptorUnpack (packed : PackedAcceptor) : Acceptor :=
  { paxid := packed.paxid, peer := none, desc := packed.desc }

/-- The second element of a message. -/
inductive Body where
  /-- Messages that consist of a header alone. -/
  | empty
  /-- The votes of a promise, behind the element count written in front of them. -/
  | votes (count : Nat) (votes : List PackedInstance)
  | value (val : Value)
  | welcome (session : Uuid) (ibase : Nat) (alist : List PackedAcceptor)
      (ilist : List PackedInstance)
  | request (req : Request)
  | retrieve (paxid : Nat) (val : Value)
  /-- The header that a redirect objects to. -/
  | header (hdr : Header)
  /-- The header that a refuse objects to, with the value of the refused request. -/
  | refuse (hdr : Header) (val : Value)
  | paxid (paxid : Nat)
  deriving DecidableEq, Repr

/-- A Paxos message. -/
structure Msg where
  hdr : Header
  body : Body
  deriving DecidableEq, Repr

/-- The payload that a handler puts behind the header of a message of each opcode. -/
def shaped : Opcode → Body → Bool
  | .prepare, .empty | .accept, .empty | .hello, .empty => true
  | .reject, .empty | .retry, .empty | .sync, .empty => true
  | .promise, .votes _ _ => true
  | .decree, .value _ | .commit, .value _ | .recommit, .value _ => true
  | .welcome, .welcome _ _ _ _ => true
  | .request, .request _ | .resend, .request _ => true
  | .retrieve, .retrieve _ _ => true
  | .redirect, .header _ => true
  | .refuse, .refuse _ _ => true
  | .last, .paxid _ | .truncate, .paxid _ => true
  | _, _ => false

end Motmot
