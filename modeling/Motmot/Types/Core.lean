import Motmot.Types.Primitives

/-! Message headers and the values that Paxos decides on. -/

namespace Motmot

/-- Ballots are ordered pairs of the proposer's identifier and a generation. -/
abbrev Ballot := PPair

/-- Requests are named by their author and the author's own count. -/
abbrev ReqId := PPair

/-- Compares two ballot numbers. -/
def ballotCompare (x y : Ballot) : Ordering := ppairCompare x y

/-- Compares two request identifiers. -/
def reqidCompare (x y : ReqId) : Ordering := ppairCompare x y

/-- Paxos message types. -/
inductive Opcode where
  | prepare | promise | decree | accept | commit
  | welcome | hello
  | request | retrieve | resend
  | redirect | refuse | reject
  | retry | recommit
  | sync | last | truncate
  deriving DecidableEq, Repr

/-- The header included with every message and stored with every instance. -/
structure Header where
  session : Uuid
  ballot : Ballot
  opcode : Opcode
  inum : Nat
  deriving DecidableEq, Repr

/-- Kinds of decrees. -/
inductive DKind where
  | null | chat | join | part | kill
  deriving DecidableEq, Repr

/-- The value of a decree. -/
structure Value where
  dkind : DKind
  reqid : ReqId
  extra : Nat
  deriving DecidableEq, Repr

/-- Only chats and joins carry data that the acceptors must cache. -/
def requestNeedsCached (dkind : DKind) : Bool :=
  dkind = .chat || dkind = .join

end Motmot
