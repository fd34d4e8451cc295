/-!
Paxos identifiers, their comparisons, and the unsigned arithmetic of the counters.

Participants, instances, requests and generations are all named by numbers counted from one.
The source stores them in 32 bits, and a session counts upwards one decree at a time.
-/

namespace Motmot

/-- Session identifiers. -/
abbrev Uuid := Nat

/-- Opaque byte strings: descriptors and request data. -/
abbrev Bytes := List UInt8

/-- Handles of the peer objects wrapped around I/O channels. -/
abbrev PeerId := Nat

/-- Addresses of allocated instances. -/
abbrev Addr := Nat

/-- A totally ordered pair of Paxos identifiers. -/
structure PPair where
  /-- Identifier of the participant. -/
  id : Nat
  /-- Generation number. -/
  gen : Nat
  deriving DecidableEq, Repr

/-- Compares two identifiers. -/
def paxidCompare (x y : Nat) : Ordering :=
  if x < y then .lt else if x > y then .gt else .eq

/-- Compares two pairs: generations first, then identifiers in inverse order. -/
def ppairCompare (x y : PPair) : Ordering :=
  match paxidCompare x.gen y.gen with
  | .eq => paxidCompare y.id x.id
  | r => r

/-- The number of values of a Paxos identifier. -/
def paxidRange : Nat := 4294967296

/-- Increment of a Paxos identifier, which wraps at the last one. -/
def paxidSucc (x : Nat) : Nat := (x + 1) % paxidRange

/-- Below the last identifier, an increment is an addition. -/
theorem paxidSucc_eq {x : Nat} (room : x + 1 < paxidRange) : paxidSucc x = x + 1 :=
  Nat.mod_eq_of_lt room

/-- The number of values of an `unsigned`. -/
def unsignedRange : Nat := 4294967296

/-- Decrement of an `unsigned`, which wraps at zero. -/
def unsignedPred (x : Nat) : Nat := (x + (unsignedRange - 1)) % unsignedRange

end Motmot
