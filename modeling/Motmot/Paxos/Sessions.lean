import Motmot.Paxos.Dispatch

/-! What concerns all the sessions of a process at once. -/

namespace Motmot

/-- Whether an acceptor of a session holds a peer. -/
def Session.holds (pax : Session) (source : PeerId) : Bool :=
  pax.alist.any fun acc => acc.peer = some source

/--
Processes a lost connection for every session.

The flag says that the peer was destroyed for an earlier session already.
-/
def dropSessions (fuel : Nat) (source : PeerId) : Bool → List Node → Outcome Stop (List Node)
  | _, [] => .ok []
  | gone, node :: rest =>
    -- Another session that holds the peer destroys it a second time.
    if node.pax.holds source && gone then .stop .undefined (node :: rest)
    else
      match paxosDropConnection fuel node source with
      | .ok next =>
        (dropSessions fuel source (gone || node.pax.holds source) rest).andThen
          fun others => .ok (next :: others)
      -- The iteration goes on from the links of a session that was destroyed.
      | .stop .ended halted => .stop .undefined (halted :: rest)
      | .stop reason halted => .stop reason (halted :: rest)

/-- Accounts for a lost connection in all the sessions of a process. -/
def paxosDropConnections (fuel : Nat) (sessions : List Node) (source : PeerId) :
    Outcome Stop (List Node) :=
  dropSessions fuel source false sessions

end Motmot
