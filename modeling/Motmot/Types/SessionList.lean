import Motmot.Containers.SortedList
import Motmot.Types.Primitives

/-! The list of the sessions of a process, in which they are looked up by their UUIDs. -/

namespace Motmot

/-- Compares two UUIDs. -/
def paxUuidCompare (x y : Uuid) : Ordering :=
  if x < y then .lt else if x > y then .gt else .eq

/-- An allocated session, with the UUID that its key field points to. -/
structure SessionCell where
  addr : Addr
  sessionId : Uuid
  deriving DecidableEq, Repr

/-- The sessions of a process. -/
structure Sessions where
  /-- The list of active sessions in order. -/
  list : List SessionCell
  /-- The sessions that were created and have not ended, wherever they stand on the list. -/
  live : List SessionCell
  /-- First address never handed out. -/
  brk : Addr
  deriving DecidableEq, Repr

/-- Looks a session up by its UUID. -/
def sessionFind (list : List SessionCell) (id : Uuid) : Option SessionCell :=
  SortedList.findFwd paxUuidCompare SessionCell.sessionId id list

/-- Inserts a session by its UUID, unless that is taken. -/
def sessionInsert (list : List SessionCell) (cell : SessionCell) : List SessionCell :=
  (SortedList.insertFwd paxUuidCompare SessionCell.sessionId cell list).getD list

namespace Sessions

/-- The state that `paxos_init` leaves. -/
def init : Sessions := { list := [], live := [], brk := 0 }

/-- Allocates a session and inserts it under the UUID that it has by then. -/
def sessionNew (sessions : Sessions) (id : Uuid) : Sessions :=
  let cell : SessionCell := { addr := sessions.brk, sessionId := id }
  { list := sessionInsert sessions.list cell
    live := cell :: sessions.live
    brk := sessions.brk + 1 }

/-- Overwrites the UUID of a session where it stands. -/
def uuidUnpack (sessions : Sessions) (addr : Addr) (id : Uuid) : Sessions :=
  let write := fun cell : SessionCell =>
    if cell.addr = addr then { cell with sessionId := id } else cell
  { sessions with list := sessions.list.map write, live := sessions.live.map write }

/-- A started session has its UUID generated before it is inserted. -/
def start (sessions : Sessions) (id : Uuid) : Sessions := sessions.sessionNew id

/-- A welcomed session is inserted with a UUID of zero, and then gets the one of the welcome. -/
def ackWelcome (sessions : Sessions) (id : Uuid) : Sessions :=
  (sessions.sessionNew 0).uuidUnpack sessions.brk id

/-- Takes a session off the list and frees it. -/
def finish (sessions : Sessions) (addr : Addr) : Sessions :=
  { sessions with
    list := sessions.list.filter (fun cell => cell.addr ≠ addr)
    live := sessions.live.filter (fun cell => cell.addr ≠ addr) }

/-- What may happen to the sessions of a process. -/
inductive Turn where
  | start (id : Uuid)
  | welcome (id : Uuid)
  | finish (addr : Addr)
  deriving DecidableEq, Repr

/-- Takes one turn. -/
def turn (sessions : Sessions) : Turn → Sessions
  | .start id => sessions.start id
  | .welcome id => sessions.ackWelcome id
  | .finish addr => sessions.finish addr

/-- A UUID that can be generated, or come in a welcome: not zero, and not in use. -/
def Fresh (sessions : Sessions) (id : Uuid) : Prop :=
  id ≠ 0 ∧ ∀ cell ∈ sessions.live, cell.sessionId ≠ id

instance (sessions : Sessions) (id : Uuid) : Decidable (sessions.Fresh id) :=
  inferInstanceAs (Decidable (_ ∧ _))

/-- Turns that create sessions do so under fresh UUIDs. -/
def Proper (sessions : Sessions) : Turn → Prop
  | .start id => sessions.Fresh id
  | .welcome id => sessions.Fresh id
  | .finish _ => True

end Sessions

end Motmot
