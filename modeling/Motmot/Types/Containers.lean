import Motmot.Containers.LinkedList
import Motmot.Types.Session

/-! The sorted containers of a session, as they are manufactured. -/

namespace Motmot

open LinkedList (Factory)

/-- Acceptors are found from the front and inserted from the back. -/
def acceptorContainer : Factory Acceptor Nat :=
  { idField := Acceptor.paxid, compare := paxidCompare, findDir := .fwd, insertDir := .rev }

/-- Instances are found and inserted from the back. -/
def instanceContainer : Factory Instance Nat :=
  { idField := fun inst => inst.hdr.inum, compare := paxidCompare
    findDir := .rev, insertDir := .rev }

/-- Requests are found from the front and inserted from the back. -/
def requestContainer : Factory Request ReqId :=
  { idField := fun req => req.val.reqid, compare := reqidCompare
    findDir := .fwd, insertDir := .rev }

end Motmot
