import Mathlib.Algebra.Order.Ring.Nat
import Motmot.Logic.Msgpack
import Motmot.Types.Message

/-!
How headers, values, acceptors, instances, requests and whole messages travel over the wire.

The unpackers check the shapes that the source asserts; one that finds another shape returns
nothing.
They assign what they read to fields of 32 or 64 bits.
-/

namespace Motmot.Wire

open Msgpack

/-- An integer as it is stored in a field of a number of bits. -/
def narrow (bits n : Nat) : Nat := n % 2 ^ bits

/-- The positive integer that an object must be. -/
def positive : Object → Option Nat
  | .uint n => some n
  | _ => none

/-- The boolean that an object must be. -/
def boolean : Object → Option Bool
  | .bool b => some b
  | _ => none

/-- The byte string that an object must be. -/
def bytes : Object → Option Bytes
  | .raw data => some data
  | _ => none

/-- The elements of the array that an object must be. -/
def elements : Object → Option (List Object)
  | .array objects => some objects
  | _ => none

/-- The number of an opcode in the enumeration. -/
def opcodeNumber : Opcode → Nat
  | .prepare => 0
  | .promise => 1
  | .decree => 2
  | .accept => 3
  | .commit => 4
  | .welcome => 5
  | .hello => 6
  | .request => 7
  | .retrieve => 8
  | .resend => 9
  | .redirect => 10
  | .refuse => 11
  | .reject => 12
  | .retry => 13
  | .recommit => 14
  | .sync => 15
  | .last => 16
  | .truncate => 17

/-- The opcodes in the order of their numbers. -/
def opcodes : List Opcode :=
  [.prepare, .promise, .decree, .accept, .commit, .welcome, .hello, .request, .retrieve, .resend,
   .redirect, .refuse, .reject, .retry, .recommit, .sync, .last, .truncate]

/-- The number of a kind of decrees in the enumeration. -/
def dkindNumber : DKind → Nat
  | .null => 0
  | .chat => 1
  | .join => 2
  | .part => 3
  | .kill => 4

/-- The kinds of decrees in the order of their numbers. -/
def dkinds : List DKind := [.null, .chat, .join, .part, .kill]

/-- Packs an identifier. -/
def paxidPack (paxid : Nat) : List Token := [.uint paxid]

/-- Unpacks an identifier into 32 bits. -/
def paxidUnpack (o : Object) : Option Nat := do
  let n ← positive o
  return narrow 32 n

/-- Packs the identifier of a session. -/
def uuidPack (uuid : Uuid) : List Token := [.uint uuid]

/-- Unpacks the identifier of a session into 64 bits. -/
def uuidUnpack (o : Object) : Option Uuid := do
  let n ← positive o
  return narrow 64 n

/-- Packs a header. -/
def headerPack (hdr : Header) : List Token :=
  .array 5 :: (uuidPack hdr.session ++ (paxidPack hdr.ballot.id ++ (paxidPack hdr.ballot.gen ++
    ([.uint (opcodeNumber hdr.opcode)] ++ (paxidPack hdr.inum ++ [])))))

/-- Unpacks a header. -/
def headerUnpack (o : Object) : Option Header := do
  match ← elements o with
  | [session, id, gen, opcode, inum] =>
    let session ← uuidUnpack session
    let id ← paxidUnpack id
    let gen ← paxidUnpack gen
    let number ← positive opcode
    -- No case of the dispatchers is about any other number.
    let opcode ← opcodes[narrow 32 number]?
    let inum ← paxidUnpack inum
    return { session := session, ballot := ⟨id, gen⟩, opcode := opcode, inum := inum }
  | _ => none

/-- Packs a value. -/
def valuePack (val : Value) : List Token :=
  .array 4 :: ([.uint (dkindNumber val.dkind)] ++ (paxidPack val.reqid.id ++
    (paxidPack val.reqid.gen ++ (paxidPack val.extra ++ []))))

/-- Unpacks a value. -/
def valueUnpack (o : Object) : Option Value := do
  match ← elements o with
  | [dkind, id, gen, extra] =>
    let number ← positive dkind
    let dkind ← dkinds[narrow 32 number]?
    let id ← paxidUnpack id
    let gen ← paxidUnpack gen
    let extra ← paxidUnpack extra
    return { dkind := dkind, reqid := ⟨id, gen⟩, extra := extra }
  | _ => none

/-- Packs a byte string behind its length. -/
def rawPack (data : Bytes) : List Token := [.raw data.length, .body data]

/-- Packs an acceptor. -/
def acceptorPack (acc : Acceptor) : List Token :=
  .array 2 :: (paxidPack acc.paxid ++ (rawPack acc.desc ++ []))

/-- Unpacks an acceptor, which has no peer yet. -/
def acceptorUnpack (o : Object) : Option Acceptor := do
  match ← elements o with
  | [paxid, desc] =>
    let paxid ← paxidUnpack paxid
    let desc ← bytes desc
    return { paxid := paxid, peer := none, desc := desc }
  | _ => none

/-- Packs the header, the commit flag and the value of an instance. -/
def instancePack (inst : Instance) : List Token :=
  .array 3 :: (headerPack inst.hdr ++ ([.bool inst.committed] ++ (valuePack inst.val ++ [])))

/-- Unpacks an instance and sets everything else to zero. -/
def instanceUnpack (o : Object) : Option Instance := do
  match ← elements o with
  | [hdr, committed, val] =>
    let hdr ← headerUnpack hdr
    let committed ← boolean committed
    let val ← valueUnpack val
    return { hdr := hdr, committed := committed, cached := false, learned := false, votes := 0
             rejects := 0, val := val }
  | _ => none

/-- Packs a request with its data. -/
def requestPack (req : Request) : List Token :=
  .array 2 :: (valuePack req.val ++ (rawPack req.data ++ []))

/-- Unpacks a request with its data. -/
def requestUnpack (o : Object) : Option Request := do
  match ← elements o with
  | [val, data] =>
    let val ← valueUnpack val
    let data ← bytes data
    return { val := val, data := data }
  | _ => none

/-! ### Messages -/

/-- Packs what a handler puts behind the header of a message. -/
def bodyPack : Body → List Token
  | .empty => []
  -- `acceptor_promise` writes its count before it packs the votes.
  | .votes count votes =>
    .array count :: votes.flatMap fun vote => instancePack (Motmot.instanceUnpack vote)
  -- `paxos_broadcast_instance` and `proposer_recommit`.
  | .value val => valuePack val
  -- `do_continue_welcome` packs an array of three: the session, the alist and the ilist.
  | .welcome session ibase alist ilist =>
    .array 3 :: ((.array 2 :: (uuidPack session ++ (paxidPack ibase ++ []))) ++
      ((.array alist.length :: alist.flatMap fun acc => acceptorPack (Motmot.acceptorUnpack acc)) ++
        ((.array ilist.length ::
          ilist.flatMap fun inst => instancePack (Motmot.instanceUnpack inst)) ++ [])))
  -- `paxos_request`, `paxos_resend` and the continuation of a refuse.
  | .request req => requestPack req
  -- `paxos_retrieve`.
  | .retrieve paxid val => .array 2 :: (paxidPack paxid ++ (valuePack val ++ []))
  -- `acceptor_redirect` packs the header itself as the payload.
  | .header hdr => headerPack hdr
  -- `acceptor_refuse`.
  | .refuse hdr val => .array 2 :: (headerPack hdr ++ (valuePack val ++ []))
  -- `acceptor_last` and `proposer_truncate` pack a bare integer.
  | .paxid paxid => paxidPack paxid

/-- Packs a message: an array of its header and, unless it has none, its payload. -/
def msgPack (msg : Msg) : List Token :=
  match msg.body with
  | .empty => .array 1 :: (headerPack msg.hdr ++ [])
  | body => .array 2 :: (headerPack msg.hdr ++ (bodyPack body ++ []))

/-- What a handler reads behind the header of a message. -/
inductive Reading where
  | nothing
  | votes (votes : List Instance)
  | value (val : Value)
  | welcome (session : Uuid) (ibase : Nat) (alist : List Acceptor) (ilist : List Instance)
  | request (req : Request)
  | retrieve (paxid : Nat) (val : Value)
  | header (hdr : Header)
  /-- The value of a refused request; the header in front of it is skipped. -/
  | refused (val : Value)
  | paxid (paxid : Nat)
  deriving DecidableEq, Repr

/-- Reads the payload of a message as the handler of its opcode does. -/
def read (opcode : Opcode) (payload : Option Object) : Option Reading :=
  match opcode with
  | .prepare | .accept | .hello | .reject | .retry | .sync => some .nothing
  | .promise => do
    let votes ← (← elements (← payload)).mapM instanceUnpack
    return .votes votes
  | .decree | .commit | .recommit => do
    let val ← valueUnpack (← payload)
    return .value val
  | .welcome => do
    match ← elements (← payload) with
    | [info, alist, ilist] =>
      -- The size of the first array is not checked.
      match ← elements info with
      | uuid :: ibase :: _ =>
        let session ← uuidUnpack uuid
        let ibase ← paxidUnpack ibase
        let alist ← (← elements alist).mapM acceptorUnpack
        let ilist ← (← elements ilist).mapM instanceUnpack
        return .welcome session ibase alist ilist
      | _ => none
    | _ => none
  | .request | .resend => do
    let req ← requestUnpack (← payload)
    return .request req
  | .retrieve => do
    match ← elements (← payload) with
    | [paxid, val] =>
      let paxid ← paxidUnpack paxid
      let val ← valueUnpack val
      return .retrieve paxid val
    | _ => none
  | .redirect => do
    let hdr ← headerUnpack (← payload)
    return .header hdr
  | .refuse => do
    -- Only the second element is read.
    match ← elements (← payload) with
    | _ :: val :: _ =>
      let val ← valueUnpack val
      return .refused val
    | _ => none
  | .last | .truncate => do
    let paxid ← paxidUnpack (← payload)
    return .paxid paxid

/-- Reads a message: its header, and what the handler of its opcode reads behind it. -/
def msgUnpack (o : Object) : Option (Header × Reading) := do
  match ← elements o with
  | [hdr] =>
    let hdr ← headerUnpack hdr
    let reading ← read hdr.opcode none
    return (hdr, reading)
  | [hdr, payload] =>
    let hdr ← headerUnpack hdr
    let reading ← read hdr.opcode (some payload)
    return (hdr, reading)
  | _ => none

/-- What the sender of a message put behind its header. -/
def sent : Body → Reading
  | .empty => .nothing
  | .votes _ votes => .votes (votes.map Motmot.instanceUnpack)
  | .value val => .value val
  | .welcome session ibase alist ilist =>
    .welcome session ibase (alist.map Motmot.acceptorUnpack) (ilist.map Motmot.instanceUnpack)
  | .request req => .request req
  | .retrieve paxid val => .retrieve paxid val
  | .header hdr => .header hdr
  | .refuse _ val => .refused val
  | .paxid paxid => .paxid paxid

end Motmot.Wire
