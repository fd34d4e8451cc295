import Motmot.Logic.Outcome
import Motmot.Plume.Methods

/-! The chat client's side of the server's remote calls: the dispatch of what the server sends. -/

namespace Motmot.Turquoise

open Plume (Text Value)

/--
An unpacked object, by the type that the unpacker gives it.

Integers have two types, and the unpacker gives the signed one to negative numbers only.
-/
inductive Object where
  | nil
  | boolean (b : Bool)
  | positiveInteger (n : Nat)
  | negativeInteger (i : Int) (negative : i < 0)
  | double (text : Text)
  | raw (bytes : Text)
  | array (items : List Object)
  | map (entries : List (Object × Object))

mutual

/-- A value as the client unpacks it once the server has packed it. -/
def unpacked : Value → Object
  | .nil => .nil
  | .bool b => .boolean b
  | .int i => if below : i < 0 then .negativeInteger i below else .positiveInteger i.toNat
  | .real text _ => .double text
  | .raw bytes => .raw bytes
  | .array items => .array (unpackedItems items)
  | .map entries => .map (unpackedEntries entries)

/-- The elements of an array. -/
def unpackedItems : List Value → List Object
  | [] => []
  | item :: items => unpacked item :: unpackedItems items

/-- The entries of a dictionary. -/
def unpackedEntries : List (Value × Value) → List (Object × Object)
  | [] => []
  | (key, value) :: entries => (unpacked key, unpacked value) :: unpackedEntries entries

end

/-- Why a handler ends otherwise than with a zero. -/
inductive Fault where
  /-- A failed check makes the handler return nonzero. -/
  | refused
  /-- An element is read that the array does not have. -/
  | pastEnd
  /-- A value is read as one of another type. -/
  | mistyped
  /-- A pointer is freed that was freed before. -/
  | freedTwice
  deriving DecidableEq

/-- A buddy, and how to contact them. -/
structure Buddy where
  name : Text
  ip : Option Text
  port : Int
  deriving DecidableEq

/-- The account of the client: the buddies on its list, and those that were made and put nowhere. -/
structure Account where
  buddies : List Buddy
  loose : List Buddy
  deriving DecidableEq

/-- The outcome of a handler. -/
abbrev Result := Outcome Fault Account

/-- Whether a handler has only read what it had checked, and freed what was there. -/
def Result.safe : Result → Bool
  | .ok _ | .stop .refused _ => true
  | .stop .pastEnd _ | .stop .mistyped _ | .stop .freedTwice _ => false

/-- The bytes of an object of type `MSGPACK_OBJECT_RAW`. -/
def Object.string : Object → Option Text
  | raw bytes => some bytes
  | _ => none

/-- The number of an object of type `MSGPACK_OBJECT_POSITIVE_INTEGER`. -/
def Object.uint : Object → Option Nat
  | positiveInteger n => some n
  | _ => none

/-- Checks the type of an element of an array and goes on with its value. -/
def typecheck {α : Type} (account : Account) (a : List Object) (i : Nat)
    (tipe : Object → Option α) (next : α → Result) : Result :=
  match a[i]? with
  -- The element is read without a look at the length.
  | none => .stop .pastEnd account
  | some obj =>
    match tipe obj with
    | none => .stop .refused account
    | some value => next value

/-- A C string ends at its first null byte. -/
def cstring (bytes : Text) : Text := bytes.takeWhile fun c => c.toNat ≠ 0

/-- A number as it is stored in a field of type `int`. -/
def toInt (n : Nat) : Int := (BitVec.ofNat 32 n).toInt

/-- Looks a buddy up by name. -/
def findBuddy (account : Account) (name : Text) : Option Buddy :=
  account.buddies.find? fun buddy => buddy.name = name

/-- Writes where a buddy is. A buddy that is not on the list is made, but not put on it. -/
def Account.store (account : Account) (name ip : Text) (port : Int) : Account :=
  match findBuddy account name with
  | none => { account with loose := account.loose ++ [⟨name, some ip, port⟩] }
  | some _ =>
    { account with
      buddies := account.buddies.map fun buddy =>
        if buddy.name = name then { buddy with ip := some ip, port := port } else buddy }

/-- Stores one status of the list: four fields are read of what was checked to have three. -/
def storeStatus (account : Account) (a : List Object) : Result :=
  if a.length ≠ 3 then .stop .refused account
  else
    typecheck account a 0 Object.string fun name =>
      typecheck account a 1 Object.uint fun _ =>
        typecheck account a 2 Object.string fun ip =>
          -- The port is read behind the three fields that the size was checked for.
          typecheck account a 3 Object.uint fun port =>
            .ok (account.store (cstring name) (cstring ip) (toInt port))

/-- Stores the statuses of a list one after the other. -/
def storeStatuses : Account → List Object → Result
  | account, [] => .ok account
  | account, .array a :: rest =>
    (storeStatus account a).andThen fun account => storeStatuses account rest
  | account, _ :: _ => .stop .refused account

/-- Takes the statuses of all friends, from a pointer to what follows the opcode. -/
def rpcAllStatuses (account : Account) : List Object → Result
  | [] => .stop .pastEnd account
  | .array items :: _ => storeStatuses account items
  | _ :: _ => .stop .refused account

/-- Writes where a found buddy is, with the field for the port read from that of the address. -/
def storeFound (account : Account) (buddy : Buddy) : Result :=
  -- The old address is freed, and then freed again as the new one takes its place.
  if buddy.ip.isSome then .stop .freedTwice account else .stop .mistyped account

/-- Takes the status of one user, from a pointer to what follows the opcode. -/
def rpcGetStatusResp (account : Account) : List Object → Result
  | [] => .stop .pastEnd account
  | .array a :: _ =>
    if a.length ≠ 4 then .stop .refused account
    -- Here the size fits the fields that are read.
    else
      typecheck account a 0 Object.string fun name =>
        typecheck account a 1 Object.uint fun _ =>
          typecheck account a 2 Object.string fun _ =>
            typecheck account a 3 Object.uint fun _ =>
              match findBuddy account (cstring name) with
              | none => .stop .refused account
              | some buddy => storeFound account buddy
  | _ :: _ => .stop .refused account

/-- Dispatches a message of the server, whose opcode must be a negative integer. -/
def rpcDispatch (account : Account) : Object → Result
  | .array (.negativeInteger opcode _ :: rest) =>
    if opcode = Plume.RemoteMethod.allStatusResponse.code then rpcAllStatuses account rest
    else if opcode = Plume.RemoteMethod.userStatusResp.code then rpcGetStatusResp account rest
    else .stop .refused account
  | _ => .stop .refused account

end Motmot.Turquoise
