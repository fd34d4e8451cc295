import Motmot.Logic.Octets
import Motmot.Types.Primitives

/-! The calls of the chat client to the server, as they are packed. -/

namespace Motmot.Turquoise

open Msgpack (Token Codec)

/-- The opcodes of the calls of a client. -/
inductive RpcOpcode where
  | authenticateUser
  | registerFriend
  | unregisterFriend
  | registerStatus
  | acceptFriend
  | getAllStatuses
  | getUserStatus
  deriving DecidableEq

/-- The number of each opcode. -/
def RpcOpcode.number : RpcOpcode → Nat
  | authenticateUser => 1
  | registerFriend => 2
  | unregisterFriend => 3
  | registerStatus => 5
  | acceptFriend => 6
  | getAllStatuses => 7
  | getUserStatus => 8

/-- What has been packed so far. -/
abbrev Yak : Type := List Token

/-- Begins to pack an array. -/
def yakInit (nelem : Nat) : Yak := [.array nelem]

/-- Packs an integer that is not negative. -/
def yakPackInt (yak : Yak) (data : Nat) : Yak := yak ++ [.uint data]

/-- Packs a byte string. -/
def yakString (yak : Yak) (data : Bytes) : Yak := yak ++ [.raw data.length, .body data]

/-- The bytes of a C string, which ends at its first null byte. -/
def cstringBytes (str : Bytes) : Bytes := str.takeWhile fun c => c ≠ 0

/-- Packs a C string. -/
def yakCstring (yak : Yak) (str : Bytes) : Yak := yakString yak (cstringBytes str)

/-- Begins a call of an opcode with a number of arguments. -/
def rpcOp (op : RpcOpcode) (nargs : Nat) : Yak := yakPackInt (yakInit (1 + nargs)) op.number

/-- Ends a call: the bytes that are written to the connection. -/
def rpcOpEnd (codec : Codec) (yak : Yak) : Bytes := codec.pack yak

/-- Authenticates the user of an account. -/
def rpcLogin (username password : Bytes) : Yak :=
  yakCstring (yakCstring (rpcOp .authenticateUser 2) username) password

/-- Asks for the statuses of all friends. -/
def rpcGetAllStatuses : Yak := rpcOp .getAllStatuses 0

/-- Asks for a friend. -/
def rpcRegisterFriend (name : Bytes) : Yak := yakCstring (rpcOp .registerFriend 1) name

/-- Gives up a friend. -/
def rpcUnregisterFriend (name : Bytes) : Yak := yakCstring (rpcOp .unregisterFriend 1) name

/-- Asks for the status of a user. -/
def rpcGetStatus (name : Bytes) : Yak := yakCstring (rpcOp .getUserStatus 1) name

/-- Reports a status. The caller has one, two or three for online, away and offline. -/
def rpcRegisterStatus (status : Nat) : Yak := yakPackInt (rpcOp .registerStatus 1) status

/-- Accepts a friend. -/
def rpcAcceptFriend (name : Bytes) : Yak := yakCstring (rpcOp .acceptFriend 1) name

/-- The calls of a client. -/
inductive Call where
  | login (username password : Bytes)
  | getAllStatuses
  | registerFriend (name : Bytes)
  | unregisterFriend (name : Bytes)
  | getStatus (name : Bytes)
  | registerStatus (status : Nat)
  | acceptFriend (name : Bytes)

/-- What a call packs. -/
def Call.yak : Call → Yak
  | login username password => rpcLogin username password
  | getAllStatuses => rpcGetAllStatuses
  | registerFriend name => rpcRegisterFriend name
  | unregisterFriend name => rpcUnregisterFriend name
  | getStatus name => rpcGetStatus name
  | registerStatus status => rpcRegisterStatus status
  | acceptFriend name => rpcAcceptFriend name

/-- What a call writes to the connection. -/
def Call.bytes (codec : Codec) (call : Call) : Bytes := rpcOpEnd codec call.yak

/-- The calls of a client that has just connected. -/
def rpcConnectSuccess (username password : Bytes) : List Call :=
  [.login username password, .getAllStatuses]

end Motmot.Turquoise
