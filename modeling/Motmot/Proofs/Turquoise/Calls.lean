import Motmot.Plume.Connection
import Motmot.Turquoise.Calls

/-!
The calls of the chat client reach the server.

The two sides number their calls apart: what asks for a status here asks for a certificate there.
-/

namespace Motmot.Turquoise

open Msgpack Plume

/-- A C string as the server reads it. -/
def nameOf (str : Bytes) : Plume.Value := .raw (textOf (cstringBytes str))

/-- What the server reads of a call. -/
def Call.message : Call → Plume.Value
  | login username password =>
    Plume.message .authenticateUser [nameOf username, nameOf password]
  | getAllStatuses => Plume.message .getAllStatuses []
  | registerFriend name => Plume.message .registerFriend [nameOf name]
  | unregisterFriend name => Plume.message .unregisterFriend [nameOf name]
  | getStatus name => Plume.message .signCertRequest [nameOf name]
  | registerStatus status => Plume.message .registerStatus [.int status]
  | acceptFriend name => Plume.message .acceptFriend [nameOf name]

/-- The method that a call runs. -/
def Call.method (net : Net) (conn : Address) : Call → Rpc Plume.Value
  | login username password => doAuth net conn (nameOf username) (nameOf password)
  | getAllStatuses => getAllFriendStatuses net conn
  | registerFriend name => Plume.registerFriend net conn (nameOf name) .nil
  | unregisterFriend name => Plume.unregisterFriend net conn (nameOf name) .nil
  | getStatus name => signClientCert net conn (nameOf name)
  | registerStatus status => statusChanged net conn (.int status)
  | acceptFriend name => Plume.acceptFriend net conn (nameOf name)

/-- The strings and the number of a call have their place in the format. -/
def Call.Fits : Call → Prop
  | login username password =>
    (cstringBytes username).length < 2 ^ 32 ∧ (cstringBytes password).length < 2 ^ 32
  | getAllStatuses => True
  | registerFriend name | unregisterFriend name | getStatus name | acceptFriend name =>
    (cstringBytes name).length < 2 ^ 32
  | registerStatus status => status < 2 ^ 31

/-- Runs a method and sends back its reply. -/
def serve (method : Rpc Plume.Value) (conn : Address) (server : Server) : Server :=
  let done := Act.after method server
  let rVal := match Act.result method server with
    | .ok rVal => rVal
    | .error e => errorReply e
  { done with sent := done.sent ++ [(conn, rVal)] }

/-- A call announces as many arguments as it packs. -/
theorem packs_call {op : RpcOpcode} {nargs : Nat} {args : List Token}
    {objects : List Msgpack.Object} (packs : PacksAll args objects)
    (counted : nargs = objects.length) :
    Packs (rpcOp op nargs ++ args) (.array (.uint op.number :: objects)) := by
  have all := PacksAll.cons (packs_uint op.number) packs
  exact packs_array all (by rw [counted, List.length_cons]; omega)

/-- A call with a name. -/
theorem packs_named (op : RpcOpcode) (name : Bytes) :
    Packs (yakCstring (rpcOp op 1) name)
      (.array [.uint op.number, .raw (cstringBytes name)]) :=
  packs_call (.cons (packs_raw _) .nil) rfl

/-- A call is packed as what the server reads. -/
theorem Call.packs (call : Call) : ∃ object,
    Packs call.yak object ∧ valueOf object = call.message := by
  -- The header counts the fields, and each of them is packed as the server reads it.
  cases call with
  | login username password =>
    have both := PacksAll.cons (packs_raw (cstringBytes username))
      (.cons (packs_raw (cstringBytes password)) .nil)
    exact ⟨_, @packs_call .authenticateUser 2 _ _ both rfl, rfl⟩
  | getAllStatuses => exact ⟨_, @packs_call .getAllStatuses 0 _ _ .nil rfl, rfl⟩
  | registerFriend name => exact ⟨_, packs_named .registerFriend name, rfl⟩
  | unregisterFriend name => exact ⟨_, packs_named .unregisterFriend name, rfl⟩
  | getStatus name => exact ⟨_, packs_named .getUserStatus name, rfl⟩
  | registerStatus status =>
    exact ⟨_, @packs_call .registerStatus 1 _ _ (.cons (packs_uint status) .nil) rfl, rfl⟩
  | acceptFriend name => exact ⟨_, packs_named .acceptFriend name, rfl⟩

/-- Nothing that a call packs is too large. -/
theorem Call.Fits.tokens {call : Call} (fits : call.Fits) : ∀ token ∈ call.yak, token.Fits := by
  -- A call on a name packs its header and the name.
  have named : ∀ (op : RpcOpcode) (name : Bytes), (cstringBytes name).length < 2 ^ 32 →
      ∀ token ∈ yakCstring (rpcOp op 1) name, token.Fits := by
    intro op name short token mem
    have small : op.number < 2 ^ 64 := by cases op <;> decide
    simp only [yakCstring, yakString, rpcOp, yakPackInt, yakInit, List.cons_append,
      List.nil_append, List.mem_cons, List.not_mem_nil, or_false] at mem
    rcases mem with rfl | rfl | rfl | rfl
    · exact (by decide : 1 + 1 < 2 ^ 32)
    · exact small
    · exact short
    · trivial
  cases call with
  | login username password =>
    intro token mem
    simp only [yak, rpcLogin, yakCstring, yakString, rpcOp, yakPackInt, yakInit,
      List.cons_append, List.nil_append, List.mem_cons, List.not_mem_nil, or_false] at mem
    rcases mem with rfl | rfl | rfl | rfl | rfl | rfl
    · exact (by decide : 1 + 2 < 2 ^ 32)
    · exact (by decide : 1 < 2 ^ 64)
    · exact fits.1
    · trivial
    · exact fits.2
    · trivial
  | getAllStatuses => decide
  | registerFriend name => exact named .registerFriend name fits
  | unregisterFriend name => exact named .unregisterFriend name fits
  | getStatus name => exact named .getUserStatus name fits
  | registerStatus status =>
    intro token mem
    simp only [yak, rpcRegisterStatus, rpcOp, yakPackInt, yakInit, List.cons_append,
      List.nil_append, List.mem_cons, List.not_mem_nil, or_false] at mem
    rcases mem with rfl | rfl | rfl
    · exact (by decide : 1 + 1 < 2 ^ 32)
    · exact (by decide : 5 < 2 ^ 64)
    · exact Nat.lt_trans fits (by decide)
  | acceptFriend name => exact named .acceptFriend name fits

/-- The bytes of a call are unpacked as what the server reads. -/
theorem Call.Fits.object {call : Call} (fits : call.Fits) (codec : Codec) : ∃ object,
    codec.unpacker.Reads (call.bytes codec) object ∧ valueOf object = call.message := by
  obtain ⟨object, packs, same⟩ := call.packs
  have unpacked := packs.unpack []
  rw [List.append_nil] at unpacked
  exact ⟨object, codec.undoes unpacked fits.tokens, same⟩

/-- The server runs the method of a call, and goes on to the next. -/
theorem Call.dispatched (call : Call) (net : Net) (conn : Address) (server : Server) :
    rpcDispatcher net conn call.message server =
      (true, serve (call.method net conn) conn server) := by
  cases call <;> rfl

end Motmot.Turquoise
