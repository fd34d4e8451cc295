import Motmot.Plume.Methods

/-! Dispatch of the messages of a connection to the remote methods. -/

namespace Motmot.Plume

/-- The functions of the dispatch table. -/
inductive Handler where
  | doAuth
  | registerFriend
  | unregisterFriend
  | nop
  | statusChanged
  | doAuthServer
  | acceptFriend
  | serverAcceptFriend
  | serverStatusChange
  | getAllFriendStatuses
  | serverGetStatus
  | noResp
  | signClientCert
  | getUserStatus
  deriving DecidableEq

/-- Users and servers send different codes for some of the same functions. -/
def dispatchTable : List (RemoteMethod × Handler) :=
  [(.authenticateUser, .doAuth),
   (.registerFriend, .registerFriend),
   (.unregisterFriend, .unregisterFriend),
   (.getFriendIp, .nop),
   (.registerStatus, .statusChanged),
   (.authenticateServer, .doAuthServer),
   (.serverSendFriend, .registerFriend),
   (.serverSendUnfriend, .unregisterFriend),
   (.acceptFriend, .acceptFriend),
   (.serverSendAccept, .serverAcceptFriend),
   (.serverSendStatusChanged, .serverStatusChange),
   (.getAllStatuses, .getAllFriendStatuses),
   (.serverGetStatus, .serverGetStatus),
   (.success, .noResp),
   (.signCertRequest, .signClientCert),
   (.getUserStatus, .getUserStatus)]

/-- The function that the dispatch table has for an opcode. -/
def dispatched (opcode : Value) : Option Handler :=
  (dispatchTable.find? fun entry => opcode.whole = some entry.1.code).map Prod.snd

/-- Calls a function with the arguments of a message, of which there must be the right number. -/
def Handler.call (net : Net) (conn : Address) : Handler → List Value → Rpc Value
  | .doAuth, [userName, password] => Plume.doAuth net conn userName password
  | .registerFriend, [friend] => Plume.registerFriend net conn friend .nil
  | .registerFriend, [friend, un] => Plume.registerFriend net conn friend un
  | .unregisterFriend, [friend] => Plume.unregisterFriend net conn friend .nil
  | .unregisterFriend, [friend, un] => Plume.unregisterFriend net conn friend un
  | .nop, args => Plume.nop args
  | .statusChanged, [stat] => Plume.statusChanged net conn stat
  | .doAuthServer, [hostName] => Plume.doAuthServer net conn hostName
  | .acceptFriend, [friend] => Plume.acceptFriend net conn friend
  | .serverAcceptFriend, [userName, friend, status] =>
    Plume.serverAcceptFriend conn userName friend status
  | .serverStatusChange, [userName, _] => Plume.serverStatusChange conn userName
  | .getAllFriendStatuses, [] => Plume.getAllFriendStatuses net conn
  | .serverGetStatus, [users] => Plume.serverGetStatus conn users
  | .noResp, _ => Plume.noResp
  | .signClientCert, [certStr] => Plume.signClientCert net conn certStr
  | .getUserStatus, [userName] => Plume.getUserStatus net conn userName
  -- A call with the wrong number of arguments raises a type error.
  | _, _ => .raise .typeError

/-- The reply for an exception. The ones that are not caught leave the reply empty. -/
def errorReply : Exn → Value
  | .gaierror => reply .friendServerDown "Connection to Friend Server could not be made"
  | .socketError => reply .friendServerDown "Connection to Friend Server could not be made"
  | .rpcError => reply .friendServerDown "Connection to Friend Server could not be made"
  | .certNameMismatch => reply .certDenied "Username on cert does not match current user"
  | .typeError => reply .badMessage "Error in Message"
  | .userNotFound => reply .userNotFound "Specified User Could Not Be Found"
  | .invalidUserName => reply .userNotFound "Invalid Username"
  | .cryptoError => reply .certDenied "Bad Certificate"
  | .notStatus => reply .badStatus "Not a Valid Status Code"
  | _ => .array []

/-- Calls a function and sends back its reply. -/
def writeback (net : Net) (conn : Address) (fn : Handler) (args : List Value) (server : Server) :
    Server :=
  let done := Act.after (fn.call net conn args) server
  let rVal := match Act.result (fn.call net conn args) server with
    | .ok rVal => rVal
    | .error e => errorReply e
  { done with sent := done.sent ++ [(conn, rVal)] }

/-- What comes of printing an opcode as a number. -/
def decimal : Value → Except Exn Unit
  | .bool _ | .int _ => .ok ()
  | .real text _ =>
    if text = "inf".toList ∨ text = "-inf".toList then .error .overflowError
    else if text = "nan".toList then .error .valueError
    else .ok ()
  | _ => .error .typeError

/-- Whether the loop of a connection goes on: of all exceptions it catches only type errors. -/
def goesOn : Except Exn Unit → Bool
  | .ok _ => true
  | .error e => e = .typeError

/-- Handles one message of a connection, and tells whether the loop goes on to the next. -/
def rpcDispatcher (net : Net) (conn : Address) (o : Value) (server : Server) : Bool × Server :=
  match o with
  | .array (opcode :: args) =>
    match dispatched opcode with
    -- Exceptions of the function are caught where it is called, so the loop goes on.
    | some fn => (true, writeback net conn fn args server)
    -- An unknown opcode is printed as a number, which it may not be.
    | none => (goesOn (decimal opcode), server)
  | _ =>
    -- Only a list can be cut, so no function is called for a message of any other form.
    (goesOn do
      let opcode ← o.item 0
      if (dispatched opcode).isSome then .error .typeError else decimal opcode, server)

/-- A message that a loop takes up: on which connection, and what lies outside by then. -/
structure Arrival where
  conn : Address
  message : Value
  net : Net

/-- Handles an arrival. -/
def Server.receive (server : Server) (arrival : Arrival) : Server :=
  (rpcDispatcher arrival.net arrival.conn arrival.message server).2

/-- Handles arrivals one after the other. -/
def Server.serve (server : Server) (arrivals : List Arrival) : Server :=
  arrivals.foldl Server.receive server

/-- Whether a message leaves the loop of its connection running. -/
def Arrival.survived (arrival : Arrival) (server : Server) : Bool :=
  (rpcDispatcher arrival.net arrival.conn arrival.message server).1

/-- Handles what comes in, of which nothing is taken up on connections whose loop has ended. -/
def Server.run (ended : List Address) (server : Server) : List Arrival → Server
  | [] => server
  | arrival :: rest =>
    -- Nobody reads from this connection any more.
    if arrival.conn ∈ ended then server.run ended rest
    else
      let ended := if arrival.survived server then ended else arrival.conn :: ended
      (server.receive arrival).run ended rest

@[simp] theorem Server.serve_nil (server : Server) : server.serve [] = server := rfl

@[simp] theorem Server.serve_append (server : Server) (first rest : List Arrival) :
    server.serve (first ++ rest) = (server.serve first).serve rest := by
  simp [Server.serve]

@[simp] theorem Server.serve_cons (server : Server) (arrival : Arrival) (rest : List Arrival) :
    server.serve (arrival :: rest) = (server.receive arrival).serve rest := rfl

/-- What comes of all that comes in is what comes of the part of it that is taken up. -/
theorem Server.run_eq_serve (ended : List Address) (server : Server) (arrivals : List Arrival) :
    ∃ taken, taken.Sublist arrivals ∧ server.run ended arrivals = server.serve taken := by
  -- By induction on the arrivals: one is passed over only on a connection that has ended.
  induction arrivals generalizing ended server with
  | nil => exact ⟨[], List.Sublist.slnil, rfl⟩
  | cons arrival rest ih =>
    unfold Server.run
    split
    · obtain ⟨taken, part, same⟩ := ih ended server
      exact ⟨taken, part.cons arrival, same⟩
    · obtain ⟨taken, part, same⟩ := ih _ (server.receive arrival)
      exact ⟨arrival :: taken, part.cons_cons arrival, same⟩

end Motmot.Plume
