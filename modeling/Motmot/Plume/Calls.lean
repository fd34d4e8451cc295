import Motmot.Plume.Rpc

/-! Two servers whose users befriend each other, their methods cut where they wait for a reply. -/

namespace Motmot.Plume

/-- How far a method gets by itself: to its reply, or to a request to the server of a domain. -/
inductive Ask where
  | done (reply : Value)
  | call (domain : Text) (request : Value) (rest : List Value → Rpc Value)

/-- Goes on with a method, over a network that answers at once. -/
def Ask.resume (net : Net) : Ask → Rpc Value
  | .done reply => return reply
  | .call domain request rest => do
    let answers ← callServer net domain request
    rest answers

/-- Starts a method only if the connection is authenticated. -/
def askAuth (conn : Address) (method : Session → Rpc Ask) : Rpc Ask := do
  let server ← .read
  match server.session conn with
  | none => return .done denied
  | some session => method session

/-- What registering goes on with: a user that the other server does not know is no friend. -/
def registerRest (userName friend : Value) (answers : List Value) : Rpc Value := do
  let rVal ← single answers
  let code ← .ofExcept (rVal.item 0)
  -- The row that was inserted at home is removed again.
  if code.whole = some RemoteMethod.userNotFound.code then
    let _ ← executeQuery (bindTwo userName friend) deleteFriend
    .raise .userNotFound
  else if code.whole ≠ some RemoteMethod.success.code then .raise .rpcError
  else return reply .success "Friend Registered"

/-- What a method goes on with whose request must succeed. -/
def okRest (text : String) (answers : List Value) : Rpc Value := do
  let rVal ← single answers
  let code ← .ofExcept (rVal.item 0)
  if code.whole = some RemoteMethod.success.code then return reply .success text
  else .raise .rpcError

/-- Registering a friend, up to the request. -/
def registerAsk (conn : Address) (friend un : Value) : Rpc Ask :=
  askAuth conn fun session => do
    userExistsIfLocal friend
    let userName := actingName session un
    userExistsIfLocal userName
    let _ ← insertAbsent userName friend
    let domain ← domainOf friend
    let server ← .read
    if domain ≠ server.domain then
      -- A request of another server is pushed to the user whom it names.
      if session.status.isStatus .server then
        let key ← .ofExcept userName.key
        match server.online key with
        | some other =>
          if un.isNone then return .done (reply .success "Friend Registered")
          else
            send other (message .pushFriendRequest [friend])
            return .done (reply .success "Friend Registered")
        | none => return .done (reply .success "Friend Registered")
      else
        return .call domain (message .serverSendFriend [userName, friend])
          (registerRest userName friend)
    else
      -- Friends are bidirectional, so the other row is inserted as well.
      let inserted ← insertAbsent friend userName
      if inserted then
        push friend (message .pushFriendRequest [userName])
        return .done (reply .success "Friend Registered")
      else return .done (reply .success "Friend Registered")

/-- Removing a friend, up to the request. -/
def unregisterAsk (conn : Address) (friend un : Value) : Rpc Ask :=
  askAuth conn fun session => do
    userExistsIfLocal friend
    let userName := actingName session un
    let _ ← executeQuery (bindTwo userName friend) deleteFriend
    let _ ← executeQuery (bindTwo friend userName) deleteFriend
    let domain ← domainOf friend
    let server ← .read
    -- What another server has sent is not passed on.
    if domain ≠ server.domain ∧ session.status.isStatus .server = false then
      return .call domain (message .serverSendUnfriend [userName, friend])
        (okRest "Friend Unregistered")
    else return .done (reply .success "Friend Unregistered")

/-- Accepting a friend request, up to the request. -/
def acceptAsk (conn : Address) (friend : Value) : Rpc Ask :=
  askAuth conn fun acceptor => do
    userExistsIfLocal friend
    let _ ← executeQuery (bindTwo acceptor.name friend) updateFriend
    let domain ← domainOf friend
    let server ← .read
    if domain = server.domain then
      -- Both users are of this domain, and both bits are set.
      let _ ← executeQuery (bindTwo friend acceptor.name) updateFriend
      push friend (message .pushFriendAccept [acceptor.name, acceptor.status])
      return .done (reply .success "Friend Request Accepted")
    else
      return .call domain (message .serverSendAccept [friend, acceptor.name, acceptor.status])
        (okRest "Friend Request Accepted")

/-- The methods with which users befriend each other. -/
inductive Friending where
  | register | unregister | accept
  deriving DecidableEq

/-- A method up to its request. -/
def Friending.ask (conn : Address) (friend : Value) : Friending → Rpc Ask
  | .register => registerAsk conn friend .nil
  | .unregister => unregisterAsk conn friend .nil
  | .accept => acceptAsk conn friend

/-- The two servers. -/
inductive Host where
  | first | second
  deriving DecidableEq

/-- The other server. -/
def Host.other : Host → Host
  | first => second
  | second => first

/-- A call in progress: what was asked of the other server, and its answer once that was given. -/
structure Ongoing where
  home : Host
  method : Friending
  conn : Address
  request : Value
  rest : List Value → Rpc Value
  answer : Option Value

/-- The two servers, and the calls between them that are in progress, the oldest first. -/
structure Duo where
  servers : Host → Server
  pending : List Ongoing

/-- The reply to the result of a method. -/
def replyOf : Except Exn Value → Value
  | .ok rVal => rVal
  | .error e => errorReply e

/-- Sends the reply of a method back to its connection. -/
def Server.replied (server : Server) (conn : Address) (out : Except Exn Value) : Server :=
  { server with sent := server.sent ++ [(conn, replyOf out)] }

namespace Duo

/-- Replaces one of the servers. -/
def put (duo : Duo) (host : Host) (server : Server) : Duo :=
  { duo with servers := Function.update duo.servers host server }

/-- Starts a method for the user of a connection, with the user of the other server as friend. -/
def start (duo : Duo) (host : Host) (conn : Address) (method : Friending) (friend : Value) : Duo :=
  match method.ask conn friend (duo.servers host) with
  -- The method waits for the other server, and its connection for the reply.
  | (.ok (.call _ request rest), mid) =>
    { duo.put host mid with
      pending := duo.pending ++
        [{ home := host, method := method, conn := conn, request := request, rest := rest
           answer := none }] }
  -- The method has come to its reply by itself.
  | (.ok (.done rVal), mid) => duo.put host (mid.replied conn (.ok rVal))
  | (.error e, mid) => duo.put host (mid.replied conn (.error e))

/-- The other server handles the request of a call, on a connection at which a server is known. -/
def serve (duo : Duo) (net : Net) (front : List Ongoing) (call : Ongoing) (rest : List Ongoing)
    (link : Address) : Duo :=
  let server := (rpcDispatcher net link call.request (duo.servers call.home.other)).2
  { duo.put call.home.other server with
    pending := front ++ { call with answer := server.sent.getLast?.map Prod.snd } :: rest }

/-- A call goes on with its answer, and is over. -/
def finish (duo : Duo) (front : List Ongoing) (call : Ongoing) (rest : List Ongoing)
    (answer : Value) : Duo :=
  let (out, mid) := call.rest [answer] (duo.servers call.home)
  { duo.put call.home (mid.replied call.conn out) with pending := front ++ rest }

/-- What happens to the two servers. -/
inductive Event where
  | start (host : Host) (conn : Address) (method : Friending)
  /-- A server authenticates itself over a new connection to the other one. -/
  | link (host : Host) (conn : Address)
  | serve (index : Nat) (link : Address)
  | finish (index : Nat)

/-- One event, if it can happen; the users and their names are the same all along. -/
def step (net : Net) (names : Host → Text) (duo : Duo) : Event → Option Duo
  | .start host conn method =>
    match (duo.servers host).session conn with
    | some ⟨.raw name, status⟩ =>
      -- The methods are called by users, for themselves.
      if name = names host ∧ status.isStatus .server = false then
        some (duo.start host conn method (.raw (names host.other)))
      else none
    | _ => none
  | .link host conn =>
    -- A new connection is authenticated as nothing yet.
    if ((duo.servers host).session conn).isNone then
      some (duo.put host (rpcDispatcher net conn
        (message .authenticateServer [.raw (duo.servers host.other).domain]) (duo.servers host)).2)
    else none
  | .serve index link =>
    match duo.pending[index]? with
    | some call =>
      match call.answer, (duo.servers call.home.other).session link with
      -- A request is handled once, on a connection that is authenticated as a server.
      | none, some session =>
        if session.status.isStatus .server then
          some (duo.serve net (duo.pending.take index) call (duo.pending.drop (index + 1)) link)
        else none
      | _, _ => none
    | none => none
  | .finish index =>
    match duo.pending[index]? with
    | some call =>
      match call.answer with
      | some answer =>
        some (duo.finish (duo.pending.take index) call (duo.pending.drop (index + 1)) answer)
      | none => none
    | none => none

/-- The events of a run, one after the other. -/
def exec (net : Net) (names : Host → Text) (duo : Duo) (events : List Event) : Option Duo :=
  events.foldlM (step net names) duo

end Duo

end Motmot.Plume
