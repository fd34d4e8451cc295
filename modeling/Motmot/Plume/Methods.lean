import Motmot.Plume.Mothelper

/-! The remote methods of the server. -/

namespace Motmot.Plume

/-- The codes of requests and of replies. -/
inductive RemoteMethod where
  | authenticateUser
  | registerFriend
  | unregisterFriend
  | getFriendIp
  | registerStatus
  | acceptFriend
  | getAllStatuses
  | signCertRequest
  | getUserStatus
  | pushClientStatus
  | pushFriendAccept
  | pushFriendRequest
  | authenticateServer
  | serverSendFriend
  | serverSendUnfriend
  | serverSendStatusChanged
  | serverSendAccept
  | serverGetStatus
  | success
  | authenticated
  | authFailed
  | accessDenied
  | allStatusResponse
  | serverGetStatusResp
  | signCertResp
  | userStatusResp
  | friendServerDown
  | badMessage
  | userNotFound
  | certDenied
  | badStatus
  deriving DecidableEq

/-- The number of each code. -/
def RemoteMethod.code : RemoteMethod → Int
  | authenticateUser => 1
  | registerFriend => 2
  | unregisterFriend => 3
  | getFriendIp => 4
  | registerStatus => 5
  | acceptFriend => 6
  | getAllStatuses => 7
  | signCertRequest => 8
  | getUserStatus => 9
  | pushClientStatus => 20
  | pushFriendAccept => 21
  | pushFriendRequest => 22
  | authenticateServer => 30
  | serverSendFriend => 31
  | serverSendUnfriend => 32
  | serverSendStatusChanged => 33
  | serverSendAccept => 34
  | serverGetStatus => 35
  | success => 60
  | authenticated => 61
  | authFailed => 62
  | accessDenied => 63
  | allStatusResponse => 65
  | serverGetStatusResp => 66
  | signCertResp => 67
  | userStatusResp => 68
  | friendServerDown => 91
  | badMessage => 92
  | userNotFound => 93
  | certDenied => 94
  | badStatus => 95

/-- A message that starts with a code. -/
def message (code : RemoteMethod) (rest : List Value) : Value := .array (.int code.code :: rest)

/-- A reply with a text. -/
def reply (code : RemoteMethod) (text : String) : Value := message code [.text text]

/-- The statuses of connections. -/
inductive Status where
  | online
  | away
  | offline
  | busy
  | server
  deriving DecidableEq

/-- The number of each status. -/
def Status.code : Status → Int
  | online => 1
  | away => 2
  | offline => 3
  | busy => 4
  | server => 5

/-- A status as a value. -/
def Status.value (status : Status) : Value := .int status.code

/-- Whether a value is equal to a status. -/
def Value.isStatus (status : Status) (value : Value) : Bool := value.whole = some status.code

/-- What comes of a connection to another server. -/
inductive Exchange where
  | down
  /-- The reply to the authentication, and the messages in the reply to the request. -/
  | replies (auth : Value) (answers : List Value)

/-- What lies outside the server while a method runs. -/
structure Net where
  /-- The address of a host name. -/
  gethostbyname : Text → Option Text
  /-- What the server of a domain replies to a request. -/
  exchange : Text → Value → Exchange
  /-- The signing of a client's certificate for a name. -/
  signCert : Value → Value → Except Exn Value

/-- The reply to a connection that is not authenticated. -/
def denied : Value := reply .accessDenied "Access Denied"

/-- The session of a connection. -/
def Server.session (server : Server) (conn : Address) : Option Session :=
  server.authList.lookup conn

/-- The connection that is authenticated under a name. -/
def Server.online (server : Server) (name : Key) : Option Address := server.connTbl.lookup name

/-- Runs a method only if the connection is authenticated. -/
def ifAuth (conn : Address) (method : Session → Rpc Value) : Rpc Value := do
  -- The connection is looked up by its address.
  let server ← .read
  match server.session conn with
  | none => return denied
  | some session => method session

/-- Looks up an address in `authList`, which must have it. -/
def authListAt (conn : Address) : Rpc Session := do
  let server ← .read
  match server.session conn with
  | none => .raise .keyError
  | some session => return session

/-- Checks that a user exists. -/
def userExists (userName : Value) : Rpc Unit := do
  let cnt ← executeQuery (bindOne userName) countUser
  let count ← fetched cnt
  if count = 1 then return () else .raise .userNotFound

/-- Checks that a name which has the domain of the server in it is that of a user. -/
def userExistsIfLocal (name : Value) : Rpc Unit := do
  let server ← .read
  let isLocal ← .ofExcept (name.contains server.domain)
  if isLocal then userExists name else return ()

/-- Checks the form of a name. -/
def validateName (userName : Value) : Rpc Unit := do
  let hasAt ← .ofExcept (userName.contains ['@'])
  if hasAt then return () else .raise .invalidUserName

/-- The domain of a name. -/
def domainOf (name : Value) : Rpc Text := do
  let splt ← .ofExcept name.split
  .ofExcept (second splt)

/-- Sends a request to the server of another domain over an authenticated connection. -/
def callServer (net : Net) (domain : Text) (request : Value) : Rpc (List Value) := do
  match net.gethostbyname domain with
  | none => .raise .gaierror
  | some _ =>
    match net.exchange domain request with
    | .down => .raise .socketError
    | .replies auth answers =>
      -- The request is sent once the answer to the authentication has been read.
      let code ← .ofExcept (auth.item 0)
      if code.whole = some RemoteMethod.authenticated.code then return answers
      else .raise .rpcError

/-- The one message in the reply of another server. -/
def single : List Value → Rpc Value
  | [answer] => .ret answer
  -- An unpacker that is fed anything but one message raises an exception.
  | _ => .raise .valueError

/-- Sends a request to another server which must reply that it succeeded. -/
def callServerOk (net : Net) (domain : Text) (request : Value) : Rpc Unit := do
  let answers ← callServer net domain request
  let rVal ← single answers
  let code ← .ofExcept (rVal.item 0)
  if code.whole = some RemoteMethod.success.code then return () else .raise .rpcError

/-- Pushes a message to a name if it is online. -/
def push (name : Value) (note : Value) : Rpc Unit := do
  let server ← .read
  let key ← .ofExcept name.key
  match server.online key with
  | some conn => send conn note
  | none => return ()

/-- The accepted friends of a name, as the first or the second column of the rows has them. -/
def acceptedFriends (name : Option Text) (server : Server) : List (Option Text) :=
  (server.friends.filter fun row =>
    sqlEq row.userName name && row.accepted = isAccepted).map Friendship.friend

/-- The names that have a name as an accepted friend. -/
def acceptedFollowers (name : Option Text) (server : Server) : List (Option Text) :=
  (server.friends.filter fun row =>
    sqlEq row.friend name && row.accepted = isAccepted).map Friendship.userName

/-- A column of a row as a value. -/
def columnValue : Option Text → Value
  | none => .nil
  | some text => .raw text

/-- A column of a row as the key of a dictionary. -/
def columnKey : Option Text → Key
  | none => .nil
  | some text => .text text

/-- An address as the values that messages have of it. -/
def Address.values (conn : Address) : List Value := [.raw conn.ip, .int conn.port]

/-- A session as a value. -/
def Session.value (session : Session) : Value := .array [session.name, session.status]

/-- The status that is reported of a name which is not online. -/
def offlineValue (name : Value) : Value :=
  .array [.array [name, Status.offline.value], .int 0, .int 0]

/-- The status that is reported of a name. -/
def statusOf (name : Value) : Rpc Value := do
  let server ← .read
  let key ← .ofExcept name.key
  match server.online key with
  | some conn =>
    let session ← authListAt conn
    return .array (session.value :: conn.values)
  | none => return offlineValue name

/-- Sends a status update to each friend of a user, once to each other domain. -/
def pushStatus (net : Net) (conn : Address) (userName stat : Value) :
    List (Option Text) → List Text → Rpc Unit
  | [], _ => return ()
  | friend :: rows, sentList => do
    let server ← .read
    let domain ← domainOf (columnValue friend)
    -- A friend of this domain is told over the connection that the friend has.
    if domain = server.domain then
      push (columnValue friend)
        (message .pushClientStatus (userName :: stat :: conn.values))
      pushStatus net conn userName stat rows sentList
    -- A server that has been told is not told again.
    else if domain ∈ sentList then pushStatus net conn userName stat rows sentList
    else
      callServerOk net domain (message .serverSendStatusChanged [userName, stat])
      pushStatus net conn userName stat rows (sentList ++ [domain])

/-- Handles a status change. -/
def statusChanged (net : Net) (conn : Address) (stat : Value) : Rpc Value :=
  ifAuth conn fun session => do
    if stat.isStatus .online || stat.isStatus .offline || stat.isStatus .busy
        || stat.isStatus .away then
      .write fun server =>
        { server with authList := assign conn { session with status := stat } server.authList }
      let server ← .read
      match session.name.bind with
      | .ok name =>
        pushStatus net conn session.name stat (acceptedFriends name server) []
        return reply .success "Status Updated"
      -- Errors of the database are printed and nothing is sent.
      | .error .databaseError => return reply .success "Status Updated"
      | .error e => .raise e
    else .raise .notStatus

/-- Authenticates the connection of a user. -/
def doAuth (net : Net) (conn : Address) (userName password : Value) : Rpc Value := do
  match bindTwo userName password with
  | .ok (name, pass) =>
    let server ← .read
    if (server.users.countP fun row => sqlEq row.userName name && sqlEq row.password pass) = 1 then
      .write fun server =>
        -- The login replaces what the connection was authenticated as before.
        { server with authList := assign conn ⟨userName, Status.online.value⟩ server.authList }
      let key ← .ofExcept userName.key
      .write fun server => { server with connTbl := assign key conn server.connTbl }
      let _ ← statusChanged net conn Status.online.value
      return reply .authenticated "Authentication Succeeded"
    else return reply .authFailed "Authentication Failed"
  -- An error of the database ends the server.
  | .error .databaseError => .raise .systemExit
  | .error e => .raise e

/-- Forgets a connection whose user disconnects. -/
def userDisc (conn : Address) : Rpc Unit := do
  let server ← .read
  match server.session conn with
  | none => return ()
  | some session =>
    let key ← .ofExcept session.name.key
    .write fun server =>
      { server with
        connTbl := remove key server.connTbl
        authList := remove conn server.authList }

/-- Authenticates the connection of a server by the address of its host name. -/
def doAuthServer (net : Net) (conn : Address) (hostName : Value) : Rpc Value := do
  match hostName with
  | .raw host =>
    match net.gethostbyname host with
    | none => .raise .gaierror
    | some hostIp =>
      -- The host name must lead to the address that the connection is from.
      if hostIp = conn.ip then
        .write fun server =>
          { server with
            authList := assign conn ⟨hostName, Status.server.value⟩ server.authList
            connTbl := assign (.text host) conn server.connTbl }
        return reply .authenticated "Authentication Succeeded"
      else return reply .authFailed "Authentication Failed"
  | _ => .raise .typeError

/-- The name that a method acts for: the one in the message, or the one of the session. -/
def actingName (session : Session) (un : Value) : Value :=
  if un.isNone then session.name else un

/-- Inserts a row unless there is one. -/
def insertAbsent (userName friend : Value) : Rpc Bool := do
  let cnt ← executeQuery (bindTwo userName friend) countFriend
  let count ← fetched cnt
  -- A row is not inserted twice.
  if count = 0 then
    let _ ← executeQuery (bindTwo userName friend) insertFriend
    return true
  else return false

/-- Registers a friend request. -/
def registerFriend (net : Net) (conn : Address) (friend un : Value) : Rpc Value :=
  ifAuth conn fun session => do
    userExistsIfLocal friend
    let userName := actingName session un
    userExistsIfLocal userName
    let _ ← insertAbsent userName friend
    let domain ← domainOf friend
    let server ← .read
    if domain ≠ server.domain then
      if session.status.isStatus .server then
        -- A request from another server is pushed to the user that it names.
        let key ← .ofExcept userName.key
        match server.online key with
        | some other =>
          if un.isNone then return reply .success "Friend Registered"
          else
            send other (message .pushFriendRequest [friend])
            return reply .success "Friend Registered"
        | none => return reply .success "Friend Registered"
      else
        let answers ← callServer net domain (message .serverSendFriend [userName, friend])
        let rVal ← single answers
        let code ← .ofExcept (rVal.item 0)
        -- The row is removed again for a friend whom the other server does not know.
        if code.whole = some RemoteMethod.userNotFound.code then
          let _ ← executeQuery (bindTwo userName friend) deleteFriend
          .raise .userNotFound
        else if code.whole ≠ some RemoteMethod.success.code then .raise .rpcError
        else return reply .success "Friend Registered"
    else
      -- Friends are bidirectional, so the other row is inserted as well.
      let inserted ← insertAbsent friend userName
      if inserted then
        push friend (message .pushFriendRequest [userName])
        return reply .success "Friend Registered"
      else return reply .success "Friend Registered"

/-- Removes a friend, or a friend request. -/
def unregisterFriend (net : Net) (conn : Address) (friend un : Value) : Rpc Value :=
  ifAuth conn fun session => do
    userExistsIfLocal friend
    let userName := actingName session un
    -- Both directions are deleted, whether they are there or not.
    let _ ← executeQuery (bindTwo userName friend) deleteFriend
    let _ ← executeQuery (bindTwo friend userName) deleteFriend
    let domain ← domainOf friend
    let server ← .read
    -- What another server has sent is not passed on.
    if domain ≠ server.domain ∧ session.status.isStatus .server = false then
      callServerOk net domain (message .serverSendUnfriend [userName, friend])
      return reply .success "Friend Unregistered"
    else return reply .success "Friend Unregistered"

/-- Accepts a friend request. -/
def acceptFriend (net : Net) (conn : Address) (friend : Value) : Rpc Value :=
  ifAuth conn fun acceptor => do
    userExistsIfLocal friend
    -- The accept bit of the user that accepts.
    let _ ← executeQuery (bindTwo acceptor.name friend) updateFriend
    let domain ← domainOf friend
    let server ← .read
    if domain = server.domain then
      -- Both users are of this domain, and both bits are set.
      let _ ← executeQuery (bindTwo friend acceptor.name) updateFriend
      push friend (message .pushFriendAccept [acceptor.name, acceptor.status])
      return reply .success "Friend Request Accepted"
    else
      callServerOk net domain
        (message .serverSendAccept [friend, acceptor.name, acceptor.status])
      return reply .success "Friend Request Accepted"

/-- Takes the news of another server that a request has been accepted. -/
def serverAcceptFriend (conn : Address) (userName friend status : Value) : Rpc Value :=
  ifAuth conn fun _ => do
    userExistsIfLocal userName
    let _ ← executeQuery (bindTwo userName friend) updateFriend
    push userName (message .pushFriendAccept [friend, status])
    return reply .success "Friend Accepted"

/-- Takes the news of another server that the status of a user has changed. -/
def serverStatusChange (conn : Address) (userName : Value) : Rpc Value :=
  ifAuth conn fun _ => do
    let server ← .read
    match userName.bind with
    | .ok name =>
      -- The connection of an online follower is subscripted, which it does not support.
      if (acceptedFollowers name server).any fun user =>
          (server.online (columnKey user)).isSome then
        .raise .attributeError
      else return reply .success "Status Accepted"
    | .error .databaseError => return reply .success "Status Accepted"
    | .error e => .raise e

/-- Sorts friends into the online and offline ones of this domain and those of each other. -/
def localStatuses : List (Option Text) → List (Text × List Value) →
    Rpc (List Value × List (Text × List Value))
  | [], frByDom => return ([], frByDom)
  | friend :: rows, frByDom => do
    let server ← .read
    let domain ← domainOf (columnValue friend)
    if domain = server.domain then
      let status ← statusOf (columnValue friend)
      let (rList, others) ← localStatuses rows frByDom
      return (status :: rList, others)
    -- The names of another domain are collected for one request.
    else
      let known := (frByDom.lookup domain).getD []
      localStatuses rows (assign domain (known ++ [columnValue friend]) frByDom)

/-- The statuses in the messages with which another server replies. -/
def readStatuses : List Value → Rpc (List Value)
  | [] => return []
  | x :: up => do
    let code ← .ofExcept (x.item 0)
    -- One reply of any other kind gives up all statuses.
    if code.whole = some RemoteMethod.serverGetStatusResp.code then
      let list ← .ofExcept (x.item 1)
      let statuses ← .ofExcept list.iterate
      let rest ← readStatuses up
      return statuses ++ rest
    else .raise .rpcError

/-- Asks each other domain for the statuses of the friends there. -/
def remoteStatuses (net : Net) : List (Text × List Value) → Rpc (List Value)
  | [] => return []
  | (dom, friends) :: frByDom => do
    let answers ← callServer net dom (message .serverGetStatus [.array friends])
    let statuses ← readStatuses answers
    let rest ← remoteStatuses net frByDom
    return statuses ++ rest

/-- The status of all accepted friends. -/
def getAllFriendStatuses (net : Net) (conn : Address) : Rpc Value :=
  ifAuth conn fun session => do
    let server ← .read
    match session.name.bind with
    | .ok name =>
      let (rList, frByDom) ← localStatuses (acceptedFriends name server) []
      let others ← remoteStatuses net frByDom
      return message .allStatusResponse [.array (rList ++ others)]
    | .error .databaseError => return message .allStatusResponse [.array []]
    | .error e => .raise e

/-- The statuses of a list of users. -/
def statusesOf : List Value → Rpc (List Value)
  | [] => return []
  | user :: users => do
    let status ← statusOf user
    let rest ← statusesOf users
    return status :: rest

/-- The statuses that another server asks for. -/
def serverGetStatus (conn : Address) (users : Value) : Rpc Value :=
  ifAuth conn fun _ => do
    let names ← .ofExcept users.iterate
    let rList ← statusesOf names
    return message .serverGetStatusResp [.array rList]

/-- Signs the certificate of a client. -/
def signClientCert (net : Net) (conn : Address) (certStr : Value) : Rpc Value :=
  ifAuth conn fun session => do
    let signed ← .ofExcept (net.signCert certStr session.name)
    return message .signCertResp [signed]

/-- The status of one user, here or on another server. -/
def getUserStatus (net : Net) (conn : Address) (userName : Value) : Rpc Value :=
  ifAuth conn fun _ => do
    validateName userName
    let domain ← domainOf userName
    let server ← .read
    -- A user of this domain must have an account, online or not.
    if domain = server.domain then
      userExists userName
      let status ← statusOf userName
      return message .userStatusResp [status]
    else
      let answers ← callServer net domain (message .getUserStatus [userName])
      let rVal ← single answers
      let code ← .ofExcept (rVal.item 0)
      if code.whole = some RemoteMethod.userNotFound.code then .raise .userNotFound
      else if code.whole = some RemoteMethod.userStatusResp.code then
        let status ← .ofExcept (rVal.item 1)
        return message .userStatusResp [status]
      else .raise .rpcError

/-- Acknowledges its arguments. -/
def nop (args : List Value) : Rpc Value := .ret (.map [(.text "ack", .array args)])

/-- Takes a response to an update. -/
def noResp : Rpc Value := .ret .nil

end Motmot.Plume
