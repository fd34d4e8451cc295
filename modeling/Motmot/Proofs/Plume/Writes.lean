import Motmot.Plume.Rpc

/-!
What the remote methods can do to the table of friendships.

Each function of the dispatch table writes the table through a few statements, whose parameters
come from the session of the connection and from the message.
-/

namespace Motmot.Plume

open Act

/-- The statements that write the table of friendships. -/
inductive Write where
  | insert
  | delete
  | update

/-- What a statement makes of the table. -/
def Write.run : Write → Option Text × Option Text → List Friendship → List Friendship
  | insert, pair, rows => rows ++ [⟨pair.1, pair.2, notAccepted⟩]
  | delete, pair, rows => rows.filter fun row => !row.named pair
  | update, pair, rows => rows.map (Friendship.update pair)

/-- Whether a text can be looked for in a value, which every name in a message has to pass. -/
def Value.searchable : Value → Bool
  | .raw _ => true
  | .array _ => true
  | .map _ => true
  | _ => false

/-- The statements that a function may run, with the values that their parameters are bound to. -/
def Handler.writes (session : Session) : Handler → List Value → List (Write × Value × Value)
  | .registerFriend, [friend] =>
    if friend.searchable && session.name.searchable then
      [(.insert, session.name, friend), (.insert, friend, session.name),
       (.delete, session.name, friend)]
    else []
  | .registerFriend, [friend, un] =>
    if friend.searchable && (actingName session un).searchable then
      [(.insert, actingName session un, friend), (.insert, friend, actingName session un),
       (.delete, actingName session un, friend)]
    else []
  | .unregisterFriend, [friend] =>
    if friend.searchable then
      [(.delete, session.name, friend), (.delete, friend, session.name)]
    else []
  | .unregisterFriend, [friend, un] =>
    if friend.searchable then
      [(.delete, actingName session un, friend), (.delete, friend, actingName session un)]
    else []
  | .acceptFriend, [friend] =>
    if friend.searchable then
      [(.update, session.name, friend), (.update, friend, session.name)]
    else []
  | .serverAcceptFriend, [userName, friend, _] =>
    if userName.searchable then [(.update, userName, friend)] else []
  | _, _ => []

/-- A property of the table, on a server whose accounts and domain are given. -/
structure Stands (table : List Friendship → Prop) (accounts : List Account) (domain : Text)
    (server : Server) : Prop where
  friends : table server.friends
  users : server.users = accounts
  domain : server.domain = domain

/-- An action keeps a property of the table, the accounts and the domain. -/
abbrev Minds (table : List Friendship → Prop) (accounts : List Account) (domain : Text) {α : Type}
    (act : Rpc α) : Prop :=
  Keeps (Stands table accounts domain) act fun _ => True

/-- A property of the table that a statement keeps for the values it is run with. -/
def Bears (table : List Friendship → Prop) (write : Write) (x y : Value) : Prop :=
  ∀ pair, bindTwo x y = .ok pair → ∀ rows, table rows → table (write.run pair rows)

/-- A property of the server that a statement keeps for the values it is run with. -/
def Endures (inv : Server → Prop) (write : Write) (x y : Value) : Prop :=
  ∀ pair, bindTwo x y = .ok pair →
    ∀ server, inv server → inv { server with friends := write.run pair server.friends }

variable {table : List Friendship → Prop} {accounts : List Account} {home : Text} {net : Net}
  {conn : Address} {inv : Server → Prop}

/-- A property of the server that has nothing to do with the messages it has sent. -/
class Silent (inv : Server → Prop) : Prop where
  send : ∀ server other note, inv server →
    inv { server with sent := server.sent ++ [(other, note)] }

instance : Silent (Stands table accounts home) where
  send := fun _ _ _ holds => ⟨holds.friends, holds.users, holds.domain⟩

theorem Bears.endures {write : Write} {x y : Value} (bears : Bears table write x y) :
    Endures (Stands table accounts home) write x y :=
  fun pair bound _ holds => ⟨bears pair bound _ holds.friends, holds.users, holds.domain⟩

/-- A query that leaves the server alone keeps every property of it. -/
theorem executeQuery_read {π : Type} {params : Except Exn π}
    {statement : π → Server → Option Nat × Server}
    (same : ∀ bound server, (statement bound server).2 = server) :
    Keeps inv (executeQuery params statement) fun _ => True := by
  unfold executeQuery
  split
  · -- The query is carried out, with an effect that the property does not see.
    refine .andThen .look fun server => .andThen (.write trivial ?_) fun _ => .pure trivial
    intro state holds
    rwa [same]
  · exact .pure trivial
  · exact .raise

/-- A query that writes the table keeps what its statement keeps. -/
theorem executeQuery_write {x y : Value} {write : Write}
    {statement : Option Text × Option Text → Server → Option Nat × Server}
    (runs : ∀ pair server,
      (statement pair server).2 = { server with friends := write.run pair server.friends })
    (endures : Endures inv write x y) :
    Keeps inv (executeQuery (bindTwo x y) statement) fun _ => True := by
  unfold executeQuery
  split
  · rename_i pair bound
    -- The names are bound, so the statement is run on the rows.
    refine .andThen .look fun server => .andThen (.write trivial ?_) fun _ => .pure trivial
    intro state holds
    rw [runs]
    exact endures pair bound state holds
  · exact .pure trivial
  · exact .raise

theorem minds_fetched (cnt : Option Nat) : Keeps inv (fetched cnt) fun _ => True := by
  cases cnt with
  | none => exact .raise
  | some n => exact .pure trivial

theorem minds_ofExcept {α : Type} (value : Except Exn α) :
    Keeps inv (Act.ofExcept value) fun _ => True :=
  .ofExcept fun _ _ => trivial

theorem minds_send [Silent inv] (other : Address) (note : Value) :
    Keeps inv (send other note) fun _ => True :=
  .write trivial fun _ holds => Silent.send _ _ _ holds

theorem minds_push [Silent inv] (name note : Value) : Keeps inv (push name note) fun _ => True := by
  refine .andThen .look fun server => .andThen (minds_ofExcept _) fun key => ?_
  split
  · exact minds_send _ _
  · exact .pure trivial

theorem minds_authListAt (key : Address) : Keeps inv (authListAt key) fun _ => True := by
  refine .andThen .look fun server => ?_
  split
  · exact .raise
  · exact .pure trivial

theorem minds_userExists (name : Value) : Keeps inv (userExists name) fun _ => True := by
  refine .andThen (executeQuery_read fun _ _ => rfl) fun cnt =>
    .andThen (minds_fetched cnt) fun count => ?_
  exact .ite (fun _ => .pure trivial) fun _ => .raise

/-- A name passes the check of local names only if a text can be looked for in it. -/
theorem minds_userExistsIfLocal (name : Value) :
    Keeps inv (userExistsIfLocal name) fun _ => name.searchable = true := by
  -- Only in a text can the domain be looked for.
  refine .andThen .look fun server => ?_
  cases name with
  | nil => exact .raised
  | bool b => exact .raised
  | int i => exact .raised
  | real t w => exact .raised
  | raw bytes =>
    refine .andThen (minds_ofExcept _) fun isLocal => .ite (fun _ => ?_) fun _ => .pure rfl
    exact (minds_userExists _).weaken fun _ _ => rfl
  | array items =>
    refine .andThen (minds_ofExcept _) fun isLocal => .ite (fun _ => ?_) fun _ => .pure rfl
    exact (minds_userExists _).weaken fun _ _ => rfl
  | map entries =>
    refine .andThen (minds_ofExcept _) fun isLocal => .ite (fun _ => ?_) fun _ => .pure rfl
    exact (minds_userExists _).weaken fun _ _ => rfl

theorem minds_validateName (name : Value) : Keeps inv (validateName name) fun _ => True := by
  refine .andThen (minds_ofExcept _) fun hasAt => ?_
  exact .ite (fun _ => .pure trivial) fun _ => .raise

theorem minds_domainOf (name : Value) : Keeps inv (domainOf name) fun _ => True :=
  .andThen (minds_ofExcept _) fun _ => minds_ofExcept _

theorem minds_single (answers : List Value) : Keeps inv (single answers) fun _ => True := by
  unfold single
  split
  · exact .pure trivial
  · exact .raise

/-- Other servers are not asked to write this one. -/
theorem minds_callServer (domain : Text) (request : Value) :
    Keeps inv (callServer net domain request) fun _ => True := by
  unfold callServer
  -- The address, the connection and the reply may each fail, without a write here.
  split
  · exact .raise
  · split
    · exact .raise
    · refine .andThen (minds_ofExcept _) fun code => ?_
      exact .ite (fun _ => .pure trivial) fun _ => .raise

theorem minds_callServerOk (domain : Text) (request : Value) :
    Keeps inv (callServerOk net domain request) fun _ => True := by
  refine .andThen (minds_callServer _ _) fun answers => .andThen (minds_single _) fun rVal =>
    .andThen (minds_ofExcept _) fun code => ?_
  exact .ite (fun _ => .pure trivial) fun _ => .raise

theorem minds_ifAuth {method : Session → Rpc Value}
    (keeps : ∀ session, Keeps inv (method session) fun _ => True) :
    Keeps inv (ifAuth conn method) fun _ => True := by
  refine .andThen .look fun server => ?_
  split
  · exact .pure trivial
  · exact keeps _

theorem minds_statusOf (name : Value) : Keeps inv (statusOf name) fun _ => True := by
  refine .andThen .look fun server => .andThen (minds_ofExcept _) fun key => ?_
  split
  · exact .andThen (minds_authListAt _) fun _ => .pure trivial
  · exact .pure trivial

theorem minds_pushStatus [Silent inv] (userName stat : Value) (rows : List (Option Text)) :
    ∀ sentList, Keeps inv (pushStatus net conn userName stat rows sentList) fun _ => True := by
  -- By induction on the rows, with the servers that have been told so far.
  induction rows with
  | nil => exact fun _ => .pure trivial
  | cons friend rows ih =>
    intro sentList
    refine .andThen .look fun server => .andThen (minds_domainOf _) fun domain => ?_
    refine .ite (fun _ => .andThen (minds_push _ _) fun _ => ih _) fun _ => ?_
    refine .ite (fun _ => ih _) fun _ => ?_
    exact .andThen (minds_callServerOk _ _) fun _ => ih _

theorem minds_statusChanged (stat : Value) :
    Minds table accounts home (statusChanged net conn stat) := by
  refine minds_ifAuth fun session => .ite (fun _ => ?_) fun _ => .raise
  refine .andThen (.write trivial fun _ holds => ⟨holds.friends, holds.users, holds.domain⟩)
    fun _ => .andThen .look fun server => ?_
  -- The news is pushed to the friends that the query has found, which may fail.
  split
  · exact .andThen (minds_pushStatus _ _ _ _) fun _ => .pure trivial
  · exact .pure trivial
  · exact .raise

theorem minds_doAuth (userName password : Value) :
    Minds table accounts home (doAuth net conn userName password) := by
  unfold doAuth
  split
  · refine .andThen .look fun server => .ite (fun _ => ?_) fun _ => .pure trivial
    -- The session and the connection are written, and then the news is told.
    refine .andThen (.write trivial fun _ holds => ⟨holds.friends, holds.users, holds.domain⟩)
      fun _ => .andThen (minds_ofExcept _) fun key => ?_
    refine .andThen (.write trivial fun _ holds => ⟨holds.friends, holds.users, holds.domain⟩)
      fun _ => ?_
    exact .andThen (minds_statusChanged _) fun _ => .pure trivial
  · exact .raise
  · exact .raise

theorem minds_doAuthServer (hostName : Value) :
    Minds table accounts home (doAuthServer net conn hostName) := by
  unfold doAuthServer
  split
  · split
    · exact .raise
    · -- One of the branches writes the session of the server.
      refine .ite (fun _ => ?_) fun _ => .pure trivial
      exact .andThen
        (.write trivial fun _ holds => ⟨holds.friends, holds.users, holds.domain⟩)
        fun _ => .pure trivial
  · exact .raise

theorem minds_insertAbsent {x y : Value} (inserts : Endures inv .insert x y) :
    Keeps inv (insertAbsent x y) fun _ => True := by
  refine .andThen (executeQuery_read fun _ _ => rfl) fun cnt =>
    .andThen (minds_fetched cnt) fun count => .ite (fun _ => ?_) fun _ => .pure trivial
  exact .andThen (executeQuery_write (fun _ _ => rfl) inserts) fun _ => .pure trivial

/-- A method that runs for the session of a connection keeps what it keeps for that session. -/
theorem ifAuth_after {method : Session → Rpc Value} {server : Server}
    (keeps : ∀ session, server.session conn = some session →
      Keeps inv (method session) fun _ => True)
    (holds : inv server) :
    inv (after (ifAuth conn method) server) := by
  have reads : ifAuth conn method server = _ := run_bind_ok (run_read server)
  unfold after
  rw [reads]
  -- Without a session the method denies, and writes nothing.
  cases found : server.session conn with
  | none => exact holds
  | some session => exact (keeps session found server holds).1

/-- Registering inserts up to two rows, and may remove the first one again. -/
theorem registerFriend_after [Silent inv] {friend un : Value} {server : Server}
    (endures : ∀ session, server.session conn = some session → friend.searchable = true →
      (actingName session un).searchable = true →
      Endures inv .insert (actingName session un) friend ∧
      Endures inv .insert friend (actingName session un) ∧
      Endures inv .delete (actingName session un) friend)
    (holds : inv server) :
    inv (after (registerFriend net conn friend un) server) := by
  refine ifAuth_after (fun session found => ?_) holds
  refine .bind (minds_userExistsIfLocal _) fun _ named => .bind (minds_userExistsIfLocal _)
    fun _ acting => ?_
  -- From here each act is looked at in turn.
  obtain ⟨forth, back, undo⟩ := endures session found named acting
  refine .andThen (minds_insertAbsent forth) fun _ => .andThen (minds_domainOf _)
    fun domain => .andThen .look fun server => .ite (fun _ => ?_) fun _ => ?_
  · -- The friend is on another domain.
    refine .ite (fun _ => ?_) fun _ => ?_
    · refine .andThen (minds_ofExcept _) fun key => ?_
      split
      · refine .ite (fun _ => .pure trivial) fun _ => ?_
        exact .andThen (minds_send _ _) fun _ => .pure trivial
      · exact .pure trivial
    · refine .andThen (minds_callServer _ _) fun answers => .andThen (minds_single _) fun rVal =>
        .andThen (minds_ofExcept _) fun code => .ite (fun _ => ?_) fun _ => ?_
      · exact .andThen (executeQuery_write (fun _ _ => rfl) undo) fun _ => .raise
      · exact .ite (fun _ => .raise) fun _ => .pure trivial
  · -- The friend is on this domain.
    refine .andThen (minds_insertAbsent back) fun inserted => .ite (fun _ => ?_) fun _ => ?_
    · exact .andThen (minds_push _ _) fun _ => .pure trivial
    · exact .pure trivial

/-- Unregistering removes the rows of both directions. -/
theorem unregisterFriend_after {friend un : Value} {server : Server}
    (endures : ∀ session, server.session conn = some session → friend.searchable = true →
      Endures inv .delete (actingName session un) friend ∧
      Endures inv .delete friend (actingName session un))
    (holds : inv server) :
    inv (after (unregisterFriend net conn friend un) server) := by
  refine ifAuth_after (fun session found => ?_) holds
  refine .bind (minds_userExistsIfLocal _) fun _ named => ?_
  -- The two deletions are made for the name of the session.
  obtain ⟨forth, back⟩ := endures session found named
  refine .andThen (executeQuery_write (fun _ _ => rfl) forth) fun _ =>
    .andThen (executeQuery_write (fun _ _ => rfl) back) fun _ =>
    .andThen (minds_domainOf _) fun domain => .andThen .look fun server =>
    .ite (fun _ => ?_) fun _ => .pure trivial
  exact .andThen (minds_callServerOk _ _) fun _ => .pure trivial

/-- Accepting updates the rows of both directions. -/
theorem acceptFriend_after [Silent inv] {friend : Value} {server : Server}
    (endures : ∀ session, server.session conn = some session → friend.searchable = true →
      Endures inv .update session.name friend ∧ Endures inv .update friend session.name)
    (holds : inv server) :
    inv (after (acceptFriend net conn friend) server) := by
  refine ifAuth_after (fun session found => ?_) holds
  refine .bind (minds_userExistsIfLocal _) fun _ named => ?_
  -- The two updates are made for the name of the session.
  obtain ⟨forth, back⟩ := endures session found named
  refine .andThen (executeQuery_write (fun _ _ => rfl) forth) fun _ =>
    .andThen (minds_domainOf _) fun domain => .andThen .look fun server =>
    .ite (fun _ => ?_) fun _ => ?_
  · exact .andThen (executeQuery_write (fun _ _ => rfl) back) fun _ =>
      .andThen (minds_push _ _) fun _ => .pure trivial
  · exact .andThen (minds_callServerOk _ _) fun _ => .pure trivial

/-- The news of an accepted request updates one row. -/
theorem serverAcceptFriend_after [Silent inv] {userName friend status : Value} {server : Server}
    (endures : server.session conn ≠ none → userName.searchable = true →
      Endures inv .update userName friend)
    (holds : inv server) :
    inv (after (serverAcceptFriend conn userName friend status) server) := by
  refine ifAuth_after (fun session found => ?_) holds
  refine .bind (minds_userExistsIfLocal _) fun _ named => ?_
  have update := endures (by simp [found]) named
  exact .andThen (executeQuery_write (fun _ _ => rfl) update) fun _ =>
    .andThen (minds_push _ _) fun _ => .pure trivial

theorem minds_serverStatusChange (userName : Value) :
    Keeps inv (serverStatusChange conn userName) fun _ => True := by
  refine minds_ifAuth fun session => .andThen .look fun server => ?_
  split
  · exact .ite (fun _ => .raise) fun _ => .pure trivial
  · exact .pure trivial
  · exact .raise

theorem minds_localStatuses (rows : List (Option Text)) :
    ∀ frByDom, Keeps inv (localStatuses rows frByDom) fun _ => True := by
  -- By induction on the rows of friends.
  induction rows with
  | nil => exact fun _ => .pure trivial
  | cons friend rows ih =>
    intro frByDom
    refine .andThen .look fun server => .andThen (minds_domainOf _) fun domain =>
      .ite (fun _ => ?_) fun _ => ih _
    exact .andThen (minds_statusOf _) fun _ => .andThen (ih _) fun _ => .pure trivial

theorem minds_readStatuses (answers : List Value) :
    Keeps inv (readStatuses answers) fun _ => True := by
  -- By induction on the answers.
  induction answers with
  | nil => exact .pure trivial
  | cons x up ih =>
    refine .andThen (minds_ofExcept _) fun code => .ite (fun _ => ?_) fun _ => .raise
    exact .andThen (minds_ofExcept _) fun _ => .andThen (minds_ofExcept _) fun _ =>
      .andThen ih fun _ => .pure trivial

theorem minds_remoteStatuses (frByDom : List (Text × List Value)) :
    Keeps inv (remoteStatuses net frByDom) fun _ => True := by
  induction frByDom with
  | nil => exact .pure trivial
  | cons entry frByDom ih =>
    exact .andThen (minds_callServer _ _) fun _ => .andThen (minds_readStatuses _) fun _ =>
      .andThen ih fun _ => .pure trivial

theorem minds_getAllFriendStatuses : Keeps inv (getAllFriendStatuses net conn) fun _ => True := by
  refine minds_ifAuth fun session => .andThen .look fun server => ?_
  -- The friends are those of a query, which may fail.
  split
  · exact .andThen (minds_localStatuses _ _) fun _ => .andThen (minds_remoteStatuses _) fun _ =>
      .pure trivial
  · exact .pure trivial
  · exact .raise

theorem minds_statusesOf (users : List Value) : Keeps inv (statusesOf users) fun _ => True := by
  induction users with
  | nil => exact .pure trivial
  | cons user users ih =>
    exact .andThen (minds_statusOf _) fun _ => .andThen ih fun _ => .pure trivial

theorem minds_serverGetStatus (users : Value) :
    Keeps inv (serverGetStatus conn users) fun _ => True :=
  minds_ifAuth fun _ => .andThen (minds_ofExcept _) fun _ => .andThen (minds_statusesOf _)
    fun _ => .pure trivial

theorem minds_signClientCert (certStr : Value) :
    Keeps inv (signClientCert net conn certStr) fun _ => True :=
  minds_ifAuth fun _ => .andThen (minds_ofExcept _) fun _ => .pure trivial

theorem minds_getUserStatus (userName : Value) :
    Keeps inv (getUserStatus net conn userName) fun _ => True := by
  refine minds_ifAuth fun session => .andThen (minds_validateName _) fun _ =>
    .andThen (minds_domainOf _) fun domain => .andThen .look fun server =>
    .ite (fun _ => ?_) fun _ => ?_
  · -- The friend is of this domain.
    exact .andThen (minds_userExists _) fun _ => .andThen (minds_statusOf _) fun _ =>
      .pure trivial
  · -- The friend is of another one, whose server is asked.
    refine .andThen (minds_callServer _ _) fun answers => .andThen (minds_single _) fun rVal =>
      .andThen (minds_ofExcept _) fun code => .ite (fun _ => .raise) fun _ =>
      .ite (fun _ => ?_) fun _ => .raise
    exact .andThen (minds_ofExcept _) fun _ => .pure trivial

/-- The functions that write who is connected. -/
def Handler.signs : Handler → Bool
  | .doAuth => true
  | .statusChanged => true
  | .doAuthServer => true
  | _ => false

/-- A call of any other function keeps what the statements that it may run keep. -/
theorem call_endures [Silent inv] {fn : Handler} {args : List Value} {server : Server}
    (signs : fn.signs = false)
    (endures : ∀ session, server.session conn = some session →
      ∀ write x y, (write, x, y) ∈ fn.writes session args → Endures inv write x y)
    (holds : inv server) : inv (after (fn.call net conn args) server) := by
  -- Handlers that write no row keep everything; the others go by their statements.
  have quiet {act : Rpc Value} (keeps : Keeps inv act fun _ => True) : inv (after act server) :=
    (keeps server holds).1
  unfold Handler.call
  split
  · cases signs
  · -- A registration without a name is on behalf of the caller.
    refine registerFriend_after (fun session found named acting => ?_) holds
    have each := endures session found
    simp only [actingName, Value.isNone, if_true] at acting ⊢
    exact ⟨each _ _ _ (by simp [Handler.writes, named, acting]),
      each _ _ _ (by simp [Handler.writes, named, acting]),
      each _ _ _ (by simp [Handler.writes, named, acting])⟩
  · refine registerFriend_after (fun session found named acting => ?_) holds
    have each := endures session found
    exact ⟨each _ _ _ (by simp [Handler.writes, named, acting]),
      each _ _ _ (by simp [Handler.writes, named, acting]),
      each _ _ _ (by simp [Handler.writes, named, acting])⟩
  · refine unregisterFriend_after (fun session found named => ?_) holds
    have each := endures session found
    simp only [actingName, Value.isNone, if_true]
    exact ⟨each _ _ _ (by simp [Handler.writes, named]),
      each _ _ _ (by simp [Handler.writes, named])⟩
  · refine unregisterFriend_after (fun session found named => ?_) holds
    have each := endures session found
    exact ⟨each _ _ _ (by simp [Handler.writes, named]),
      each _ _ _ (by simp [Handler.writes, named])⟩
  · exact quiet (.pure trivial)
  · cases signs
  · cases signs
  · refine acceptFriend_after (fun session found named => ?_) holds
    have each := endures session found
    exact ⟨each _ _ _ (by simp [Handler.writes, named]),
      each _ _ _ (by simp [Handler.writes, named])⟩
  · refine serverAcceptFriend_after (fun present named => ?_) holds
    obtain ⟨session, found⟩ := Option.ne_none_iff_exists'.mp present
    exact endures session found _ _ _ (by simp [Handler.writes, named])
  · exact quiet (minds_serverStatusChange _)
  · exact quiet minds_getAllFriendStatuses
  · exact quiet (minds_serverGetStatus _)
  · exact quiet (.pure trivial)
  · exact quiet (minds_signClientCert _)
  · exact quiet (minds_getUserStatus _)
  · exact quiet .raise

/-- A call keeps every property of the table that the statements it may run keep. -/
theorem call_after {fn : Handler} {args : List Value} {server : Server}
    (bears : ∀ session, server.session conn = some session →
      ∀ write x y, (write, x, y) ∈ fn.writes session args → Bears table write x y)
    (holds : Stands table accounts home server) :
    Stands table accounts home (after (fn.call net conn args) server) := by
  have quiet {act : Rpc Value} (keeps : Minds table accounts home act) :
      Stands table accounts home (after act server) :=
    (keeps server holds).1
  -- Those that sign in write sessions, and no rows.
  cases signs : fn.signs with
  | false =>
    refine call_endures signs (fun session found write x y runs => ?_) holds
    exact (bears session found write x y runs).endures
  | true =>
    unfold Handler.call
    split <;> try cases signs
    · exact quiet (minds_doAuth _ _)
    · exact quiet (minds_statusChanged _)
    · exact quiet (minds_doAuthServer _)
    · exact quiet .raise

/-- An arrival keeps every property of the table that the statements of its call keep. -/
theorem receive_friends {arrival : Arrival} {server : Server}
    (bears : ∀ opcode args fn session, arrival.message = .array (opcode :: args) →
      dispatched opcode = some fn → server.session arrival.conn = some session →
      ∀ write x y, (write, x, y) ∈ fn.writes session args → Bears table write x y)
    (holds : Stands table accounts home server) :
    Stands table accounts home (server.receive arrival) := by
  -- The call is made if the opcode has a handler, and the reply changes no table.
  unfold Server.receive rpcDispatcher
  split
  · rename_i opcode args shape
    split
    · rename_i fn found
      have called : Stands table accounts home
          (after (fn.call arrival.net arrival.conn args) server) :=
        call_after (bears opcode args fn · shape found) holds
      exact Silent.send _ _ _ called
    · exact holds
  · exact holds

end Motmot.Plume
