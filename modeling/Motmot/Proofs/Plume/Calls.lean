import Motmot.Logic.Mirror
import Motmot.Plume.Calls
import Motmot.Proofs.Plume.Failures

/-! What the parts of the calls between two servers do to the rows of a friendship. -/

namespace Motmot.Plume

open Act

variable {net : Net} {conn : Address}

/-- Compositions are equal whose second parts are. -/
theorem bind_congr {α β : Type} {act : Rpc α} {next other : α → Rpc β}
    (same : ∀ a, next a = other a) : (act >>= next) = (act >>= other) := by
  rw [funext same]

/-- A choice goes on with what each of its branches goes on with. -/
theorem ite_bind {α β : Type} {p : Prop} [Decidable p] {left right : Rpc α} {next : α → Rpc β} :
    ((if p then left else right) >>= next) = if p then left >>= next else right >>= next := by
  split <;> rfl

/-- Compositions associate. -/
theorem bind_bind {α β γ : Type} {act : Rpc α} {next : α → Rpc β} {last : β → Rpc γ} :
    ((act >>= next) >>= last) = act >>= fun a => next a >>= last := by
  -- An error of the first or of the second act skips the rest on both sides.
  funext server
  cases ran : act server with
  | mk out mid =>
    cases out with
    | ok a =>
      rw [run_bind_ok ran]
      cases more : next a mid with
      | mk out mid' =>
        have inner : (act >>= next) server = (out, mid') := (run_bind_ok ran).trans more
        cases out with
        | ok b => rw [run_bind_ok inner, run_bind_ok more]
        | error e => rw [run_bind_error inner, run_bind_error more]
    | error e =>
      rw [run_bind_error ran]
      exact run_bind_error (run_bind_error ran)

/-- Registering a friend is asking the other server and going on with its answers. -/
theorem registerFriend_ask (friend un : Value) :
    registerFriend net conn friend un = registerAsk conn friend un >>= Ask.resume net := by
  -- Up to the request both are the same acts; from there the rest is what the method goes on with.
  unfold registerFriend registerAsk askAuth ifAuth
  rw [bind_bind]
  refine bind_congr fun server => ?_
  cases server.session conn with
  | none => exact bind_pure_left.symm
  | some session =>
    simp only [bind_bind, ite_bind]
    refine bind_congr fun _ => bind_congr fun _ => bind_congr fun _ => bind_congr fun domain =>
      bind_congr fun server => ?_
    split
    · -- A server that is not away from home answers itself, and so does one that was asked by a
      -- server.
      split
      · refine bind_congr fun key => ?_
        cases server.online key with
        | none => exact bind_pure_left.symm
        | some other =>
          simp only [bind_bind, ite_bind, bind_pure_left]
          rfl
      · exact bind_pure_left.symm
    · refine bind_congr fun inserted => ?_
      split
      · exact bind_congr fun _ => bind_pure_left.symm
      · exact bind_pure_left.symm

/-- A request that must succeed goes on as the rest of its method does. -/
theorem callServerOk_rest (domain : Text) (request : Value) (text : String) :
    (callServerOk net domain request >>= fun _ => pure (reply .success text)) =
      callServer net domain request >>= okRest text := by
  -- The code of the answer is looked at in the same way on both sides.
  unfold callServerOk okRest
  rw [bind_bind]
  refine bind_congr fun answers => ?_
  rw [bind_bind]
  refine bind_congr fun rVal => ?_
  rw [bind_bind]
  refine bind_congr fun code => ?_
  rw [ite_bind]
  split
  · exact bind_pure_left
  · exact bind_raise

/-- Removing a friend is asking the other server and going on with its answers. -/
theorem unregisterFriend_ask (friend un : Value) :
    unregisterFriend net conn friend un = unregisterAsk conn friend un >>= Ask.resume net := by
  -- Up to the request both are the same acts.
  unfold unregisterFriend unregisterAsk askAuth ifAuth
  rw [bind_bind]
  refine bind_congr fun server => ?_
  cases server.session conn with
  | none => exact bind_pure_left.symm
  | some session =>
    simp only [bind_bind, ite_bind]
    refine bind_congr fun _ => bind_congr fun _ => bind_congr fun _ => bind_congr fun domain =>
      bind_congr fun server => ?_
    split
    · rw [bind_pure_left]
      exact callServerOk_rest _ _ _
    · exact bind_pure_left.symm

/-- Accepting a friend request is asking the other server and going on with its answers. -/
theorem acceptFriend_ask (friend : Value) :
    acceptFriend net conn friend = acceptAsk conn friend >>= Ask.resume net := by
  -- Up to the request both are the same acts.
  unfold acceptFriend acceptAsk askAuth ifAuth
  rw [bind_bind]
  refine bind_congr fun server => ?_
  cases server.session conn with
  | none => exact bind_pure_left.symm
  | some session =>
    simp only [bind_bind, ite_bind]
    refine bind_congr fun _ => bind_congr fun _ => bind_congr fun domain =>
      bind_congr fun server => ?_
    split
    · exact bind_congr fun _ => bind_congr fun _ => bind_pure_left.symm
    · rw [bind_pure_left]
      exact callServerOk_rest _ _ _

/-- The function that the dispatch table has for a method. -/
def Friending.handler : Friending → Handler
  | .register => .registerFriend
  | .unregister => .unregisterFriend
  | .accept => .acceptFriend

/-- A method is asking the other server and going on with its answers. -/
theorem Friending.call_ask (method : Friending) (friend : Value) :
    method.handler.call net conn [friend] = method.ask conn friend >>= Ask.resume net := by
  cases method with
  | register => exact registerFriend_ask friend .nil
  | unregister => exact unregisterFriend_ask friend .nil
  | accept => exact acceptFriend_ask friend

/-- The accept bits of the rows of a pair of names. -/
def bitsOf (x y : Text) (rows : List Friendship) : List Text :=
  (rows.filter fun row => row.named (some x, some y)).map Friendship.accepted

/-- What a method makes of the accept bits of the rows of its users. -/
def Friending.apply : Friending → List Text → List Text
  | .register, rows => if rows = [] then [notAccepted] else rows
  | .unregister, _ => []
  | .accept, rows => rows.map fun _ => isAccepted

/-- What a method makes of the rows of a server, whose user comes first. -/
def Friending.writes (u f : Text) : Friending → List Friendship → List Friendship
  | .register, rows =>
    if rows.any (Friendship.named · (some u, some f)) then rows
    else Write.insert.run (some u, some f) rows
  | .unregister, rows =>
    Write.delete.run (some f, some u) (Write.delete.run (some u, some f) rows)
  | .accept, rows => Write.update.run (some u, some f) rows

/-- The request of a method. -/
def Friending.request (u f : Text) (status : Value) : Friending → Value
  | .register => message .serverSendFriend [.raw u, .raw f]
  | .unregister => message .serverSendUnfriend [.raw u, .raw f]
  | .accept => message .serverSendAccept [.raw f, .raw u, status]

/-- What a method goes on with. -/
def Friending.rest (u f : Text) : Friending → List Value → Rpc Value
  | .register => registerRest (.raw u) (.raw f)
  | .unregister => okRest "Friend Unregistered"
  | .accept => okRest "Friend Request Accepted"

/-- A server takes a name for that of one of its users, unless its domain is not in it. -/
def Server.knows (server : Server) (f : Text) : Bool :=
  !decide (server.domain <:+: f) || (server.users.countP fun row => sqlEq row.userName (some f)) = 1

/-- There are no bits exactly when there is no row. -/
theorem bitsOf_eq_nil {x y : Text} {rows : List Friendship} :
    bitsOf x y rows = [] ↔ rows.any (Friendship.named · (some x, some y)) = false := by
  simp [bitsOf]

/-- A row of the pair is one still after it was accepted. -/
theorem named_update (pair : Option Text × Option Text) (row : Friendship) :
    (row.update pair).named pair = row.named pair := by
  unfold Friendship.update
  split <;> rfl

/-- No bits are left of the pair whose rows were deleted. -/
theorem bitsOf_delete (x y : Text) (rows : List Friendship) :
    bitsOf x y (Write.delete.run (some x, some y) rows) = [] := by
  refine bitsOf_eq_nil.mpr ?_
  simp only [Write.run, List.any_eq_false, List.mem_filter]
  rintro row ⟨_, kept⟩
  simpa using kept

/-- The bits of the pair are written as the method says. -/
theorem Friending.bitsOf_writes (method : Friending) (u f : Text) (rows : List Friendship) :
    bitsOf u f (method.writes u f rows) = method.apply (bitsOf u f rows) := by
  cases method with
  -- A row is added unless there is one.
  | register =>
    cases present : rows.any (Friendship.named · (some u, some f)) with
    | true =>
      have some_ : bitsOf u f rows ≠ [] := by simp [bitsOf_eq_nil, present]
      simp only [writes, present, if_true, apply, if_neg some_]
    | false =>
      have none_ : bitsOf u f rows = [] := bitsOf_eq_nil.mpr present
      have last : Friendship.named ⟨some u, some f, notAccepted⟩ (some u, some f) = true := by
        simp [Friendship.named, sqlEq]
      simp only [writes, present, apply, if_pos none_, Bool.false_eq_true, if_false, Write.run]
      unfold bitsOf at none_ ⊢
      rw [List.filter_append, List.map_append, none_]
      simp [last]
  -- A row that was removed is not there any more.
  | unregister =>
    refine bitsOf_eq_nil.mpr ?_
    simp only [writes, Write.run, List.any_eq_false, List.mem_filter]
    rintro row ⟨⟨_, kept⟩, _⟩
    simpa using kept
  -- Row by row, the bit is set where the pair is named.
  | accept =>
    simp only [writes, apply, Write.run, bitsOf]
    induction rows with
    | nil => rfl
    | cons row rows ih =>
      rw [List.map_cons, List.filter_cons, List.filter_cons, named_update]
      cases here : row.named (some u, some f) with
      | false => simpa using ih
      | true =>
        have bit : (row.update (some u, some f)).accepted = isAccepted := by
          simp [Friendship.update, here]
        simp only [if_true, List.map_cons, ih, bit]

/-- Only registering and the other methods make a difference to each other. -/
theorem Friending.harmless {overtaken : List Friending} {method : Friending}
    (alike : ∀ other ∈ overtaken, other = .register ↔ method = .register) (rows : List Text) :
    Mirror.Harmless Friending.apply overtaken method rows := by
  refine Mirror.harmless_of_commute _ (fun other mem rows => ?_) rows
  have same := alike other mem
  cases other <;> cases method <;> simp_all [apply]

/-- The check of a name that can be bound. -/
theorem userExistsIfLocal_eq {server : Server} {f : Text}
    (ascii : (Value.raw f).bind = .ok (some f)) :
    userExistsIfLocal (.raw f) server =
      if server.knows f then (.ok (), server) else (.error .userNotFound, server) := by
  unfold userExistsIfLocal
  rw [run_bind_ok (run_read server)]
  have contains : (Value.raw f).contains server.domain = .ok (decide (server.domain <:+: f)) := rfl
  rw [contains]
  by_cases isLocal : server.domain <:+: f
  · -- A local name is looked up in the accounts.
    have bound : bindOne (.raw f) = .ok (some f) := ascii
    simp only [isLocal, decide_true]
    show userExists (.raw f) server = _
    unfold userExists
    rw [run_bind_ok (executeQuery_ok bound server)]
    show (if (server.users.countP fun row => sqlEq row.userName (some f)) = 1 then
      (pure () : Rpc Unit) else Act.raise .userNotFound) server = _
    by_cases account : (server.users.countP fun row => sqlEq row.userName (some f)) = 1
    · have knows : server.knows f = true := by simp [Server.knows, account]
      rw [if_pos account, knows]
      rfl
    · have unknown : server.knows f = false := by simp [Server.knows, account, isLocal]
      rw [if_neg account, unknown]
      rfl
  · -- A name of another domain is let through.
    have knows : server.knows f = true := by simp [Server.knows, isLocal]
    simp only [isLocal, decide_false, knows]
    rfl

/-- The domain of a name that has one. -/
theorem domainOf_raw {f domain : Text} (away : second (f.splitOn '@') = .ok domain)
    (server : Server) : domainOf (.raw f) server = (.ok domain, server) := by
  show Act.ofExcept (second (f.splitOn '@')) server = _
  rw [away]
  rfl

/-- A row is inserted unless there is one, as registering does. -/
theorem insertAbsent_writes {server : Server} {u f : Text}
    (bound : bindTwo (.raw u) (.raw f) = .ok (some u, some f)) :
    ∃ fresh, insertAbsent (.raw u) (.raw f) server = (.ok fresh,
      { server with friends := Friending.register.writes u f server.friends }) := by
  rw [insertAbsent_ok bound]
  cases present : server.friends.any (Friendship.named · (some u, some f)) with
  | true => exact ⟨false, by simp [Friending.writes, present]⟩
  | false => exact ⟨true, by simp [Friending.writes, present]⟩

section Home

variable {server : Server} {u f domain : Text} {status : Value}

/-- A method whose friend the server takes for one of its own and does not know asks nobody. -/
theorem Friending.ask_refused (method : Friending)
    (session : server.session conn = some ⟨.raw u, status⟩)
    (ascii : (Value.raw f).bind = .ok (some f)) (unknown : server.knows f = false) :
    method.ask conn (.raw f) server = (.error .userNotFound, server) := by
  -- A name of this domain that has no row is refused before anybody is asked.
  have refused : userExistsIfLocal (.raw f) server = (.error .userNotFound, server) := by
    rw [userExistsIfLocal_eq ascii, unknown]
    rfl
  cases method <;>
    · simp only [ask, registerAsk, unregisterAsk, acceptAsk, askAuth]
      rw [run_bind_ok (run_read server), session]
      exact run_bind_error refused

/-- A method writes its rows and asks the server of its friend. -/
theorem Friending.ask_spec (method : Friending)
    (session : server.session conn = some ⟨.raw u, status⟩)
    (user : status.isStatus .server = false) (member : server.Member u)
    (ascii : (Value.raw f).bind = .ok (some f)) (knows : server.knows f = true)
    (away : second (f.splitOn '@') = .ok domain) (apart : domain ≠ server.domain) :
    method.ask conn (.raw f) server =
      (.ok (.call domain (method.request u f status) (method.rest u f)),
        { server with friends := method.writes u f server.friends }) := by
  -- The name is admitted, and both names can be bound.
  have found : userExistsIfLocal (.raw f) server = (.ok (), server) := by
    rw [userExistsIfLocal_eq ascii, knows]
    rfl
  have forth : bindTwo (.raw u) (.raw f) = .ok (some u, some f) :=
    bindTwo_eq_ok.mpr ⟨member.ascii, ascii⟩
  have back : bindTwo (.raw f) (.raw u) = .ok (some f, some u) :=
    bindTwo_eq_ok.mpr ⟨ascii, member.ascii⟩
  cases method with
  -- The request is inserted at home, and the friend's server is asked.
  | register =>
    simp only [ask, registerAsk, askAuth]
    rw [run_bind_ok (run_read server), session]
    simp only [actingName, Value.isNone, if_true]
    rw [run_bind_ok found, run_bind_ok (userExistsIfLocal_ok member)]
    obtain ⟨fresh, inserted⟩ := insertAbsent_writes forth
    rw [run_bind_ok inserted, run_bind_ok (domainOf_raw away _), run_bind_ok (run_read _),
      if_pos apart, user]
    rfl
  -- Both directions are deleted.
  | unregister =>
    simp only [ask, unregisterAsk, askAuth]
    rw [run_bind_ok (run_read server), session]
    simp only [actingName, Value.isNone, if_true]
    rw [run_bind_ok found, run_bind_ok (executeQuery_ok forth server),
      run_bind_ok (executeQuery_ok back _), run_bind_ok (domainOf_raw away _),
      run_bind_ok (run_read _), if_pos ⟨apart, user⟩]
    rfl
  -- The row of the caller is updated first.
  | accept =>
    simp only [ask, acceptAsk, askAuth]
    rw [run_bind_ok (run_read server), session]
    simp only
    have still : ¬ domain = (updateFriend (some u, some f) server).2.domain := apart
    rw [run_bind_ok found, run_bind_ok (executeQuery_ok forth server),
      run_bind_ok (domainOf_raw away _), run_bind_ok (run_read _), if_neg still]
    rfl

end Home

section Remote

variable {server : Server} {session : Session} {g h domain : Text} {status : Value}

/-- What the dispatch table has for the request of a method. -/
def Friending.remote (net : Net) (conn : Address) (g h : Text) (status : Value) :
    Friending → Rpc Value
  | .register => registerFriend net conn (.raw h) (.raw g)
  | .unregister => unregisterFriend net conn (.raw h) (.raw g)
  | .accept => serverAcceptFriend conn (.raw g) (.raw h) status

/-- The request of a method is dispatched to the function for it, whose result is sent back. -/
theorem Friending.dispatch_request (method : Friending) (g h : Text) (status : Value)
    (server : Server) : (rpcDispatcher net conn (method.request h g status) server).2 =
      (after (method.remote net conn g h status) server).replied conn
        (result (method.remote net conn g h status) server) := by
  cases method <;> rfl

/-- A push to a name goes out to its connection if there is one. -/
theorem push_raw (name : Text) (note : Value) (server : Server) :
    ∃ sent, push (.raw name) note server = (.ok (), { server with sent := sent }) := by
  unfold push
  rw [run_bind_ok (run_read server)]
  -- The name is a key, and the table of connections has an entry for it or not.
  have key : (Value.raw name).key = .ok (.text name) := rfl
  rw [key, ofExcept_ok, bind_pure_left]
  cases server.online (.text name) with
  | none => exact ⟨server.sent, rfl⟩
  | some other => exact ⟨_, rfl⟩

/-- A server that takes the caller for one of its own users and does not know it does nothing. -/
theorem Friending.remote_refused {method : Friending} (known : server.session conn = some session)
    (ascii : (Value.raw h).bind = .ok (some h)) (unknown : server.knows h = false)
    (names : method ≠ .accept) :
    method.remote net conn g h status server =
      (.error .userNotFound, server) := by
  -- Both methods that name a user first check it.
  have refused : userExistsIfLocal (.raw h) server = (.error .userNotFound, server) := by
    rw [userExistsIfLocal_eq ascii, unknown]
    rfl
  cases method with
  | register =>
    simp only [remote, registerFriend, ifAuth]
    rw [run_bind_ok (run_read server), known]
    exact run_bind_error refused
  | unregister =>
    simp only [remote, unregisterFriend, ifAuth]
    rw [run_bind_ok (run_read server), known]
    exact run_bind_error refused
  | accept => exact absurd rfl names

/-- A server does with the rows of its user what the caller has done with its own. -/
theorem Friending.remote_spec {method : Friending} (known : server.session conn = some session)
    (peer : session.status.isStatus .server = true) (member : server.Member g)
    (ascii : (Value.raw h).bind = .ok (some h)) (away : second (h.splitOn '@') = .ok domain)
    (apart : domain ≠ server.domain) (knows : server.knows h = true ∨ method = .accept) :
    ∃ sent text, method.remote net conn g h status server =
      (.ok (reply .success text),
        { server with friends := method.writes g h server.friends, sent := sent }) := by
  -- The names come in the order in which the other server sees them.
  have forth : bindTwo (.raw g) (.raw h) = .ok (some g, some h) :=
    bindTwo_eq_ok.mpr ⟨member.ascii, ascii⟩
  have back : bindTwo (.raw h) (.raw g) = .ok (some h, some g) :=
    bindTwo_eq_ok.mpr ⟨ascii, member.ascii⟩
  have found : method ≠ .accept → userExistsIfLocal (.raw h) server = (.ok (), server) := by
    intro names
    rw [userExistsIfLocal_eq ascii, knows.resolve_right names]
    rfl
  cases method with
  | register =>
    simp only [remote, registerFriend, ifAuth]
    rw [run_bind_ok (run_read server), known]
    simp only [actingName, Value.isNone, Bool.false_eq_true, if_false]
    rw [run_bind_ok (found (by simp)), run_bind_ok (userExistsIfLocal_ok member)]
    obtain ⟨fresh, inserted⟩ := insertAbsent_writes forth
    rw [run_bind_ok inserted, run_bind_ok (domainOf_raw away _), run_bind_ok (run_read _),
      if_pos apart, peer]
    have key : (Value.raw g).key = .ok (.text g) := rfl
    rw [if_pos rfl, key, ofExcept_ok, bind_pure_left]
    -- The user is told of the request if it is online.
    cases Server.online _ (.text g) with
    | none => exact ⟨server.sent, "Friend Registered", rfl⟩
    | some other => exact ⟨_, "Friend Registered", rfl⟩
  | unregister =>
    simp only [remote, unregisterFriend, ifAuth]
    rw [run_bind_ok (run_read server), known]
    simp only [actingName, Value.isNone, Bool.false_eq_true, if_false]
    rw [run_bind_ok (found (by simp)), run_bind_ok (executeQuery_ok forth server),
      run_bind_ok (executeQuery_ok back _), run_bind_ok (domainOf_raw away _),
      run_bind_ok (run_read _)]
    simp only [peer, Bool.true_eq_false, and_false, if_false]
    exact ⟨server.sent, "Friend Unregistered", rfl⟩
  | accept =>
    simp only [remote, serverAcceptFriend, ifAuth]
    rw [run_bind_ok (run_read server), known]
    simp only
    rw [run_bind_ok (userExistsIfLocal_ok member), run_bind_ok (executeQuery_ok forth server)]
    obtain ⟨sent, pushed⟩ := push_raw g (message .pushFriendAccept [.raw h, status])
      (updateFriend (some g, some h) server).2
    rw [run_bind_ok pushed]
    exact ⟨sent, "Friend Accepted", rfl⟩

end Remote

/-- A server that authenticates itself changes who is known, and no rows. -/
theorem link_keeps {server : Server} (host : Text) :
    (rpcDispatcher net conn (message .authenticateServer [.raw host]) server).2.friends =
        server.friends ∧
      (rpcDispatcher net conn (message .authenticateServer [.raw host]) server).2.users =
        server.users ∧
      (rpcDispatcher net conn (message .authenticateServer [.raw host]) server).2.domain =
        server.domain := by
  have handled : (rpcDispatcher net conn (message .authenticateServer [.raw host]) server).2 =
      (after (doAuthServer net conn (.raw host)) server).replied conn
        (result (doAuthServer net conn (.raw host)) server) := rfl
  rw [handled]
  -- Only the table of sessions is written, and only if the address is that of the connection.
  simp only [Server.replied, doAuthServer]
  cases net.gethostbyname host with
  | none => exact ⟨rfl, rfl, rfl⟩
  | some hostIp =>
    by_cases own : hostIp = conn.ip
    · simp only [own, if_true]
      exact ⟨rfl, rfl, rfl⟩
    · simp only [own, if_false]
      exact ⟨rfl, rfl, rfl⟩

/-- A method whose request was handled is over without another write. -/
theorem Friending.rest_success (method : Friending) (u f : Text) (text : String)
    (server : Server) :
    ∃ rVal, method.rest u f [reply .success text] server = (.ok rVal, server) := by
  cases method <;> exact ⟨_, rfl⟩

/-- Registering a user that the other server does not know is undone. -/
theorem registerRest_unknown {server : Server} {u f : Text} (text : String)
    (bound : bindTwo (.raw u) (.raw f) = .ok (some u, some f)) :
    registerRest (.raw u) (.raw f) [reply .userNotFound text] server =
      (.error .userNotFound,
        { server with friends := Write.delete.run (some u, some f) server.friends }) := by
  have shape : registerRest (.raw u) (.raw f) [reply .userNotFound text] server =
      (executeQuery (bindTwo (.raw u) (.raw f)) deleteFriend >>= fun _ =>
        (Act.raise .userNotFound : Rpc Value)) server := rfl
  rw [shape, run_bind_ok (executeQuery_ok bound server)]
  rfl

/-- A request that must succeed and does not leaves the server as it is. -/
theorem okRest_unknown {server : Server} (text other : String) :
    okRest text [reply .userNotFound other] server = (.error .rpcError, server) := rfl

end Motmot.Plume
