import Motmot.Proofs.Plume.Presence

/-!
What a call that is answered with an error has done to the tables.

A method writes first and finds out afterwards that a name has no domain, or that another server
does not answer. Only one of these failures is undone.
-/

namespace Motmot.Plume

open Act

/-- The codes of the replies that report an error. -/
def failureCodes : List Int :=
  [RemoteMethod.friendServerDown, .badMessage, .userNotFound, .badStatus, .certDenied,
    .authFailed].map RemoteMethod.code

/-- A reply that reports an error, or is empty because of an exception that nothing caught. -/
def Value.isFailure : Value → Bool
  | .array [] => true
  | .array (code :: _) => code.whole.any (failureCodes.contains ·)
  | _ => false

/-- Two servers have the same friendships and the same connections. -/
structure Spared (server next : Server) : Prop where
  friends : next.friends = server.friends
  session : ∀ conn, next.session conn = server.session conn
  online : ∀ key, next.online key = server.online key

/-- The domain of a name: what follows its first at sign, up to the next one. -/
def Value.domain (name : Value) : Option Text :=
  match name.split with
  | .ok parts => parts[1]?
  | .error _ => none

/-- The code of a message. -/
def Value.opcode (message : Value) : Option Int :=
  match message.item 0 with
  | .ok code => code.whole
  | .error _ => none

/-- The code of the message with which the server of a domain answers a request, if it does. -/
def Net.code (net : Net) (domain : Text) (request : Value) : Option Int :=
  match net.gethostbyname domain with
  | none => none
  | some _ =>
    match net.exchange domain request with
    | .down => none
    | .replies auth answers =>
      if auth.opcode = some RemoteMethod.authenticated.code then
        match answers with
        | [answer] => answer.opcode
        | _ => none
      else none

/-- A name passes the check of local names. -/
def Server.Admits (server : Server) (name : Value) : Prop :=
  result (userExistsIfLocal name) server = .ok ()

/-- The news of a status reach the servers of all friends that are not of this domain. -/
def Told (net : Net) (home : Text) (userName stat : Value) (rows : List (Option Text)) : Prop :=
  ∀ friend ∈ rows, ∃ domain, (columnValue friend).domain = some domain ∧
    (domain = home ∨ net.code domain (message .serverSendStatusChanged [userName, stat]) =
      some RemoteMethod.success.code)

/-- A request to the server of a friend fails, or the friend has no domain at all. A server does not
pass on what it is asked by another one. -/
def Unconfirmed (net : Net) (home : Text) (session : Session) (friend request : Value) : Prop :=
  ∀ domain, friend.domain = some domain →
    domain ≠ home ∧ session.status.isStatus .server = false ∧
      net.code domain request ≠ some RemoteMethod.success.code

/-- The server of a friend does not know that user. -/
def Unknown (net : Net) (home : Text) (session : Session) (friend request : Value) : Prop :=
  ∃ domain, friend.domain = some domain ∧ domain ≠ home ∧
    session.status.isStatus .server = false ∧
      net.code domain request = some RemoteMethod.userNotFound.code

/-- A user's row is inserted and the request to the friend's server fails, or it was there before
and is removed because that server does not know the friend. -/
def SpoilsRegister (net : Net) (conn : Address) (server : Server) (friend un : Value) : Prop :=
  ∃ session, server.session conn = some session ∧ server.Admits friend ∧
    server.Admits (actingName session un) ∧
    ∃ pair, bindTwo (actingName session un) friend = .ok pair ∧
      let request := message .serverSendFriend [actingName session un, friend]
      if server.friends.any (Friendship.named · pair) then
        Unknown net server.domain session friend request
      else
        Unconfirmed net server.domain session friend request ∧
          ¬ Unknown net server.domain session friend request

/-- A row of either direction is removed, and the request to the friend's server fails. -/
def SpoilsUnregister (net : Net) (conn : Address) (server : Server) (friend un : Value) : Prop :=
  ∃ session, server.session conn = some session ∧ server.Admits friend ∧
    ∃ pair, bindTwo (actingName session un) friend = .ok pair ∧
      (Write.delete.run pair.swap (Write.delete.run pair server.friends) ≠ server.friends ∧
        Unconfirmed net server.domain session friend
          (message .serverSendUnfriend [actingName session un, friend]))

/-- The bit of the user that accepts is set, and the request to the friend's server fails. -/
def SpoilsAccept (net : Net) (conn : Address) (server : Server) (friend : Value) : Prop :=
  ∃ session, server.session conn = some session ∧ server.Admits friend ∧
    ∃ pair, bindTwo session.name friend = .ok pair ∧
      (Write.update.run pair server.friends ≠ server.friends ∧
        ∀ domain, friend.domain = some domain → domain ≠ server.domain ∧
          net.code domain (message .serverSendAccept [friend, session.name, session.status]) ≠
            some RemoteMethod.success.code)

/-- The friends of a user cannot be told a status. -/
def Server.Unheard (server : Server) (net : Net) (userName stat : Value) : Prop :=
  (∃ e, userName.bind = .error e ∧ e ≠ .databaseError) ∨
    ∃ name, userName.bind = .ok name ∧
      ¬ Told net server.domain userName stat (acceptedFriends name server)

/-- Whether a value is a status of a user. -/
def Value.isValidStatus (stat : Value) : Bool :=
  stat.isStatus .online || stat.isStatus .offline || stat.isStatus .busy || stat.isStatus .away

/-- A status is set to another one, and the friends cannot be told. -/
def SpoilsStatus (net : Net) (conn : Address) (server : Server) (stat : Value) : Prop :=
  ∃ session, server.session conn = some session ∧ stat.isValidStatus = true ∧
    session.status ≠ stat ∧ server.Unheard net session.name stat

/-- A user logs in who was not online on the connection, and the friends cannot be told. -/
def SpoilsLogin (net : Net) (conn : Address) (server : Server) (userName password : Value) :
    Prop :=
  ∃ name pass key, bindTwo userName password = .ok (name, pass) ∧
    (server.users.countP fun row => sqlEq row.userName name && sqlEq row.password pass) = 1 ∧
    userName.key = .ok key ∧
    ¬ (server.session conn = some ⟨userName, Status.online.value⟩ ∧
      server.online key = some conn) ∧
    server.Unheard net userName Status.online.value

/-- The calls that fail after they have written something that is not undone. -/
def Handler.Spoils (net : Net) (conn : Address) (server : Server) :
    Handler → List Value → Prop
  | .doAuth, [userName, password] => SpoilsLogin net conn server userName password
  | .registerFriend, [friend] => SpoilsRegister net conn server friend .nil
  | .registerFriend, [friend, un] => SpoilsRegister net conn server friend un
  | .unregisterFriend, [friend] => SpoilsUnregister net conn server friend .nil
  | .unregisterFriend, [friend, un] => SpoilsUnregister net conn server friend un
  | .statusChanged, [stat] => SpoilsStatus net conn server stat
  | .acceptFriend, [friend] => SpoilsAccept net conn server friend
  | _, _ => False

variable {server start mid : Server} {net : Net} {conn : Address}

theorem Spared.refl : Spared server server := ⟨rfl, fun _ => rfl, fun _ => rfl⟩

theorem Spared.symm {next : Server} (spared : Spared server next) : Spared next server :=
  ⟨spared.friends.symm, fun conn => (spared.session conn).symm,
    fun key => (spared.online key).symm⟩

theorem Spared.trans {next : Server} (first : Spared start mid) (second : Spared mid next) :
    Spared start next :=
  ⟨second.friends.trans first.friends, fun conn => (second.session conn).trans (first.session conn),
    fun key => (second.online key).trans (first.online key)⟩

instance : Silent (Spared start) where
  send := fun _ _ _ spared => ⟨spared.friends, spared.session, spared.online⟩

/-- Whether a method is answered with an error. -/
def failing (act : Rpc Value) (server : Server) : Bool :=
  match result act server with
  | .ok rVal => rVal.isFailure
  | .error _ => true

/-- If a method that goes on from a state fails, then everything is as it was at the start. -/
def Spares (start : Server) (act : Rpc Value) (mid : Server) : Prop :=
  failing act mid = true → Spared start (after act mid)

/-- What an action that writes nothing does is what it returns. -/
theorem peeks {α : Type} {act : Rpc α} {good : α → Prop}
    (keeps : Keeps (fun state => state = server) act good) :
    act server = (result act server, server) := by
  have same := (keeps server rfl).1
  exact Prod.ext rfl same

/-- A method goes on from where a part of it has returned. -/
theorem spares_ran {α : Type} {act : Rpc α} {next : α → Rpc Value} {a : α} {reached : Server}
    (ran : act mid = (.ok a, reached)) :
    Spares start (act >>= next) mid ↔ Spares start (next a) reached := by
  unfold Spares failing result after
  rw [run_bind_ok ran]

/-- A method goes on behind a part that writes nothing and returns. -/
theorem spares_peek {α : Type} {act : Rpc α} {next : α → Rpc Value} {a : α}
    {good : α → Prop} (keeps : Keeps (fun state => state = mid) act good)
    (returned : result act mid = .ok a) :
    Spares start (act >>= next) mid ↔ Spares start (next a) mid := by
  have ran := peeks keeps
  rw [returned] at ran
  exact spares_ran ran

/-- A method ends behind a part that writes nothing and fails. -/
theorem spares_stop {α : Type} {act : Rpc α} {next : α → Rpc Value} {good : α → Prop}
    (keeps : Keeps (fun state => state = mid) act good)
    (failed : ∀ a, result act mid ≠ .ok a) :
    Spares start (act >>= next) mid ↔ Spared start mid := by
  -- The first part fails and has written nothing, so neither has the whole.
  have ran := peeks keeps
  cases out : result act mid with
  | ok a => exact absurd out (failed a)
  | error e =>
    rw [out] at ran
    unfold Spares failing result after
    rw [run_bind_error ran]
    simp

/-- Once a method writes nothing more, it matters where it is if it fails. -/
theorem spares_tail {act : Rpc Value}
    (keeps : Keeps (Spared mid) act fun _ => True) :
    Spares start act mid ↔ (failing act mid = true → Spared start mid) := by
  -- The two states agree in all that a failure has to spare.
  have kept := (keeps mid .refl).1
  constructor
  · intro spares failed
    exact (spares failed).trans kept.symm
  · intro spared failed
    exact (spared failed).trans kept

theorem opcode_eq_some {message : Value} {n : Int} :
    message.opcode = some n ↔ ∃ code, message.item 0 = .ok code ∧ code.whole = some n := by
  unfold Value.opcode
  split
  · rename_i code coded
    simp [coded]
  · rename_i e coded
    simp [coded]

/-- Another server answers with one message that has a code, or there is no code for one of the
reasons that make a request fail. -/
theorem answer_cases (net : Net) (domain : Text) (request : Value) :
    (∃ answer code, callServer net domain request = pure [answer] ∧
      answer.item 0 = .ok code ∧ net.code domain request = code.whole) ∨
    net.code domain request = none ∧
      ((∃ e, callServer net domain request = Act.raise e) ∨
        ∃ answers, callServer net domain request = pure answers ∧
          ∀ answer code, answers = [answer] → answer.item 0 ≠ .ok code) := by
  -- The name is resolved, the connection made, the server authenticated, and its answer read.
  unfold callServer Net.code
  cases net.gethostbyname domain with
  | none => exact Or.inr ⟨rfl, Or.inl ⟨_, rfl⟩⟩
  | some ip =>
    cases net.exchange domain request with
    | down => exact Or.inr ⟨rfl, Or.inl ⟨_, rfl⟩⟩
    | replies auth answers =>
      dsimp only
      by_cases authenticated : auth.opcode = some RemoteMethod.authenticated.code
      · obtain ⟨accepted, head, whole⟩ := opcode_eq_some.mp authenticated
        rw [if_pos authenticated, head, ofExcept_ok, bind_pure_left, if_pos whole]
        -- The server is authenticated, and there must be one message.
        match answers with
        | [] => exact Or.inr ⟨rfl, Or.inr ⟨[], rfl, by simp⟩⟩
        | _ :: _ :: _ => exact Or.inr ⟨rfl, Or.inr ⟨_, rfl, by simp⟩⟩
        | [answer] =>
          cases coded : answer.item 0 with
          | error e =>
            refine Or.inr ⟨by simp [Value.opcode, coded], Or.inr ⟨[answer], rfl, ?_⟩⟩
            rintro _ code same
            cases same
            simp [coded]
          | ok code => exact Or.inl ⟨answer, code, rfl, coded, by simp [Value.opcode, coded]⟩
      · -- The other server does not authenticate this one.
        rw [if_neg authenticated]
        refine Or.inr ⟨rfl, Or.inl ?_⟩
        cases head : auth.item 0 with
        | error e => exact ⟨e, bind_raise⟩
        | ok code =>
          refine ⟨.rpcError, ?_⟩
          rw [ofExcept_ok, bind_pure_left, if_neg]
          intro whole
          exact authenticated (opcode_eq_some.mpr ⟨code, head, whole⟩)

/-- What follows a request goes by the code of the answer, if it fails without one. -/
theorem spares_answer {domain : Text} {request : Value} (next : Option Int → Rpc Value)
    (fails : Spares start (next none) mid ↔ Spared start mid) :
    Spares start
      (do
        let answers ← callServer net domain request
        let rVal ← single answers
        let code ← Act.ofExcept (rVal.item 0)
        next code.whole) mid ↔
    Spares start (next (net.code domain request)) mid := by
  -- An exception is answered with an error, so everything turns on the state.
  have stop : ∀ e, Spares start (Act.raise e) mid ↔ Spared start mid := by
    intro e
    simp [Spares, failing, result, after]
  rcases answer_cases net domain request with
    ⟨answer, code, answered, coded, same⟩ | ⟨none_, ⟨e, raised⟩ | ⟨answers, answered, unfit⟩⟩
  · rw [answered, bind_pure_left, show single [answer] = (pure answer : Rpc Value) from rfl,
      bind_pure_left, coded, ofExcept_ok,
      bind_pure_left, same]
  · rw [raised, bind_raise, none_, fails, stop]
  · rw [answered, bind_pure_left, none_, fails]
    cases answers with
    | nil => exact stop .valueError
    | cons answer more =>
      cases more with
      | cons => exact stop .valueError
      -- No message, or several of them, cannot be taken apart.
      | nil =>
        rw [show single [answer] = (pure answer : Rpc Value) from rfl, bind_pure_left]
        cases coded : answer.item 0 with
        | ok code => exact absurd coded (unfit answer code rfl)
        | error e => exact stop e

/-- A request that must succeed returns when the code of the answer says so. -/
theorem callServerOk_eq_ok {domain : Text} {request : Value} :
    result (callServerOk net domain request) server = .ok () ↔
      net.code domain request = some RemoteMethod.success.code := by
  -- The same cases as for any request.
  unfold callServerOk
  rcases answer_cases net domain request with
    ⟨answer, code, answered, coded, same⟩ | ⟨none_, ⟨e, raised⟩ | ⟨answers, answered, unfit⟩⟩
  · rw [answered, bind_pure_left, show single [answer] = (pure answer : Rpc Value) from rfl,
      bind_pure_left, coded, ofExcept_ok,
      bind_pure_left, same]
    split
    · rename_i success
      simp [result, success]
    · rename_i other
      simp [result, other]
  · rw [raised, bind_raise, none_]
    simp [result]
  · rw [answered, bind_pure_left, none_]
    cases answers with
    | nil => simp [single, bind_raise, result]
    | cons answer more =>
      cases more with
      | cons => simp [single, bind_raise, result]
      | nil =>
        rw [show single [answer] = (pure answer : Rpc Value) from rfl, bind_pure_left]
        cases coded : answer.item 0 with
        | ok code => exact absurd coded (unfit answer code rfl)
        | error e => simp [Act.ofExcept, bind_raise, result]

/-- A name has the domain that is read from it. -/
theorem domainOf_eq_ok {name : Value} {domain : Text} :
    result (domainOf name) server = .ok domain ↔ name.domain = some domain := by
  -- The name may not split, and it may have no second part.
  unfold domainOf Value.domain
  cases name.split with
  | error e =>
    rw [ofExcept_error, bind_raise]
    simp [result]
  | ok parts =>
    rw [ofExcept_ok, bind_pure_left]
    unfold second
    cases part : parts[1]? <;>
      simp [part, Option.elim, Act.ofExcept, result, Act.ret]

/-- Pushing to a friend does not fail. -/
theorem push_column_ok (friend : Option Text) (note : Value) :
    result (push (columnValue friend) note) server = .ok () := by
  have named : ∃ key, (columnValue friend).key = .ok key := by cases friend <;> exact ⟨_, rfl⟩
  obtain ⟨key, named⟩ := named
  unfold push result
  rw [run_bind_ok (run_read server), named, ofExcept_ok, bind_pure_left]
  cases server.online key <;> rfl

/-- A property of the domain has nothing to do with the messages that are sent. -/
instance {home : Text} : Silent fun server => server.domain = home where
  send := fun _ _ _ same => same

/-- The status of a user gets to all friends when all the other servers confirm it. -/
theorem pushStatus_eq_ok {userName stat : Value} (rows : List (Option Text)) :
    ∀ (server : Server) (sentList : List Text),
      (∀ domain ∈ sentList,
        net.code domain (message .serverSendStatusChanged [userName, stat]) =
          some RemoteMethod.success.code) →
      (result (pushStatus net conn userName stat rows sentList) server = .ok () ↔
        Told net server.domain userName stat rows) := by
  -- By induction on the rows, over the servers that have confirmed the status.
  induction rows with
  | nil => intro server sentList _; simp [pushStatus, Told, result]
  | cons friend rows ih =>
    intro server sentList confirmed
    have ran : pushStatus net conn userName stat (friend :: rows) sentList server = _ :=
      run_bind_ok (run_read server)
    have peek := @peeks server _ _ _ (minds_domainOf (columnValue friend))
    unfold result at ih ⊢
    rw [ran]
    -- A friend without a domain stops the call.
    cases out : result (domainOf (columnValue friend)) server with
    | error e =>
      rw [out] at peek
      rw [run_bind_error peek]
      simp only [reduceCtorEq, false_iff]
      intro told
      obtain ⟨domain, has, -⟩ := told friend (List.mem_cons_self ..)
      rw [domainOf_eq_ok.mpr has] at out
      cases out
    | ok domain =>
      rw [out] at peek
      rw [run_bind_ok peek]
      have has := domainOf_eq_ok.mp out
      have first : Told net server.domain userName stat (friend :: rows) ↔
          (domain = server.domain ∨
            net.code domain (message .serverSendStatusChanged [userName, stat]) =
              some RemoteMethod.success.code) ∧ Told net server.domain userName stat rows := by
        simp [Told, has]
      rw [first]
      by_cases home : domain = server.domain
      · -- A friend of this domain is told directly.
        rw [if_pos home]
        have pushed := @push_column_ok server friend
          (message .pushClientStatus (userName :: stat :: conn.values))
        have minds : Keeps (fun state : Server => state.domain = server.domain)
            (push (columnValue friend) (message .pushClientStatus
              (userName :: stat :: conn.values)))
            fun _ => True := minds_push _ _
        have same := (minds server rfl).1
        have step : push (columnValue friend)
            (message .pushClientStatus (userName :: stat :: conn.values)) server =
            (.ok (), after (push (columnValue friend)
              (message .pushClientStatus (userName :: stat :: conn.values))) server) :=
          Prod.ext pushed rfl
        rw [run_bind_ok step, ih _ sentList confirmed, same]
        simp [home]
      · rw [if_neg home]
        by_cases sent : domain ∈ sentList
        · -- The server of this domain has confirmed it before.
          rw [if_pos sent, ih server sentList confirmed]
          simp [confirmed domain sent]
        · -- Another domain is asked once, and its answer decides.
          rw [if_neg sent]
          have asks : callServerOk net domain (message .serverSendStatusChanged [userName, stat])
              server = (_, server) := peeks (minds_callServerOk domain _)
          by_cases success : net.code domain
              (message .serverSendStatusChanged [userName, stat]) =
                some RemoteMethod.success.code
          · rw [callServerOk_eq_ok.mpr success] at asks
            rw [run_bind_ok asks, ih server (sentList ++ [domain])]
            · simp [success]
            · intro other mem
              rcases List.mem_append.mp mem with old | new
              · exact confirmed other old
              · simp only [List.mem_singleton] at new
                rw [new]
                exact success
          · cases failed : result (callServerOk net domain
                (message .serverSendStatusChanged [userName, stat])) server with
            | ok u => exact absurd (callServerOk_eq_ok.mp failed) success
            | error e =>
              rw [failed] at asks
              rw [run_bind_error asks]
              simp [home, success]

/-- A query whose parameters are refused writes nothing. -/
theorem executeQuery_error {π : Type} {params : Except Exn π} {e : Exn}
    {statement : π → Server → Option Nat × Server} (refused : params = .error e) :
    executeQuery params statement =
      if e = .databaseError then pure none else Act.raise e := by
  rw [refused]
  cases e <;> rfl

/-- A method that never writes these tables spares them. -/
theorem spares_keeps {act : Rpc Value} (keeps : Keeps (Spared server) act fun _ => True) :
    Spares server act server :=
  fun _ => (keeps server .refl).1

theorem spares_ok {rVal : Value} (good : rVal.isFailure = false) :
    Spares start (pure rVal) mid ↔ True := by
  simp [Spares, failing, result, good]

theorem spares_raise {e : Exn} : Spares start (Act.raise e) mid ↔ Spared start mid := by
  simp [Spares, failing, result, after]

/-- A method for authenticated connections spares what it spares for the session. -/
theorem spares_ifAuth {method : Session → Rpc Value} :
    Spares server (ifAuth conn method) server ↔
      ∀ session, server.session conn = some session → Spares server (method session) server := by
  have reads : ifAuth conn method server = _ := run_bind_ok (run_read server)
  unfold Spares failing result after
  rw [reads]
  -- Whoever has no session is denied, in words that are a failure and write nothing.
  cases found : server.session conn with
  | none =>
    simp [denied, reply, message, Value.isFailure, failureCodes, RemoteMethod.code, Value.whole]
  | some session => simp

/-- Rewriting the table of friendships spares it only if nothing comes of it. -/
theorem spared_friends {rows : List Friendship} :
    Spared server { server with friends := rows } ↔ rows = server.friends :=
  ⟨fun spared => spared.friends, fun same => ⟨same, fun _ => rfl, fun _ => rfl⟩⟩

/-- A name that is not admitted ends a method. -/
theorem spares_admits {name : Value} {next : Unit → Rpc Value} :
    Spares server (userExistsIfLocal name >>= next) server ↔
      (server.Admits name → Spares server (next ()) server) := by
  by_cases admits : server.Admits name
  · rw [spares_peek (minds_userExistsIfLocal name) admits]
    simp [admits]
  · rw [spares_stop (minds_userExistsIfLocal name) fun _ ok => admits ok]
    simp [admits, Spared.refl]

/-- A row is inserted unless there is one. -/
theorem insertAbsent_ok {x y : Value} {pair : Option Text × Option Text}
    (bound : bindTwo x y = .ok pair) :
    insertAbsent x y server =
      if server.friends.any (Friendship.named · pair) then (.ok false, server)
      else (.ok true, { server with friends := Write.insert.run pair server.friends }) := by
  unfold insertAbsent
  rw [run_bind_ok (executeQuery_ok bound server)]
  simp only [countFriend]
  rw [show fetched (some (server.friends.countP fun row => row.named pair)) =
    pure (server.friends.countP fun row => row.named pair) from rfl, bind_pure_left]
  -- The rows of the pair are counted first.
  by_cases absent : server.friends.countP (fun row => row.named pair) = 0
  · have none_ : server.friends.any (Friendship.named · pair) = false := by
      simpa [List.countP_eq_zero] using absent
    rw [if_pos absent, run_bind_ok (executeQuery_ok bound server), none_]
    rfl
  · have some_ : server.friends.any (Friendship.named · pair) = true := by
      simpa [List.countP_eq_zero] using absent
    rw [if_neg absent, some_]
    rfl

/-- Nothing is inserted for parameters that are refused. -/
theorem insertAbsent_error {x y : Value} {e : Exn} (refused : bindTwo x y = .error e) :
    ∃ e', insertAbsent x y = Act.raise e' := by
  unfold insertAbsent
  rw [executeQuery_error refused]
  split
  · exact ⟨.typeError, by rw [bind_pure_left]; rfl⟩
  · exact ⟨e, bind_raise⟩

/-- Deleting a row that has just been inserted leaves the rows that were there. -/
theorem delete_insert {pair : Option Text × Option Text} {rows : List Friendship}
    (named : pair.1.isSome ∧ pair.2.isSome)
    (absent : rows.any (Friendship.named · pair) = false) :
    Write.delete.run pair (Write.insert.run pair rows) = rows := by
  -- The deletion takes the row that was inserted.
  have last : Friendship.named ⟨pair.1, pair.2, notAccepted⟩ pair = true := by
    simp [Friendship.named, sqlEq, named.1, named.2]
  -- No other row is named so.
  simp only [List.any_eq_false, Bool.not_eq_true] at absent
  have others : rows.filter (fun row => !row.named pair) = rows :=
    List.filter_eq_self.mpr fun row mem => by simp [absent row mem]
  simp [Write.run, last, others]

/-- Deleting rows changes the table if there are any. -/
theorem delete_eq_self {pair : Option Text × Option Text} {rows : List Friendship} :
    Write.delete.run pair rows = rows ↔ rows.any (Friendship.named · pair) = false := by
  simp [Write.run, List.filter_eq_self]

/-- What follows the check of a friend's domain fails where there is none. -/
theorem spares_domainOf {friend : Value} {next : Text → Rpc Value} :
    Spares start (domainOf friend >>= next) mid ↔
      match friend.domain with
      | some domain => Spares start (next domain) mid
      | none => Spared start mid := by
  cases has : friend.domain with
  -- With a domain the check only looks.
  | some domain => exact spares_peek (minds_domainOf friend) (domainOf_eq_ok.mpr has)
  | none =>
    -- Without one it fails.
    refine spares_stop (minds_domainOf friend) fun domain ok => ?_
    rw [domainOf_eq_ok, has] at ok
    contradiction

/-- A name that is admitted and can be bound is a text. -/
theorem admits_bind {name : Value} {bound : Option Text} (admits : server.Admits name)
    (ok : name.bind = .ok bound) : bound.isSome := by
  have minds : Keeps (fun _ : Server => True) (userExistsIfLocal name) fun _ =>
      name.searchable = true := minds_userExistsIfLocal name
  have searchable := (minds server trivial).2 () admits
  -- A name that is admitted can be searched in, which leaves only a text.
  cases name with
  | raw bytes =>
    simp only [Value.bind] at ok
    split at ok
    · cases ok
      rfl
    · contradiction
  | array items => cases ok
  | map entries => cases ok
  | _ => cases searchable

/-- A reply of success is no failure. -/
theorem success_isFailure (text : String) : (reply .success text).isFailure = false := rfl

/-- A method that is about to succeed spares whatever there is. -/
theorem spares_send {other : Address} {note : Value} {text : String} :
    Spares start (send other note >>= fun _ => pure (reply .success text)) mid := by
  have sent : send other note mid = (.ok (), after (send other note) mid) := rfl
  rw [spares_ran sent, spares_ok (success_isFailure text)]
  trivial

/-- A push to a name that is a key is about to succeed. -/
theorem spares_push {name note : Value} {key : Key} {text : String} (named : name.key = .ok key) :
    Spares start (push name note >>= fun _ => pure (reply .success text)) mid := by
  -- A push to a key succeeds, whether anybody is online or not.
  have pushed : push name note mid = (.ok (), after (push name note) mid) := by
    refine Prod.ext ?_ rfl
    unfold push
    rw [run_bind_ok (run_read mid), named, ofExcept_ok, bind_pure_left]
    cases mid.online key <;> rfl
  rw [spares_ran pushed, spares_ok (success_isFailure text)]
  trivial

/-- A registration spares the tables unless the other server has its first row undone. -/
theorem registerFriend_spares {friend un : Value} :
    Spares server (registerFriend net conn friend un) server ↔
      ¬ SpoilsRegister net conn server friend un := by
  -- The row is inserted before the friend's server is asked, so what is asked of it decides.
  unfold registerFriend SpoilsRegister
  simp only [spares_ifAuth, spares_admits, not_exists, not_and]
  refine forall_congr' fun session => imp_congr_right fun found =>
    imp_congr_right fun named => imp_congr_right fun acting => ?_
  cases bound : bindTwo (actingName session un) friend with
  -- Names that cannot be bound stop the insertion itself.
  | error e =>
    obtain ⟨e', stops⟩ := insertAbsent_error bound
    rw [stops, bind_raise, spares_raise]
    simp [Spared.refl]
  | ok pair =>
    simp only [Except.ok.injEq, forall_eq']
    obtain ⟨first, second⟩ := bindTwo_eq_ok.mp bound
    have texts := And.intro (admits_bind acting first) (admits_bind named second)
    have swapped : bindTwo friend (actingName session un) = .ok (pair.2, pair.1) :=
      bindTwo_eq_ok.mpr ⟨second, first⟩
    obtain ⟨key, keyed⟩ := key_of_bind first
    obtain ⟨friendKey, friendKeyed⟩ := key_of_bind second
    -- The state behind the first insertion.
    generalize here : server.friends.any (Friendship.named · pair) = registered
    have inserted : ∃ mid, insertAbsent (actingName session un) friend server =
          (.ok !registered, mid) ∧ mid.domain = server.domain ∧
        (Spared server mid ↔ registered = true) ∧
        (Spared server (deleteFriend pair mid).2 ↔ registered = false) := by
      rw [insertAbsent_ok bound, here]
      cases registered with
      | true =>
        refine ⟨server, rfl, rfl, by simp [Spared.refl], ?_⟩
        refine spared_friends.trans (delete_eq_self.trans ?_)
        rw [here]
      | false =>
        refine ⟨_, rfl, rfl, spared_friends.trans ?_, spared_friends.trans ?_⟩
        · simp [Write.run]
        · exact ⟨fun _ => rfl, fun _ => delete_insert texts here⟩
    obtain ⟨mid, ran, home, undisturbed, undone⟩ := inserted
    rw [spares_ran ran, spares_domainOf]
    -- Without a domain the call fails behind the insertion.
    cases has : friend.domain with
    | none =>
      simp only [undisturbed, Unknown, Unconfirmed, has]
      cases registered <;> simp
    | some domain =>
      simp only [Unknown, Unconfirmed, has, Option.some.injEq, forall_eq', exists_eq_left']
      rw [spares_ran (run_read mid), home]
      by_cases local_ : domain = server.domain
      · -- Both names are of this domain, where nothing fails any more.
        rw [if_neg (not_not.mpr local_)]
        have succeeds : Spares server (insertAbsent friend (actingName session un) >>= fun b =>
            if b = true then
              push friend (message .pushFriendRequest [actingName session un]) >>= fun _ =>
                pure (reply .success "Friend Registered")
            else pure (reply .success "Friend Registered")) mid := by
          have second := @insertAbsent_ok mid _ _ _ swapped
          split at second
          · rw [spares_ran second]
            exact (spares_ok (success_isFailure _)).mpr trivial
          · rw [spares_ran second]
            exact spares_push friendKeyed
        simp [local_, succeeds]
      · rw [if_pos local_]
        cases atServer : session.status.isStatus .server with
        | true =>
          -- A server is told that the request is registered, whoever it is for.
          rw [if_pos rfl, keyed, ofExcept_ok, bind_pure_left]
          have succeeds : ∀ rVal : Value, rVal.isFailure = false →
              Spares server (pure rVal) mid := fun rVal good => (spares_ok good).mpr trivial
          simp only [Bool.true_eq_false, false_and, and_false, ite_self,
            not_false_eq_true, iff_true]
          cases mid.online key with
          | none => exact succeeds _ rfl
          | some other =>
            dsimp only
            split
            · exact succeeds _ rfl
            · exact spares_send
        -- A user's request goes to the server of the friend, and its answer is looked at.
        | false =>
          rw [if_neg Bool.false_ne_true]
          refine (spares_answer (fun whole =>
            if whole = some RemoteMethod.userNotFound.code then
              executeQuery (.ok pair) deleteFriend >>= fun _ => Act.raise .userNotFound
            else if whole ≠ some RemoteMethod.success.code then Act.raise .rpcError
            else pure (reply .success "Friend Registered")) ?_).trans ?_
          · simp [spares_raise]
          · generalize net.code domain _ = answer
            -- Only an unknown friend has the insertion undone.
            by_cases unknown : answer = some RemoteMethod.userNotFound.code
            · rw [if_pos unknown, spares_ran (executeQuery_ok rfl mid), spares_raise, undone]
              cases registered <;> simp [unknown, local_]
            · rw [if_neg unknown]
              by_cases success : answer = some RemoteMethod.success.code
              · rw [if_neg (not_not.mpr success), spares_ok (success_isFailure _)]
                cases registered <;> simp [success, RemoteMethod.code]
              · rw [if_pos success, spares_raise, undisturbed]
                cases registered <;> simp [unknown, success, local_]

/-- A request that must succeed is the last thing that can fail. -/
theorem spares_callServerOk {domain : Text} {request : Value} {text : String} :
    Spares start (callServerOk net domain request >>= fun _ => pure (reply .success text)) mid ↔
      (net.code domain request ≠ some RemoteMethod.success.code → Spared start mid) := by
  -- What is granted does not fail, and what is refused fails in the state it was asked in.
  by_cases success : net.code domain request = some RemoteMethod.success.code
  · rw [spares_peek (minds_callServerOk _ _) (callServerOk_eq_ok.mpr success),
      spares_ok (success_isFailure text)]
    simp [success]
  · rw [spares_stop (minds_callServerOk _ _) fun _ ok => success (callServerOk_eq_ok.mp ok)]
    simp [success]

/-- A query whose parameters are refused keeps everything, in either order of them. -/
theorem keeps_refused {x y : Value} {e : Exn} {inv : Server → Prop}
    {statement : Option Text × Option Text → Server → Option Nat × Server}
    (refused : bindTwo x y = .error e) :
    Keeps inv (executeQuery (bindTwo x y) statement) (fun _ => True) ∧
      Keeps inv (executeQuery (bindTwo y x) statement) fun _ => True := by
  have each : ∀ {x y : Value} {e : Exn}, bindTwo x y = .error e →
      Keeps inv (executeQuery (bindTwo x y) statement) fun _ => True := by
    intro x y e refused
    rw [executeQuery_error refused]
    exact .ite (fun _ => .pure trivial) fun _ => .raise
  refine ⟨each refused, ?_⟩
  cases swapped : bindTwo y x with
  | error e' =>
    rw [← swapped]
    exact each swapped
  | ok pair =>
    -- What can be bound in one order can be bound in the other one.
    obtain ⟨second, first⟩ := bindTwo_eq_ok.mp swapped
    rw [(@bindTwo_eq_ok _ _ (pair.2, pair.1)).mpr ⟨first, second⟩] at refused
    cases refused

/-- Removing a friend spares the tables unless a request to its server fails. -/
theorem unregisterFriend_spares {friend un : Value} :
    Spares server (unregisterFriend net conn friend un) server ↔
      ¬ SpoilsUnregister net conn server friend un := by
  -- Both rows are deleted before the friend's server is asked.
  unfold unregisterFriend SpoilsUnregister
  simp only [spares_ifAuth, spares_admits, not_exists, not_and]
  refine forall_congr' fun session => imp_congr_right fun found =>
    imp_congr_right fun named => ?_
  cases bound : bindTwo (actingName session un) friend with
  -- Names that cannot be bound stop the call before it deletes anything.
  | error e =>
    simp only [reduceCtorEq, false_implies, implies_true, iff_true]
    rw [← bound]
    refine spares_keeps (.andThen (keeps_refused bound).1 fun _ =>
      .andThen (keeps_refused bound).2 fun _ => .andThen (minds_domainOf _) fun domain =>
      .andThen .look fun state => .ite (fun _ => ?_) fun _ => .pure trivial)
    exact .andThen (minds_callServerOk _ _) fun _ => .pure trivial
  | ok pair =>
    obtain ⟨first, second⟩ := bindTwo_eq_ok.mp bound
    have swapped : bindTwo friend (actingName session un) = .ok pair.swap :=
      bindTwo_eq_ok.mpr ⟨second, first⟩
    simp only [Except.ok.injEq, forall_eq']
    rw [spares_ran (executeQuery_ok rfl server), swapped, spares_ran (executeQuery_ok rfl _)]
    -- The state behind both deletions.
    generalize gone : (deleteFriend pair.swap (deleteFriend pair server).2).2 = mid
    have home : mid.domain = server.domain := by rw [← gone]; rfl
    have disturbed : Spared server mid ↔
        Write.delete.run pair.swap (Write.delete.run pair server.friends) = server.friends := by
      rw [← gone]
      exact spared_friends
    rw [spares_domainOf]
    simp only [Unconfirmed]
    cases has : friend.domain with
    | none => simp [disturbed]
    | some domain =>
      simp only [Option.some.injEq, forall_eq']
      rw [spares_ran (run_read mid), home]
      by_cases passed : domain ≠ server.domain ∧ session.status.isStatus .server = false
      · rw [if_pos passed, spares_callServerOk, disturbed]
        simp only [passed, ne_eq, not_false_eq_true, true_and]
        tauto
      · rw [if_neg passed, spares_ok (success_isFailure _)]
        tauto

/-- Setting a bit that is not set, where the request to the friend's server fails, is all that goes
wrong with accepting. -/
theorem acceptFriend_spares {friend : Value} :
    Spares server (acceptFriend net conn friend) server ↔
      ¬ SpoilsAccept net conn server friend := by
  -- The caller's row is updated before the friend's server is asked.
  unfold acceptFriend SpoilsAccept
  simp only [spares_ifAuth, spares_admits, not_exists, not_and]
  refine forall_congr' fun session => imp_congr_right fun found =>
    imp_congr_right fun named => ?_
  cases bound : bindTwo session.name friend with
  -- Names that cannot be bound stop the call before it updates anything.
  | error e =>
    simp only [reduceCtorEq, false_implies, implies_true, iff_true]
    rw [← bound]
    refine spares_keeps (.andThen (keeps_refused bound).1 fun _ =>
      .andThen (minds_domainOf _) fun domain => .andThen .look fun state =>
      .ite (fun _ => ?_) fun _ => ?_)
    · exact .andThen (keeps_refused bound).2 fun _ => .andThen (minds_push _ _) fun _ =>
        .pure trivial
    · exact .andThen (minds_callServerOk _ _) fun _ => .pure trivial
  | ok pair =>
    obtain ⟨first, second⟩ := bindTwo_eq_ok.mp bound
    have swapped : bindTwo friend session.name = .ok pair.swap :=
      bindTwo_eq_ok.mpr ⟨second, first⟩
    obtain ⟨key, keyed⟩ := key_of_bind second
    simp only [Except.ok.injEq, forall_eq']
    rw [spares_ran (executeQuery_ok rfl server)]
    -- The state behind the update of the acceptor's row.
    generalize set_ : (updateFriend pair server).2 = mid
    have home : mid.domain = server.domain := by rw [← set_]; rfl
    have disturbed : Spared server mid ↔
        Write.update.run pair server.friends = server.friends := by
      rw [← set_]
      exact spared_friends
    rw [spares_domainOf]
    cases has : friend.domain with
    | none => simp [disturbed]
    | some domain =>
      simp only [Option.some.injEq, forall_eq']
      rw [spares_ran (run_read mid), home]
      by_cases local_ : domain = server.domain
      · rw [if_pos local_, swapped, spares_ran (executeQuery_ok rfl mid)]
        simp [local_, spares_push keyed]
      · rw [if_neg local_, spares_callServerOk, disturbed]
        tauto

/-- A valid status is written, and the call returns if the friends can be told. -/
theorem statusChanged_run {session : Session} {stat : Value}
    (found : server.session conn = some session) (valid : stat.isValidStatus = true) :
    Spared { server with authList := assign conn { session with status := stat } server.authList }
        (after (statusChanged net conn stat) server) ∧
      ((∃ rVal, result (statusChanged net conn stat) server = .ok rVal) ↔
        ¬ server.Unheard net session.name stat) ∧
      ∀ rVal, result (statusChanged net conn stat) server = .ok rVal →
        rVal = reply .success "Status Updated" := by
  generalize written : { server with
    authList := assign conn { session with status := stat } server.authList } = mid
  have home : mid.domain = server.domain := by rw [← written]
  have rows : ∀ name, acceptedFriends name mid = acceptedFriends name server := by
    intro name
    rw [← written]
    rfl
  -- What is left to do once the status is written.
  let told (name : Option Text) : Rpc Value :=
    pushStatus net conn session.name stat (acceptedFriends name mid) [] >>= fun _ =>
      pure (reply .success "Status Updated")
  obtain ⟨rest, ran, pushes, quiet, raises⟩ : ∃ rest : Rpc Value,
      statusChanged net conn stat server = rest mid ∧
        (∀ name, session.name.bind = .ok name → rest = told name) ∧
        (session.name.bind = .error .databaseError →
          rest = pure (reply .success "Status Updated")) ∧
        ∀ e, session.name.bind = .error e → e ≠ .databaseError → rest = Act.raise e := by
    have reads : statusChanged net conn stat server = _ := run_bind_ok (run_read server)
    rw [reads, found]
    unfold Value.isValidStatus at valid
    simp only [valid, if_true]
    rw [run_bind_ok (run_write _ server), written, run_bind_ok (run_read mid)]
    refine ⟨_, rfl, ?_, ?_, ?_⟩
    · intro name bound
      simp only [bound]
      rfl
    · intro down
      simp only [down]
    · intro e bound other
      simp only [bound]
  -- The name of the session decides what comes behind the status.
  unfold after result Server.Unheard
  rw [ran]
  cases bound : session.name.bind with
  | error e =>
    by_cases down : e = .databaseError
    · rw [quiet (down ▸ bound)]
      simp [Spared.refl, down]
    · rw [raises e bound down]
      simp [Spared.refl, down]
  | ok name =>
    rw [pushes name bound]
    have reached := @pushStatus_eq_ok net conn session.name stat (acceptedFriends name mid) mid []
      (by simp)
    have minds : Keeps (Spared mid)
        (pushStatus net conn session.name stat (acceptedFriends name mid) []) fun _ => True :=
      minds_pushStatus _ _ _ _
    have kept := (minds mid .refl).1
    rw [home, rows name] at reached
    -- Telling the friends keeps the tables as they are by then.
    refine ⟨after_bind kept fun _ => .pure trivial, ?_, ?_⟩
    · have returns : (∃ rVal, result (told name) mid = .ok rVal) ↔
          result (pushStatus net conn session.name stat (acceptedFriends name mid) []) mid =
            .ok () := by
        simp only [told, result_bind_eq_ok]
        constructor
        · rintro ⟨_, _, ok, -⟩
          exact ok
        · exact fun ok => ⟨_, (), ok, rfl⟩
      rw [rows name] at returns
      refine returns.trans (reached.trans ?_)
      simp
    · intro rVal returned
      obtain ⟨_, _, last⟩ := result_bind_eq_ok.mp returned
      cases last
      rfl

/-- A method whose replies are no failures spares what it leaves if it does not return. -/
theorem spares_returns {act : Rpc Value} {written : Server}
    (kept : Spared written (after act mid))
    (good : ∀ rVal, result act mid = .ok rVal → rVal.isFailure = false) :
    Spares start act mid ↔ ((∀ rVal, result act mid ≠ .ok rVal) → Spared start written) := by
  unfold Spares failing
  -- A method that returns has written and not failed; one that raises has written nothing.
  cases out : result act mid with
  | ok rVal => simp [good rVal out]
  | error e =>
    simp only [reduceCtorEq, ne_eq, not_false_eq_true, implies_true, true_implies]
    exact ⟨fun spared => spared.trans kept.symm, fun spared => spared.trans kept⟩

/-- Writing a session spares the tables only if it was there. -/
theorem spared_assign {session session' : Session} (found : server.session conn = some session) :
    Spared server { server with authList := assign conn session' server.authList } ↔
      session = session' := by
  -- The session is looked up again, on its own connection and on others.
  constructor
  · intro spared
    have now := spared.session conn
    rw [found] at now
    simp only [Server.session, lookup_assign, if_true, Option.some.injEq] at now
    exact now.symm
  · rintro rfl
    refine ⟨rfl, fun other => ?_, fun _ => rfl⟩
    simp only [Server.session, lookup_assign]
    split
    · rename_i same
      rw [same]
      exact found.symm
    · rfl

/-- Any other value is no status. -/
theorem statusChanged_invalid {stat : Value} (invalid : stat.isValidStatus = false) :
    Spares server (statusChanged net conn stat) server := by
  unfold statusChanged
  rw [spares_ifAuth]
  intro session found
  -- An invalid status is met by an exception at once.
  unfold Value.isValidStatus at invalid
  simp only [invalid, Bool.false_eq_true, if_false, spares_raise]
  exact .refl

/-- A change of status spares the tables unless it is one that the friends cannot be told. -/
theorem statusChanged_spares {stat : Value} :
    Spares server (statusChanged net conn stat) server ↔ ¬ SpoilsStatus net conn server stat := by
  unfold SpoilsStatus
  cases valid : stat.isValidStatus with
  | false => simp [statusChanged_invalid valid]
  | true =>
    -- Without a session nothing is written.
    cases found : server.session conn with
    | none =>
      have refused : Spares server (statusChanged net conn stat) server := by
        unfold statusChanged
        simp [spares_ifAuth, found]
      simp [refused]
    | some session =>
      -- The status was written, so all depends on whether it is news and whether the friends are
      -- told.
      obtain ⟨written, returns, only⟩ := @statusChanged_run _ net _ _ _ found valid
      have spares := @spares_returns server _ _ _ written fun rVal ok => by
        rw [only rVal ok]
        rfl
      rw [← not_exists, returns, not_not, spared_assign found] at spares
      rw [spares]
      have same : session = { session with status := stat } ↔ session.status = stat := by
        constructor
        · intro same
          exact congrArg Session.status same
        · rintro rfl
          rfl
      rw [same]
      simp only [Option.some.injEq, true_and, exists_eq_left']
      tauto

/-- A login spares the tables only if the user was online on the connection already. -/
theorem spared_login {userName status : Value} {key : Key} :
    Spared server
        { server with
          authList := assign conn ⟨userName, status⟩ server.authList
          connTbl := assign key conn server.connTbl } ↔
      server.session conn = some ⟨userName, status⟩ ∧ server.online key = some conn := by
  constructor
  · -- The connection and the name are looked up again.
    intro spared
    have session := spared.session conn
    have online := spared.online key
    simp only [Server.session, Server.online, lookup_assign, if_true] at session online
    exact ⟨session.symm, online.symm⟩
  · rintro ⟨found, leads⟩
    refine ⟨rfl, fun other => ?_, fun other => ?_⟩
    · simp only [Server.session, lookup_assign]
      split
      · rename_i same
        rw [same]
        exact found.symm
      · rfl
    · simp only [Server.online, lookup_assign]
      split
      · rename_i same
        rw [same]
        exact leads.symm
      · rfl

/-- A login spares the tables unless it is one that the friends cannot be told. -/
theorem doAuth_spares {userName password : Value} :
    Spares server (doAuth net conn userName password) server ↔
      ¬ SpoilsLogin net conn server userName password := by
  unfold doAuth SpoilsLogin
  cases bound : bindTwo userName password with
  -- Credentials that cannot be bound raise before anything is written.
  | error e =>
    have spared : ∀ e : Exn, Spares server (Act.raise e) server := fun e => spares_raise.mpr .refl
    cases e <;> simp [spared]
  | ok pair =>
    obtain ⟨name, pass⟩ := pair
    obtain ⟨key, keyed⟩ := key_of_bind (bindTwo_eq_ok.mp bound).1
    dsimp only
    rw [spares_ran (run_read server)]
    by_cases one : (server.users.countP fun row =>
        sqlEq row.userName name && sqlEq row.password pass) = 1
    · rw [if_pos one, spares_ran (run_write _ server), keyed, ofExcept_ok, bind_pure_left,
        spares_ran (run_write _ _)]
      dsimp only
      generalize logged : { server with
        authList := assign conn ⟨userName, Status.online.value⟩ server.authList
        connTbl := assign key conn server.connTbl } = mid
      have found : mid.session conn = some ⟨userName, Status.online.value⟩ := by
        rw [← logged]
        simp [Server.session, lookup_assign]
      have valid : Value.isValidStatus Status.online.value = true := rfl
      obtain ⟨written, returns, only⟩ := @statusChanged_run _ net _ _ _ found valid
      -- The status is that of the login, so writing it changes nothing more.
      have again : Spared mid { mid with
          authList := assign conn ⟨userName, Status.online.value⟩ mid.authList } :=
        (spared_assign found).mpr rfl
      have spares := @spares_returns server mid (statusChanged net conn Status.online.value >>=
          fun _ => pure (reply .authenticated "Authentication Succeeded")) _
        (again.trans (after_bind written fun _ => .pure trivial)) fun rVal ok => by
          obtain ⟨_, _, last⟩ := result_bind_eq_ok.mp ok
          cases last
          rfl
      have ends : (∃ rVal, result (statusChanged net conn Status.online.value >>= fun _ =>
          (pure (reply .authenticated "Authentication Succeeded") : Rpc Value)) mid = .ok rVal) ↔
          ¬ server.Unheard net userName Status.online.value := by
        have same : mid.Unheard net userName Status.online.value ↔
            server.Unheard net userName Status.online.value := by
          rw [← logged]
          rfl
        rw [← same, ← returns]
        simp only [result_bind_eq_ok]
        constructor
        · rintro ⟨_, rVal, ok, -⟩
          exact ⟨rVal, ok⟩
        · rintro ⟨rVal, ok⟩
          exact ⟨_, rVal, ok, rfl⟩
      -- The call spares the tables if it returns, or if the login was there before.
      rw [← not_exists, ends, not_not, ← logged, spared_login] at spares
      rw [← logged, spares]
      constructor
      · rintro spared ⟨name', pass', key', bound', -, keyed', fresh, unheard⟩
        rw [Except.ok.injEq] at keyed'
        rw [← keyed'] at fresh
        exact fresh (spared unheard)
      · intro fine unheard
        by_contra fresh
        exact fine ⟨name, pass, key, rfl, one, rfl, fresh, unheard⟩
    · -- Wrong credentials are answered, and write nothing.
      rw [if_neg one]
      have spared : Spares server (pure (reply .authFailed "Authentication Failed")) server :=
        fun _ => .refl
      refine iff_of_true spared ?_
      rintro ⟨name', pass', key', bound', one', -⟩
      cases bound'
      exact one one'

/-- The login of a server does not fail once it has written. -/
theorem doAuthServer_spares {hostName : Value} :
    Spares server (doAuthServer net conn hostName) server := by
  unfold doAuthServer
  split
  · -- The password is checked before anything is written.
    split
    · exact spares_raise.mpr .refl
    · split
      · rw [spares_ran (run_write _ server), spares_ok rfl]
        trivial
      · exact fun _ => .refl
  · exact spares_raise.mpr .refl

/-- The news of an accepted request is not lost behind the update. -/
theorem serverAcceptFriend_spares {userName friend status : Value} :
    Spares server (serverAcceptFriend conn userName friend status) server := by
  -- The update is of a row, and the push behind it does not fail.
  unfold serverAcceptFriend
  rw [spares_ifAuth]
  intro session found
  rw [spares_admits]
  intro named
  cases bound : bindTwo userName friend with
  | error e =>
    rw [← bound]
    exact spares_keeps (.andThen (keeps_refused bound).1 fun _ => .andThen (minds_push _ _)
      fun _ => .pure trivial)
  | ok pair =>
    obtain ⟨key, keyed⟩ := key_of_bind (bindTwo_eq_ok.mp bound).1
    rw [spares_ran (executeQuery_ok rfl server)]
    exact spares_push keyed

/-- A call spares the tables exactly when it does not spoil them. -/
theorem call_spares {fn : Handler} {args : List Value} :
    Spares server (fn.call net conn args) server ↔ ¬ fn.Spoils net conn server args := by
  have quiet {act : Rpc Value} (keeps : Keeps (Spared server) act fun _ => True) :
      Spares server act server ↔ ¬ False :=
    iff_of_true (spares_keeps keeps) not_false
  -- Handler by handler.
  unfold Handler.call
  split
  · exact doAuth_spares
  · exact registerFriend_spares
  · exact registerFriend_spares
  · exact unregisterFriend_spares
  · exact unregisterFriend_spares
  · exact quiet (.pure trivial)
  · exact statusChanged_spares
  · exact iff_of_true doAuthServer_spares not_false
  · exact acceptFriend_spares
  · exact iff_of_true serverAcceptFriend_spares not_false
  · exact quiet (minds_serverStatusChange _)
  · exact quiet minds_getAllFriendStatuses
  · exact quiet (minds_serverGetStatus _)
  · exact quiet (.pure trivial)
  · exact quiet (minds_signClientCert _)
  · exact quiet (minds_getUserStatus _)
  · refine iff_of_true (spares_raise.mpr .refl) ?_
    unfold Handler.Spoils
    split <;> simp_all

/-- Whatever is caught, the reply reports an error. -/
theorem errorReply_isFailure (e : Exn) : (errorReply e).isFailure = true := by
  cases e <;> rfl

/-- A call that is answered with an error changes none of the tables exactly when it does not fail
behind a write that is not undone. -/
theorem failure_spares_iff (net : Net) (conn : Address) (server : Server) (fn : Handler)
    (args : List Value) :
    (∀ rVal, (writeback net conn fn args server).sent.getLast? = some (conn, rVal) →
      rVal.isFailure = true → Spared server (writeback net conn fn args server)) ↔
    ¬ fn.Spoils net conn server args := by
  -- The answer itself is sent beside the tables.
  rw [← call_spares]
  have behind : ∀ rVal, Spared server
      { after (fn.call net conn args) server with
        sent := (after (fn.call net conn args) server).sent ++ [(conn, rVal)] } ↔
      Spared server (after (fn.call net conn args) server) := fun rVal =>
    ⟨fun spared => ⟨spared.friends, spared.session, spared.online⟩, Silent.send _ _ _⟩
  unfold writeback Spares failing
  simp only [List.getLast?_append, List.getLast?_singleton, Option.some_or, Option.some.injEq,
    Prod.mk.injEq, true_and, forall_eq', behind]
  cases result (fn.call net conn args) server with
  | ok rVal => rfl
  | error e => simp [errorReply_isFailure]

/-- A user of a domain whose server is not found. -/
def userX : Text := ['x', '@', 'n']

/-- A request to a friend whose server is down is answered with an error, and stays registered. -/
theorem failure_writes : ¬ ∀ (net : Net) (conn : Address) (server : Server) (fn : Handler)
    (args : List Value) (rVal : Value),
    (writeback net conn fn args server).sent.getLast? = some (conn, rVal) →
    rVal.isFailure = true → Spared server (writeback net conn fn args server) := by
  -- The request stays in the rows, though its reply is an error.
  intro claim
  have spared := claim offline (clientConn 1) (office []) .registerFriend [.raw userX]
    (errorReply .gaierror) rfl rfl
  have rows : (writeback offline (clientConn 1) .registerFriend [.raw userX] (office [])).friends =
      [⟨some userA, some userX, notAccepted⟩] := rfl
  rw [spared.friends] at rows
  contradiction

end Motmot.Plume
