import Motmot.Proofs.Plume.Presence

/-!
What the server sends, and to whom.

A message that calls a function is answered once, on its own connection. Before that the function
may push news to the connections of others, who are named by the message or have accepted the
user as a friend.
-/

namespace Motmot.Plume

open Act

/-- What a call may push to another connection, by the tables of the server. -/
inductive Warranted (server : Server) (conn : Address) :
    Handler → List Value → Address → Value → Prop
  /-- The status of a user goes to the friends that have been accepted and are online. -/
  | status {fn : Handler} {args : List Value} {session : Session} {name friend : Option Text}
      {other : Address} (signs : fn = .doAuth ∨ fn = .statusChanged)
      (own : server.session conn = some session) (bound : session.name.bind = .ok name)
      (accepted : friend ∈ acceptedFriends name server)
      (online : server.online (columnKey friend) = some other) :
      Warranted server conn fn args other
        (message .pushClientStatus (session.name :: session.status :: conn.values))
  /-- A request goes to the friend whom it names. -/
  | request {args : List Value} {session : Session} {friend un : Value} {key : Key}
      {other : Address} (asks : args = [friend] ∧ un = .nil ∨ args = [friend, un])
      (own : server.session conn = some session) (named : friend.key = .ok key)
      (online : server.online key = some other) :
      Warranted server conn .registerFriend args other
        (message .pushFriendRequest [actingName session un])
  /-- A request that another server passes on goes to the user whom it names. -/
  | passed {session : Session} {friend un : Value} {key : Key} {other : Address}
      (own : server.session conn = some session)
      (remote : session.status.isStatus .server = true) (given : un.isNone = false)
      (named : un.key = .ok key) (online : server.online key = some other) :
      Warranted server conn .registerFriend [friend, un] other
        (message .pushFriendRequest [friend])
  /-- Whoever is accepted hears of it, with the status of the one who accepts. -/
  | accept {session : Session} {friend : Value} {key : Key} {other : Address}
      (own : server.session conn = some session) (named : friend.key = .ok key)
      (online : server.online key = some other) :
      Warranted server conn .acceptFriend [friend] other
        (message .pushFriendAccept [session.name, session.status])
  /-- What another server says to have been accepted goes to the user whom it names. -/
  | accepted {session : Session} {userName friend status : Value} {key : Key} {other : Address}
      (own : server.session conn = some session) (named : userName.key = .ok key)
      (online : server.online key = some other) :
      Warranted server conn .serverAcceptFriend [userName, friend, status] other
        (message .pushFriendAccept [friend, status])

/-- What a call has sent is warranted by the tables that it leaves. -/
def Mailed (server next : Server) (conn : Address) (fn : Handler) (args : List Value) : Prop :=
  ∃ pushes, next.sent = server.sent ++ pushes ∧
    ∀ push ∈ pushes, Warranted next conn fn args push.1 push.2

/-- Nothing but warranted messages were sent from a server, whose connections are the same. -/
structure Sends (home : Server) (table : List Friendship → Prop) (warrant : Address → Value → Prop)
    (server : Server) : Prop where
  authList : server.authList = home.authList
  connTbl : server.connTbl = home.connTbl
  friends : table server.friends
  sent : ∃ pushes, server.sent = home.sent ++ pushes ∧
    ∀ push ∈ pushes, warrant push.1 push.2

variable {home server next : Server} {table : List Friendship → Prop}
  {warrant : Address → Value → Prop} {net : Net} {conn : Address} {fn : Handler}
  {args : List Value}

/-- Nothing was sent yet. -/
theorem Sends.start (holds : table home.friends) : Sends home table warrant home :=
  ⟨rfl, rfl, holds, [], (List.append_nil _).symm, fun _ mem => absurd mem List.not_mem_nil⟩

/-- Whatever comes of the table. -/
theorem Sends.open : Sends home (fun _ => True) warrant home := .start trivial

/-- A warrant rests on the connections, and that of a status on the friends as well. -/
theorem Warranted.congr {other : Address} {note : Value}
    (warranted : Warranted home conn fn args other note) (authList : next.authList = home.authList)
    (connTbl : next.connTbl = home.connTbl)
    (friends : fn.signs = true → next.friends = home.friends) :
    Warranted next conn fn args other note := by
  -- The warrant reads the tables of connections, and nothing else that has changed.
  have session : next.session conn = home.session conn := by
    rw [Server.session, authList, Server.session]
  have online : ∀ key, next.online key = home.online key := by
    intro key
    rw [Server.online, connTbl, Server.online]
  cases warranted with
  | status signs own bound accepted up =>
    have same : next.friends = home.friends := friends (by rcases signs with rfl | rfl <;> rfl)
    refine .status signs (session.trans own) bound ?_ ((online _).trans up)
    rw [acceptedFriends, same]
    exact accepted
  | request asks own named up => exact .request asks (session.trans own) named ((online _).trans up)
  | passed own remote given named up =>
    exact .passed (session.trans own) remote given named ((online _).trans up)
  | accept own named up => exact .accept (session.trans own) named ((online _).trans up)
  | accepted own named up => exact .accepted (session.trans own) named ((online _).trans up)

/-- What a call has sent by then is warranted in the end. -/
theorem Sends.told (sends : Sends home table (Warranted home conn fn args) next)
    (same : home.sent = server.sent) (friends : fn.signs = true → next.friends = home.friends) :
    Mailed server next conn fn args := by
  obtain ⟨pushes, sent, warranted⟩ := sends.sent
  refine ⟨pushes, same ▸ sent, fun push mem => ?_⟩
  exact (warranted push mem).congr sends.authList sends.connTbl friends

/-- The table may be written as it pleases where nothing is said of it. -/
theorem endures_sends (write : Write) (x y : Value) :
    Endures (Sends home (fun _ => True) warrant) write x y :=
  fun _ _ _ sends => ⟨sends.authList, sends.connTbl, trivial, sends.sent⟩

theorem sends_send {other : Address} {note : Value} (warranted : warrant other note) :
    Keeps (Sends home table warrant) (send other note) fun _ => True := by
  refine .write trivial fun server sends => ?_
  -- One push more was sent, which is warranted.
  obtain ⟨pushes, sent, warrants⟩ := sends.sent
  refine ⟨sends.authList, sends.connTbl, sends.friends, pushes ++ [(other, note)], ?_, ?_⟩
  · show server.sent ++ _ = _
    rw [sent, List.append_assoc]
  · intro push mem
    rcases List.mem_append.mp mem with before | new
    · exact warrants push before
    · obtain rfl := List.mem_singleton.mp new
      exact warranted

/-- A push goes to whom the server has online under the name. -/
theorem sends_push {name note : Value} (warrants : ∀ key other, name.key = .ok key →
    home.online key = some other → warrant other note) :
    Keeps (Sends home table warrant) (push name note) fun _ => True := by
  refine .bind .read fun server sends => .bind (.ofExcept fun key named => named)
    fun key named => ?_
  -- The connections are those that the handler has begun with.
  have same : server.online key = home.online key := by
    rw [Server.online, sends.connTbl, Server.online]
  split
  · rename_i other online
    exact sends_send (warrants key other named (same.symm.trans online))
  · exact .pure trivial

/-- The status of a user is sent to the rows that are given. -/
theorem sends_pushStatus {userName stat : Value} {rows : List (Option Text)}
    (warrants : ∀ friend ∈ rows, ∀ other, home.online (columnKey friend) = some other →
      warrant other (message .pushClientStatus (userName :: stat :: conn.values))) :
    ∀ sentList, Keeps (Sends home table warrant)
      (pushStatus net conn userName stat rows sentList) fun _ => True := by
  -- By induction on the rows.
  induction rows with
  | nil => exact fun _ => .pure trivial
  | cons friend rows ih =>
    intro sentList
    have rest := ih fun other mem => warrants other (List.mem_cons_of_mem _ mem)
    have named : ∀ key, (columnValue friend).key = .ok key → key = columnKey friend := by
      intro key named
      cases friend <;> exact (Except.ok.inj named).symm
    refine .andThen .look fun server => .andThen (minds_domainOf _) fun domain => ?_
    refine .ite (fun _ => .andThen (sends_push ?_) fun _ => rest _) fun _ => ?_
    · intro key other at_ online
      rw [named key at_] at online
      exact warrants friend List.mem_cons_self other online
    · exact .ite (fun _ => rest _) fun _ => .andThen (minds_callServerOk _ _) fun _ => rest _

/-- Local names are only looked up. -/
theorem sends_userExistsIfLocal (name : Value) :
    Keeps (Sends home table warrant) (userExistsIfLocal name) fun _ => True :=
  (minds_userExistsIfLocal name).weaken fun _ _ => trivial

theorem sends_insertAbsent (x y : Value) :
    Keeps (Sends home (fun _ => True) warrant) (insertAbsent x y) fun _ => True :=
  minds_insertAbsent (endures_sends .insert x y)

theorem sends_update (x y : Value) : Keeps (Sends home (fun _ => True) warrant)
    (executeQuery (bindTwo x y) updateFriend) fun _ => True :=
  executeQuery_write (fun _ _ => rfl) (endures_sends .update x y)

theorem sends_delete (x y : Value) : Keeps (Sends home (fun _ => True) warrant)
    (executeQuery (bindTwo x y) deleteFriend) fun _ => True :=
  executeQuery_write (fun _ _ => rfl) (endures_sends .delete x y)

/-- A call that sends nothing has sent nothing that is not warranted. -/
theorem told_silent {act : Rpc Value} (signs : fn.signs = false)
    (keeps : ∀ {inv : Server → Prop}, Keeps inv act fun _ => True) :
    Mailed server (after act server) conn fn args := by
  have sends := @Sends.start server (fun _ => True) (Warranted server conn fn args) trivial
  refine Sends.told (keeps server sends).1 rfl fun same => ?_
  rw [signs] at same
  contradiction

/-- A request is pushed to the one whom it is for, if they are of this domain. -/
theorem registerFriend_told {friend un : Value}
    (asks : args = [friend] ∧ un = .nil ∨ args = [friend, un]) :
    Mailed server (after (registerFriend net conn friend un) server) conn .registerFriend args := by
  -- The two branches of the source, for friends of this domain and of another one.
  refine Sends.told (ifAuth_after (fun session own => ?_) .open) rfl fun signs => ?_
  · refine .andThen (sends_userExistsIfLocal _) fun _ =>
      .andThen (sends_userExistsIfLocal _) fun _ => .andThen (sends_insertAbsent _ _) fun _ =>
      .andThen (minds_domainOf _) fun domain => .bind .read fun mid sends => ?_
    refine .ite (fun _ => .ite (fun remote => ?_) fun _ => ?_) fun _ => ?_
    · -- The friend is of another domain, and so is the server that asks.
      refine .bind (.ofExcept fun key named => named) fun key named => ?_
      have same : mid.online key = server.online key := by
        rw [Server.online, sends.connTbl, Server.online]
      split
      · rename_i other online
        refine .ite (fun _ => .pure trivial) fun given => ?_
        have given : un.isNone = false := by simpa using given
        have acting : actingName session un = un := by simp [actingName, given]
        rw [acting] at named
        have shape : args = [friend, un] := by
          rcases asks with ⟨-, none_⟩ | shape
          · rw [none_] at given
            contradiction
          · exact shape
        rw [shape]
        exact .andThen (sends_send (.passed own remote given named (same.symm.trans online)))
          fun _ => .pure trivial
      · exact .pure trivial
    · -- The friend's server pushes for itself.
      refine .andThen (minds_callServer _ _) fun answers => .andThen (minds_single _) fun rVal =>
        .andThen (minds_ofExcept _) fun code => .ite (fun _ => ?_) fun _ => ?_
      · exact .andThen (sends_delete _ _) fun _ => .raise
      · exact .ite (fun _ => .raise) fun _ => .pure trivial
    · -- The friend is of this domain, and is told of a request that is new.
      refine .andThen (sends_insertAbsent _ _) fun inserted => .ite (fun _ => ?_) fun _ => ?_
      · exact .andThen (sends_push fun key other named online => .request asks own named online)
          fun _ => .pure trivial
      · exact .pure trivial
  · contradiction

theorem unregisterFriend_told {friend un : Value} :
    Mailed server (after (unregisterFriend net conn friend un) server) conn .unregisterFriend
      args := by
  -- The method changes rows and asks other servers, and pushes nothing.
  refine Sends.told (ifAuth_after (fun session own => ?_) .open) rfl fun signs => ?_
  · refine .andThen (sends_userExistsIfLocal _) fun _ => .andThen (sends_delete _ _) fun _ =>
      .andThen (sends_delete _ _) fun _ => .andThen (minds_domainOf _) fun domain =>
      .andThen .look fun mid => .ite (fun _ => ?_) fun _ => .pure trivial
    exact .andThen (minds_callServerOk _ _) fun _ => .pure trivial
  · contradiction

/-- Whoever is accepted is told so. -/
theorem acceptFriend_told {friend : Value} :
    Mailed server (after (acceptFriend net conn friend) server) conn .acceptFriend [friend] := by
  -- The push is made to a friend of this domain, in the branch that has updated its row.
  refine Sends.told (ifAuth_after (fun session own => ?_) .open) rfl fun signs => ?_
  · refine .andThen (sends_userExistsIfLocal _) fun _ => .andThen (sends_update _ _) fun _ =>
      .andThen (minds_domainOf _) fun domain => .andThen .look fun mid =>
      .ite (fun _ => ?_) fun _ => ?_
    · exact .andThen (sends_update _ _) fun _ =>
        .andThen (sends_push fun key other named online => .accept own named online)
          fun _ => .pure trivial
    · exact .andThen (minds_callServerOk _ _) fun _ => .pure trivial
  · contradiction

theorem serverAcceptFriend_told {userName friend status : Value} :
    Mailed server (after (serverAcceptFriend conn userName friend status) server) conn
      .serverAcceptFriend [userName, friend, status] := by
  refine Sends.told (ifAuth_after (fun session own => ?_) .open) rfl fun signs => ?_
  · exact .andThen (sends_userExistsIfLocal _) fun _ => .andThen (sends_update _ _) fun _ =>
      .andThen (sends_push fun key other named online => .accepted own named online)
        fun _ => .pure trivial
  · contradiction

/-- A status that is written is pushed to the accepted friends of the user. -/
theorem statusChanged_sends {stat : Value} (signs : fn = .doAuth ∨ fn = .statusChanged) :
    ∃ mid : Server, mid.sent = server.sent ∧
      Sends mid (· = mid.friends) (Warranted mid conn fn args)
        (after (statusChanged net conn stat) server) := by
  -- A connection without a session, an invalid status, and one that is written.
  have reads : statusChanged net conn stat server = _ := run_bind_ok (run_read server)
  unfold after
  rw [reads]
  cases found : server.session conn with
  | none => exact ⟨server, rfl, .start rfl⟩
  | some session =>
    dsimp only
    split
    · generalize written : { server with
        authList := assign conn { session with status := stat } server.authList } = mid
      have own : mid.session conn = some { session with status := stat } := by
        rw [← written]
        simp [Server.session, lookup_assign]
      have sent : mid.sent = server.sent := by rw [← written]
      -- The friends who are told are those of the state in which the status is written.
      rw [run_bind_ok (run_write _ server), written, run_bind_ok (run_read mid)]
      refine ⟨mid, sent, ?_⟩
      cases bound : session.name.bind with
      | ok name =>
        have keeps : Keeps (Sends mid (· = mid.friends) (Warranted mid conn fn args))
            (pushStatus net conn session.name stat (acceptedFriends name mid) [] >>= fun _ =>
              pure (reply .success "Status Updated")) fun _ => True := by
          refine .andThen (sends_pushStatus (fun friend accepted other online => ?_) _)
            fun _ => .pure trivial
          exact .status signs own bound accepted online
        exact (keeps mid (.start rfl)).1
      | error e => cases e <;> exact .start rfl
    · exact ⟨server, rfl, .start rfl⟩

theorem statusChanged_told {stat : Value} :
    Mailed server (after (statusChanged net conn stat) server) conn .statusChanged args := by
  obtain ⟨mid, same, sends⟩ := statusChanged_sends (.inr rfl)
  exact sends.told same fun _ => sends.friends

/-- Nothing was sent. -/
theorem told_nothing (same : next.sent = server.sent) : Mailed server next conn fn args :=
  ⟨[], same.trans (List.append_nil _).symm, fun _ mem => absurd mem List.not_mem_nil⟩

/-- A user who logs in is shown to be online. -/
theorem doAuth_told {userName password : Value} :
    Mailed server (after (doAuth net conn userName password) server) conn .doAuth args := by
  -- Names that cannot be bound, wrong credentials, and a login.
  unfold doAuth
  split
  · rename_i name pass bound
    unfold after
    rw [run_bind_ok (run_read server)]
    split
    · rw [run_bind_ok (run_write _ server)]
      cases named : userName.key with
      | error e => exact told_nothing rfl
      | ok key =>
        -- A login writes both tables, and then changes the status as the user would.
        rw [ofExcept_ok, bind_pure_left, run_bind_ok (run_write _ _)]
        obtain ⟨mid, same, sends⟩ := @statusChanged_sends
          { server with
            authList := assign conn ⟨userName, Status.online.value⟩ server.authList
            connTbl := assign key conn server.connTbl }
          net conn .doAuth args Status.online.value (.inl rfl)
        have kept := after_bind sends fun _ =>
          (Keeps.pure trivial : Keeps _ (pure (reply .authenticated "Authentication Succeeded"))
            fun _ => True)
        exact kept.told same fun _ => kept.friends
    · exact told_nothing rfl
  · exact told_nothing rfl
  · exact told_nothing rfl

theorem doAuthServer_told {hostName : Value} :
    Mailed server (after (doAuthServer net conn hostName) server) conn .doAuthServer args := by
  unfold doAuthServer
  -- A login of a server pushes nothing, whatever comes of it.
  split
  · split
    · exact told_nothing rfl
    · split
      · exact told_nothing rfl
      · exact told_nothing rfl
  · exact told_nothing rfl

/-- What a call sends before its reply is warranted. -/
theorem call_told : Mailed server (after (fn.call net conn args) server) conn fn args := by
  -- Handler by handler.
  unfold Handler.call
  split
  · exact doAuth_told
  · exact registerFriend_told (.inl ⟨rfl, rfl⟩)
  · exact registerFriend_told (.inr rfl)
  · exact unregisterFriend_told
  · exact unregisterFriend_told
  · exact told_silent rfl (.pure trivial)
  · exact statusChanged_told
  · exact doAuthServer_told
  · exact acceptFriend_told
  · exact serverAcceptFriend_told
  · exact told_silent rfl (minds_serverStatusChange _)
  · exact told_silent rfl minds_getAllFriendStatuses
  · exact told_silent rfl (minds_serverGetStatus _)
  · exact told_silent rfl (.pure trivial)
  · exact told_silent rfl (minds_signClientCert _)
  · exact told_silent rfl (minds_getUserStatus _)
  · exact told_nothing rfl

/-- What a call is answered with. -/
def Handler.answer (fn : Handler) (net : Net) (conn : Address) (args : List Value)
    (server : Server) : Value :=
  match result (fn.call net conn args) server with
  | .ok rVal => rVal
  | .error e => errorReply e

/-- A message ends the loop of its connection if its opcode is not there, or no finite number. -/
def Ends (message : Value) : Prop :=
  called message = none ∧ ∃ e, e ≠ .typeError ∧ (message.item 0 = .error e ∨
    ∃ opcode, message.item 0 = .ok opcode ∧ dispatched opcode = none ∧ decimal opcode = .error e)

/--
What the server sends for all that comes in, in order.

The connections are kept on which nothing is taken up any more.
-/
inductive Correspondence :
    List Address → Server → List Arrival → List (Address × Value) → Prop
  | done (ended : List Address) (server : Server) : Correspondence ended server [] []
  /-- Nobody takes up what comes in on a connection whose loop has ended. -/
  | unheard {ended : List Address} {server : Server} {arrival : Arrival} {arrivals : List Arrival}
      {letters : List (Address × Value)} (dead : arrival.conn ∈ ended)
      (rest : Correspondence ended server arrivals letters) :
      Correspondence ended server (arrival :: arrivals) letters
  /-- A message that calls no function is not even answered. -/
  | ignored {ended : List Address} {server : Server} {arrival : Arrival} {arrivals : List Arrival}
      {letters : List (Address × Value)} (alive : arrival.conn ∉ ended)
      (calls : called arrival.message = none) (goes : ¬ Ends arrival.message)
      (rest : Correspondence ended server arrivals letters) :
      Correspondence ended server (arrival :: arrivals) letters
  /-- Neither is one that ends the loop, and nothing behind it on the same connection. -/
  | fatal {ended : List Address} {server : Server} {arrival : Arrival} {arrivals : List Arrival}
      {letters : List (Address × Value)} (alive : arrival.conn ∉ ended)
      (ends : Ends arrival.message)
      (rest : Correspondence (arrival.conn :: ended) server arrivals letters) :
      Correspondence ended server (arrival :: arrivals) letters
  /-- A call is answered once, behind what it pushes to others. -/
  | answered {ended : List Address} {server : Server} {arrival : Arrival}
      {arrivals : List Arrival} {pushes letters : List (Address × Value)} {fn : Handler}
      {args : List Value} (alive : arrival.conn ∉ ended)
      (calls : called arrival.message = some (fn, args))
      (warranted : ∀ push ∈ pushes,
        Warranted (server.receive arrival) arrival.conn fn args push.1 push.2)
      (rest : Correspondence ended (server.receive arrival) arrivals letters) :
      Correspondence ended server (arrival :: arrivals)
        (pushes ++ (arrival.conn, fn.answer arrival.net arrival.conn args server) :: letters)

/-- A call sends warranted pushes and then its reply. -/
theorem receive_answered {arrival : Arrival} (calls : called arrival.message = some (fn, args)) :
    ∃ pushes, (server.receive arrival).sent = server.sent ++ pushes ++
        [(arrival.conn, fn.answer arrival.net arrival.conn args server)] ∧
      ∀ push ∈ pushes, Warranted (server.receive arrival) arrival.conn fn args push.1 push.2 := by
  -- The reply is appended behind what the call has sent.
  obtain ⟨opcode, shape, dispatches⟩ := called_eq_some calls
  obtain ⟨pushes, sent, warranted⟩ :=
    @call_told server arrival.net arrival.conn fn args
  generalize ended : after (fn.call arrival.net arrival.conn args) server = done
    at sent warranted
  have runs : server.receive arrival =
      { done with sent := done.sent ++
        [(arrival.conn, fn.answer arrival.net arrival.conn args server)] } := by
    unfold Server.receive rpcDispatcher
    simp only [shape, dispatches, writeback, ended]
    rfl
  rw [runs]
  refine ⟨pushes, ?_, fun push mem => (warranted push mem).congr rfl rfl fun _ => rfl⟩
  show done.sent ++ _ = _
  rw [sent]

/-- The loop of a connection goes on behind a message that calls a function. -/
theorem survived_called {arrival : Arrival} (calls : called arrival.message = some (fn, args)) :
    arrival.survived server = true := by
  obtain ⟨opcode, shape, dispatches⟩ := called_eq_some calls
  simp only [Arrival.survived, rpcDispatcher, shape, dispatches]

/-- The loop goes on behind everything but exceptions of other types. -/
theorem goesOn_iff {ended : Except Exn Unit} :
    goesOn ended = true ↔ ∀ e, e ≠ .typeError → ended ≠ .error e := by
  -- Only an exception of another type ends the loop.
  cases ended with
  | ok => simp [goesOn]
  | error e =>
    simp only [goesOn, decide_eq_true_eq]
    constructor
    · rintro rfl other differs same
      exact differs (Except.error.inj same).symm
    · intro only
      by_contra differs
      exact only e differs rfl

/-- Behind any other message it goes on unless the message ends it. -/
theorem survived_ignored {arrival : Arrival} (ignored : called arrival.message = none) :
    arrival.survived server = true ↔ ¬ Ends arrival.message := by
  -- What ends the round is the exception of the first item, or that of printing it.
  have round : arrival.survived server = goesOn (arrival.message.item 0 >>= fun opcode =>
      if (dispatched opcode).isSome then .error .typeError else decimal opcode) := by
    unfold Arrival.survived rpcDispatcher
    unfold called at ignored
    split
    · rename_i opcode args shape
      rw [shape] at ignored
      have nobody := Option.map_eq_none_iff.mp ignored
      simp [shape, nobody, Value.item, bind, Except.bind]
    · rfl
  rw [round, goesOn_iff]
  cases first : arrival.message.item 0 with
  -- The message has no first item.
  | error e =>
    show (∀ other, other ≠ .typeError → (.error e : Except Exn Unit) ≠ .error other) ↔ _
    constructor
    · rintro only ⟨-, other, differs, same | ⟨opcode, found, -⟩⟩
      · rw [first] at same
        exact only other differs (congrArg Except.error (Except.error.inj same))
      · rw [first] at found
        contradiction
    · intro runs other differs same
      refine runs ⟨ignored, other, differs, Or.inl ?_⟩
      rw [first, Except.error.inj same]
  | ok opcode =>
    show (∀ e, e ≠ .typeError →
      (if (dispatched opcode).isSome then .error .typeError else decimal opcode) ≠ .error e) ↔ _
    -- The opcode is known, and its handler did not fit the items; or nobody handles it.
    cases known : dispatched opcode with
    | some fn =>
      simp only [Option.isSome_some, if_true]
      constructor
      · rintro - ⟨-, other, differs, same | ⟨again, found, unknown, -⟩⟩
        · rw [first] at same
          contradiction
        · obtain rfl := Except.ok.inj (first.symm.trans found)
          rw [known] at unknown
          contradiction
      · intro _ other differs same
        exact differs (Except.error.inj same).symm
    | none =>
      simp only [Option.isSome_none, Bool.false_eq_true, if_false]
      constructor
      · rintro only ⟨-, other, differs, same | ⟨again, found, -, printed⟩⟩
        · rw [first] at same
          contradiction
        · obtain rfl := Except.ok.inj (first.symm.trans found)
          exact only other differs printed
      · intro runs other differs same
        exact runs ⟨ignored, other, differs, Or.inr ⟨opcode, first, known, same⟩⟩

end Motmot.Plume
