import Motmot.Proofs.Plume.Writes

/-! Which friendships the requests of a user can touch. -/

namespace Motmot.Plume

/-- The rows of the table in which a user does not appear. -/
def foreign (u : Text) (rows : List Friendship) : List Friendship :=
  rows.filter fun row => row.userName ≠ some u ∧ row.friend ≠ some u

/-- Whether two values are bound to the names of two users other than a given one. -/
def namesOthers (u : Text) (x y : Value) : Bool :=
  match bindTwo x y with
  | .ok (some n, some f) => n ≠ u && f ≠ u
  | _ => false

/-- Whether a call writes friendships between others than the user that sends it. -/
def Handler.meddles (u : Text) : Handler → List Value → Bool
  -- The name to act for is taken from the message.
  | .registerFriend, [.raw friend, .raw un] => namesOthers u (.raw un) (.raw friend)
  | .unregisterFriend, [.raw friend, un] => namesOthers u un (.raw friend)
  -- Both names are taken from the message.
  | .serverAcceptFriend, [.raw userName, friend, _] => namesOthers u (.raw userName) friend
  | _, _ => false

/-- Whether a message calls a function that writes friendships between others than its sender. -/
def meddles (u : Text) : Value → Bool
  | .array (opcode :: args) =>
    match dispatched opcode with
    | some fn => fn.meddles u args
    | none => false
  | _ => false

/-- A connection has no session but one of an ordinary user. -/
def Server.OrdinaryAs (server : Server) (conn : Address) (u : Text) : Prop :=
  ∀ session, server.session conn = some session →
    session.name.bind = .ok (some u) ∧ session.status.isStatus .server = false

theorem bindTwo_eq_ok {x y : Value} {pair : Option Text × Option Text} :
    bindTwo x y = .ok pair ↔ x.bind = .ok pair.1 ∧ y.bind = .ok pair.2 := by
  obtain ⟨a, b⟩ := pair
  cases first : x.bind <;> cases second : y.bind <;>
    simp [bindTwo, first, second, Bind.bind, Except.bind, Pure.pure, Except.pure]

/-- A row that a pair of parameters names has their texts in its columns. -/
theorem named_columns {row : Friendship} {pair : Option Text × Option Text}
    (named : row.named pair = true) :
    row.userName = pair.1 ∧ row.friend = pair.2 ∧ pair.1.isSome ∧ pair.2.isSome := by
  simp only [Friendship.named, sqlEq, Bool.and_eq_true, decide_eq_true_eq] at named
  obtain ⟨⟨some1, same1⟩, some2, same2⟩ := named
  exact ⟨same1, same2, same1 ▸ some1, same2 ▸ some2⟩

@[simp] theorem update_userName (pair : Option Text × Option Text) (row : Friendship) :
    (Friendship.update pair row).userName = row.userName := by
  unfold Friendship.update
  split <;> rfl

@[simp] theorem update_friend (pair : Option Text × Option Text) (row : Friendship) :
    (Friendship.update pair row).friend = row.friend := by
  unfold Friendship.update
  split <;> rfl

/-- A statement that names no row of others and inserts none leaves the rows of others alone. -/
theorem foreign_run {u : Text} {write : Write} {pair : Option Text × Option Text}
    (inserts : write = .insert → pair.1 = some u ∨ pair.2 = some u)
    (names : ∀ row : Friendship, row.named pair = true →
      row.userName = some u ∨ row.friend = some u) (rows : List Friendship) :
    foreign u (write.run pair rows) = foreign u rows := by
  -- What is inserted, deleted or updated is a row of the user.
  cases write with
  | insert =>
    have own : ¬ (pair.1 ≠ some u ∧ pair.2 ≠ some u) := by
      intro both
      exact (inserts rfl).elim both.1 both.2
    simp [foreign, Write.run, own]
  | delete =>
    unfold foreign Write.run
    rw [List.filter_filter]
    apply List.filter_congr
    intro row _
    -- Of the rows that go, none is a row of others.
    by_cases named : row.named pair = true
    · have own := names row named
      simp only [named]
      by_cases first : row.userName = some u
      · simp [first]
      · simp [own.resolve_left first]
    · simp [named]
  -- Row by row, an update leaves the names, and the rows of others altogether.
  | update =>
    unfold foreign Write.run
    induction rows with
    | nil => rfl
    | cons row rows ih =>
      simp only [List.map_cons, List.filter_cons, update_userName, update_friend, ih]
      split
      · rename_i apart
        have kept : Friendship.update pair row = row := by
          unfold Friendship.update
          split
          · rename_i named
            simp only [decide_eq_true_eq] at apart
            exact absurd (names row named) (by simp [apart])
          · rfl
        rw [kept]
      · rfl

/-- A statement that names the user leaves the rows of others alone. -/
theorem foreign_run_own {u : Text} {write : Write} {pair : Option Text × Option Text}
    (own : pair.1 = some u ∨ pair.2 = some u) (rows : List Friendship) :
    foreign u (write.run pair rows) = foreign u rows := by
  apply foreign_run
  · -- Every row that the statement names has the user on one side.
    intro _
    exact own
  · intro row named
    obtain ⟨same1, same2, -, -⟩ := named_columns named
    rw [same1, same2]
    exact own

/-- Names that are not those of two others are a null or the user's. -/
theorem own_of_not_others {u : Text} {x y : Value} {pair : Option Text × Option Text}
    (bound : bindTwo x y = .ok pair) (fine : namesOthers u x y = false)
    (some1 : pair.1.isSome) (some2 : pair.2.isSome) :
    pair.1 = some u ∨ pair.2 = some u := by
  obtain ⟨a, b⟩ := pair
  -- Both columns are bound, so that one of them must be the user's.
  obtain ⟨n, rfl⟩ := Option.isSome_iff_exists.mp some1
  obtain ⟨f, rfl⟩ := Option.isSome_iff_exists.mp some2
  simp only [namesOthers, bound, Bool.and_eq_false_iff, decide_eq_false_iff_not, ne_eq,
    Decidable.not_not] at fine
  simpa using fine

theorem bind_raw {bytes : Text} {bound : Option Text} (ok : (Value.raw bytes).bind = .ok bound) :
    bound = some bytes := by
  simp only [Value.bind] at ok
  split at ok
  · cases ok
    rfl
  · cases ok

/-- What can be searched and bound is a text. -/
theorem searchable_bind {x : Value} {bound : Option Text} (searchable : x.searchable = true)
    (ok : x.bind = .ok bound) : ∃ bytes, x = .raw bytes ∧ bound = some bytes := by
  -- Only a text can be both; nothing but an array or a map fails to be bound.
  cases x with
  | raw bytes => exact ⟨bytes, rfl, bind_raw ok⟩
  | array items => cases ok
  | map entries => cases ok
  | nil => cases searchable
  | bool b => cases searchable
  | int i => cases searchable
  | real t w => cases searchable

/-- A pair of names leaves the rows of others alone in every statement that may be run with it. -/
def Harmless (u : Text) (write : Write) (pair : Option Text × Option Text) : Prop :=
  pair.1 = some u ∨ pair.2 = some u ∨
    match write with
    | .insert => False
    | _ => pair.1 = none ∨ pair.2 = none

theorem Harmless.run {u : Text} {write : Write} {pair : Option Text × Option Text}
    (harmless : Harmless u write pair) (rows : List Friendship) :
    foreign u (write.run pair rows) = foreign u rows := by
  -- The pair names the user first, names it last, or has a null.
  obtain first | last | null := harmless
  · exact foreign_run_own (.inl first) rows
  · exact foreign_run_own (.inr last) rows
  · -- A null names no row.
    apply foreign_run
    · intro inserts
      rw [inserts] at null
      exact null.elim
    · intro row named
      obtain ⟨-, -, some1, some2⟩ := named_columns named
      cases write with
      | insert => exact null.elim
      | delete => rcases null with none1 | none2 <;> simp_all
      | update => rcases null with none1 | none2 <;> simp_all

/-- A statement on two names of which one is the user's is harmless, either way round. -/
theorem harmless_own {u : Text} {write : Write} {n x y : Value}
    {pair : Option Text × Option Text} (as : n.bind = .ok (some u))
    (bound : bindTwo x y = .ok pair) (names : x = n ∨ y = n) : Harmless u write pair := by
  obtain ⟨first, last⟩ := bindTwo_eq_ok.mp bound
  -- Whichever of the two names is the user's is bound to it.
  obtain same | same := names
  · rw [same, as, Except.ok.injEq] at first
    exact .inl first.symm
  · rw [same, as, Except.ok.injEq] at last
    exact .inr (.inl last.symm)

/-- A statement on two names that are not those of two others is harmless, either way round. -/
theorem harmless_names {u : Text} {write : Write} {n f x y : Value}
    {pair : Option Text × Option Text} (fine : namesOthers u n f = false)
    (bound : bindTwo x y = .ok pair) (names : x = n ∧ y = f ∨ x = f ∧ y = n)
    (inserts : write = .insert → pair.1.isSome ∧ pair.2.isSome) : Harmless u write pair := by
  -- If both names are bound, one of them is the user's own.
  by_cases full : pair.1.isSome ∧ pair.2.isSome
  · have own : pair.1 = some u ∨ pair.2 = some u := by
      obtain ⟨rfl, rfl⟩ | ⟨rfl, rfl⟩ := names
      · exact own_of_not_others bound fine full.1 full.2
      · -- The other way round, the same names are looked at.
        obtain ⟨first, last⟩ := bindTwo_eq_ok.mp bound
        have turned : bindTwo y x = .ok (pair.2, pair.1) := bindTwo_eq_ok.mpr ⟨last, first⟩
        exact (own_of_not_others turned fine full.2 full.1).symm
    exact own.imp_right .inl
  · -- A pair with a null is never inserted.
    have nulls : pair.1 = none ∨ pair.2 = none := by
      rw [not_and_or] at full
      simpa using full
    cases write with
    | insert => exact absurd (inserts rfl) full
    | delete => exact .inr (.inr nulls)
    | update => exact .inr (.inr nulls)

/-- A call that registers friends for the name in its message is harmless unless it meddles. -/
theorem discreet_register {u : Text} {session : Session} {friend un : Value}
    (as : session.name.bind = .ok (some u))
    (discreet : Handler.meddles u .registerFriend [friend, un] = false)
    {write : Write} {x y : Value}
    (runs : (write, x, y) ∈ Handler.writes session .registerFriend [friend, un])
    {pair : Option Text × Option Text} (bound : bindTwo x y = .ok pair) :
    Harmless u write pair := by
  -- The statements are on the acting name and the friend, in one order or the other.
  simp only [Handler.writes] at runs
  split at runs
  · rename_i searched
    simp only [Bool.and_eq_true] at searched
    have names : x = actingName session un ∧ y = friend ∨ x = friend ∧
      y = actingName session un := by
      simp only [List.mem_cons, Prod.mk.injEq, List.not_mem_nil, or_false] at runs
      tauto
    by_cases none_ : un.isNone = true
    · simp only [actingName, none_, if_true] at names
      exact harmless_own as bound (by tauto)
    · -- The name in the message and the friend are both texts.
      simp only [actingName, none_, Bool.false_eq_true, if_false] at names searched
      obtain ⟨first, last⟩ := bindTwo_eq_ok.mp bound
      have texts : ∃ n f, un = .raw n ∧ friend = .raw f ∧ pair.1.isSome ∧ pair.2.isSome := by
        obtain ⟨rfl, rfl⟩ | ⟨rfl, rfl⟩ := names
        · obtain ⟨n, rfl, some1⟩ := searchable_bind searched.2 first
          obtain ⟨f, rfl, some2⟩ := searchable_bind searched.1 last
          exact ⟨n, f, rfl, rfl, by simp [some1], by simp [some2]⟩
        · obtain ⟨f, rfl, some1⟩ := searchable_bind searched.1 first
          obtain ⟨n, rfl, some2⟩ := searchable_bind searched.2 last
          exact ⟨n, f, rfl, rfl, by simp [some1], by simp [some2]⟩
      obtain ⟨n, f, rfl, rfl, some1, some2⟩ := texts
      exact harmless_names discreet bound names fun _ => ⟨some1, some2⟩
  · cases runs

/-- A call that removes friends of the name in its message is harmless unless it meddles. -/
theorem discreet_unregister {u : Text} {session : Session} {friend un : Value}
    (as : session.name.bind = .ok (some u))
    (discreet : Handler.meddles u .unregisterFriend [friend, un] = false)
    {write : Write} {x y : Value}
    (runs : (write, x, y) ∈ Handler.writes session .unregisterFriend [friend, un])
    {pair : Option Text × Option Text} (bound : bindTwo x y = .ok pair) :
    Harmless u write pair := by
  -- The statements are deletions on the acting name and the friend.
  simp only [Handler.writes] at runs
  split at runs
  · rename_i searched
    simp only [List.mem_cons, Prod.mk.injEq, List.not_mem_nil, or_false] at runs
    have deletes : write = .delete := by tauto
    have names : x = actingName session un ∧ y = friend ∨ x = friend ∧
      y = actingName session un := by
      tauto
    by_cases none_ : un.isNone = true
    · simp only [actingName, none_, if_true] at names
      exact harmless_own as bound (by tauto)
    · simp only [actingName, none_, Bool.false_eq_true, if_false] at names
      obtain ⟨first, last⟩ := bindTwo_eq_ok.mp bound
      have text : ∃ f, friend = .raw f := by
        obtain ⟨rfl, rfl⟩ | ⟨rfl, rfl⟩ := names
        · obtain ⟨f, rfl, -⟩ := searchable_bind searched last
          exact ⟨f, rfl⟩
        · obtain ⟨f, rfl, -⟩ := searchable_bind searched first
          exact ⟨f, rfl⟩
      obtain ⟨f, rfl⟩ := text
      exact harmless_names discreet bound names (by simp [deletes])
  · cases runs

/-- News of an accepted request are harmless unless they meddle. -/
theorem discreet_serverAccept {u : Text} (session : Session) {userName friend status : Value}
    (discreet : Handler.meddles u .serverAcceptFriend [userName, friend, status] = false)
    {write : Write} {x y : Value}
    (runs : (write, x, y) ∈ Handler.writes session .serverAcceptFriend [userName, friend, status])
    {pair : Option Text × Option Text} (bound : bindTwo x y = .ok pair) :
    Harmless u write pair := by
  simp only [Handler.writes] at runs
  split at runs
  · -- The name has been searched for, so it is a text.
    rename_i searched
    simp only [List.mem_cons, Prod.mk.injEq, List.not_mem_nil, or_false] at runs
    obtain ⟨rfl, rfl, rfl⟩ := runs
    obtain ⟨first, last⟩ := bindTwo_eq_ok.mp bound
    obtain ⟨n, rfl, -⟩ := searchable_bind searched first
    exact harmless_names discreet bound (.inl ⟨rfl, rfl⟩) (by simp)
  · cases runs

/-- The statements of a call that does not meddle are harmless. -/
theorem discreet_writes {u : Text} {fn : Handler} {args : List Value} {session : Session}
    (as : session.name.bind = .ok (some u)) (discreet : fn.meddles u args = false)
    {write : Write} {x y : Value} (runs : (write, x, y) ∈ fn.writes session args)
    {pair : Option Text × Option Text} (bound : bindTwo x y = .ok pair) :
    Harmless u write pair := by
  -- Handler by handler: those with a name in the message may meddle, the others act for the caller.
  unfold Handler.writes at runs
  split at runs
  · split at runs
    · apply harmless_own as bound
      simp only [List.mem_cons, Prod.mk.injEq, List.not_mem_nil, or_false] at runs
      tauto
    · cases runs
  · exact discreet_register as discreet runs bound
  · split at runs
    · apply harmless_own as bound
      simp only [List.mem_cons, Prod.mk.injEq, List.not_mem_nil, or_false] at runs
      tauto
    · cases runs
  · exact discreet_unregister as discreet runs bound
  · split at runs
    · apply harmless_own as bound
      simp only [List.mem_cons, Prod.mk.injEq, List.not_mem_nil, or_false] at runs
      tauto
    · cases runs
  · exact discreet_serverAccept session discreet runs bound
  · cases runs

/-- A message that does not meddle leaves the rows of others alone. -/
theorem receive_spares {u : Text} {arrival : Arrival} {server : Server}
    (as : server.OrdinaryAs arrival.conn u) (discreet : meddles u arrival.message = false) :
    foreign u (server.receive arrival).friends = foreign u server.friends := by
  have start : Stands (foreign u · = foreign u server.friends) server.users server.domain server :=
    ⟨rfl, rfl, rfl⟩
  refine (receive_friends ?_ start).friends
  -- Whatever the handler writes is harmless, so no row of others is touched.
  intro opcode args fn session shape found live write x y runs pair bound rows same
  have calm : fn.meddles u args = false := by
    simpa [meddles, shape, found] using discreet
  have harmless := discreet_writes (as session live).1 calm runs bound
  rw [harmless.run, same]

/--
In a run of messages over one connection that is only ever authenticated as one ordinary user,
the rows of others stay as they are while no message meddles.
-/
theorem user_spares_others {u : Text} (conn : Address) {server : Server}
    {arrivals : List Arrival} (own : ∀ arrival ∈ arrivals, arrival.conn = conn)
    (ordinary : ∀ first rest, arrivals = first ++ rest → (server.serve first).OrdinaryAs conn u)
    (discreet : ∀ arrival ∈ arrivals, meddles u arrival.message = false) :
    foreign u (server.serve arrivals).friends = foreign u server.friends := by
  -- By induction on the messages, with the last one at the end.
  induction arrivals using List.reverseRecOn with
  | nil => rfl
  | append_singleton first last ih =>
    have before := ih (fun arrival mem => own arrival (by simp [mem]))
      (fun front back split => ordinary front (back ++ [last]) (by simp [split]))
      (fun arrival mem => discreet arrival (by simp [mem]))
    rw [Server.serve_append, Server.serve_cons, Server.serve_nil, ← before]
    apply receive_spares
    · rw [own last (by simp)]
      exact ordinary first [last] rfl
    · exact discreet last (by simp)

/-- The name of the user who sends the messages of the examples. -/
def userA : Text := ['a', '@', 'm']

/-- The name of a second user of the same domain. -/
def userB : Text := ['b', '@', 'm']

/-- The name of a third user of the same domain. -/
def userC : Text := ['c', '@', 'm']

/-- The connection of a client. -/
def clientConn (port : Int) : Address := ⟨['i', 'p'], port⟩

/-- A network on which no other server is found. -/
def offline : Net := ⟨fun _ => none, fun _ _ => .down, fun _ _ => .error .cryptoError⟩

/-- A server with three users, of which the first two are authenticated. -/
def office (friends : List Friendship) : Server where
  domain := ['m']
  users := [⟨some userA, some ['1']⟩, ⟨some userB, some ['2']⟩, ⟨some userC, some ['3']⟩]
  friends := friends
  authList := [(clientConn 1, ⟨.raw userA, Status.online.value⟩),
    (clientConn 2, ⟨.raw userB, Status.online.value⟩)]
  connTbl := [(.text userA, clientConn 1), (.text userB, clientConn 2)]
  sent := []

/-- A message of the first user. -/
def fromA (code : RemoteMethod) (args : List Value) : Arrival :=
  ⟨clientConn 1, message code args, offline⟩

/-- A run of one message keeps the session that it leaves as it is. -/
theorem ordinary_single {server : Server} {conn : Address} {u : Text} {arrival : Arrival}
    (before : server.OrdinaryAs conn u) (after : (server.receive arrival).OrdinaryAs conn u) :
    ∀ first rest, [arrival] = first ++ rest → (server.serve first).OrdinaryAs conn u := by
  intro first rest split
  -- The split is in front of the one message, or behind it.
  cases first with
  | nil => exact before
  | cons head tail =>
    have last : tail = [] := by
      simp only [List.cons_append, List.cons.injEq] at split
      exact (List.append_eq_nil_iff.mp split.2.symm).1
    simp only [List.cons_append, List.cons.injEq] at split
    rw [last, ← split.1]
    exact after

/-- The session of the first user is all that its connection has. -/
theorem ordinary_office {server : Server}
    (same : server.authList = (office []).authList) :
    server.OrdinaryAs (clientConn 1) userA := by
  intro session found
  have is_A : session = ⟨.raw userA, Status.online.value⟩ := by
    -- The table of sessions has one entry, which is found by evaluation.
    have reads : server.session (clientConn 1) = some ⟨.raw userA, Status.online.value⟩ := by
      unfold Server.session
      rw [same]
      rfl
    rw [reads, Option.some.injEq] at found
    exact found.symm
  rw [is_A]
  decide

/-- A request to another user leaves the row that this one shares with a third. -/
theorem user_spares_others_register :
    foreign userA ((office [⟨some userB, some userC, notAccepted⟩]).serve
      [fromA .registerFriend [.raw userB]]).friends =
        [⟨some userB, some userC, notAccepted⟩] := by
  -- The condition is checked on the one message.
  refine user_spares_others (clientConn 1) ?_ ?_ ?_
  · intro arrival mem
    simp only [List.mem_singleton] at mem
    rw [mem]
    rfl
  · exact ordinary_single (ordinary_office rfl) (ordinary_office rfl)
  · intro arrival mem
    simp only [List.mem_singleton] at mem
    rw [mem]
    decide

/-- A user can accept a request between two others, by a message that servers send. -/
theorem user_meddles : ¬ ∀ (u : Text) (conn : Address) (server : Server)
    (arrivals : List Arrival), (∀ arrival ∈ arrivals, arrival.conn = conn) →
    (∀ first rest, arrivals = first ++ rest → (server.serve first).OrdinaryAs conn u) →
    foreign u (server.serve arrivals).friends = foreign u server.friends := by
  -- One message that servers send is enough.
  intro claim
  have same := claim userA (clientConn 1) (office [⟨some userB, some userC, notAccepted⟩])
    [fromA .serverSendAccept [.raw userB, .raw userC, .int 1]]
    (by
      intro arrival mem
      simp only [List.mem_singleton] at mem
      rw [mem]
      rfl)
    (ordinary_single (ordinary_office rfl) (ordinary_office rfl))
  revert same
  decide

end Motmot.Plume
