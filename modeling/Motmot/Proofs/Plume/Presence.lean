import Motmot.Logic.Directory
import Motmot.Proofs.Plume.Consent

/-!
Who is online, over runs of messages and disconnects.

The two tables of connections are a directory of the connections and of their names. A login or a
disconnect leaves it consistent unless the connection drops a name that still leads to it, or takes
one with it that another connection has.
-/

namespace Motmot.Plume

open Act

/-- What reaches the server: a message of a connection, or its end. -/
inductive Signal where
  | message (arrival : Arrival)
  | disconnect (conn : Address)

/-- Handles a signal. -/
def Server.take (server : Server) : Signal → Server
  | .message arrival => server.receive arrival
  | .disconnect conn => after (userDisc conn) server

/-- Handles signals one after the other. -/
def Server.takes (server : Server) (signals : List Signal) : Server :=
  signals.foldl Server.take server

/-- Every entry of `connTbl` leads to a connection that `authList` has under that name, and every
name of `authList` has an entry. -/
structure Server.Consistent (server : Server) : Prop where
  listed : ∀ key conn, server.online key = some conn →
    ∃ session, server.session conn = some session ∧ session.name.key = .ok key
  known : ∀ conn session, server.session conn = some session →
    ∃ key other, session.name.key = .ok key ∧ server.online key = some other

/-- What is reported of a name: the session of a connection under that name, or that it is offline
if there is none. -/
inductive Reports (server : Server) (name : Value) : Value → Prop where
  | present {conn : Address} {session : Session} (found : server.session conn = some session)
      (same : session.name.key = name.key) :
      Reports server name (.array (session.value :: conn.values))
  | absent (nobody : ∀ conn session, server.session conn = some session →
      session.name.key ≠ name.key) : Reports server name (offlineValue name)

/-- An action leaves a server as it is, does not fail on a lookup, and returns what is good. -/
def Looks (server : Server) {α : Type} (act : Rpc α) (good : α → Prop) : Prop :=
  after act server = server ∧ result act server ≠ .error .keyError ∧
    ∀ a, result act server = .ok a → good a

/-- Whether a name is one of a domain. -/
def Value.livesIn (home : Text) (name : Value) : Bool :=
  match name.split with
  | .ok parts => parts[1]? = some home
  | .error _ => false

/-- The queries of statuses do not fail on a lookup in the tables, and report the tables. -/
structure Server.Answers (server : Server) : Prop where
  getUserStatus : ∀ net conn userName, userName.livesIn server.domain = true →
    Looks server (Plume.getUserStatus net conn userName) fun rVal => rVal = denied ∨
      ∃ status, Reports server userName status ∧ rVal = message .userStatusResp [status]
  serverGetStatus : ∀ conn users,
    Looks server (Plume.serverGetStatus conn users) fun rVal => rVal = denied ∨
      ∃ names rList, users.iterate = .ok names ∧ List.Forall₂ (Reports server) names rList ∧
        rVal = message .serverGetStatusResp [.array rList]
  /-- The friends of this domain are all that `getAllFriendStatuses` looks up. -/
  localStatuses : ∀ rows frByDom,
    Looks server (Plume.localStatuses rows frByDom) fun found =>
      List.Forall₂ (Reports server)
        ((rows.map columnValue).filter (Value.livesIn server.domain)) found.1

/-- The name that an arrival authenticates its connection under, if it does. -/
def Server.login (server : Server) (arrival : Arrival) : Option Value :=
  match called arrival.message with
  | some (.doAuth, [userName, password]) =>
    match bindTwo userName password with
    | .ok (name, pass) =>
      if (server.users.countP fun row => sqlEq row.userName name && sqlEq row.password pass) = 1
      then some userName else none
    | .error _ => none
  | some (.doAuthServer, [.raw host]) =>
    if arrival.net.gethostbyname host = some arrival.conn.ip then some (.raw host) else none
  | _ => none

/-- A login on a connection that another name leads to, or a disconnect while another connection is
authenticated under the same name. -/
def Server.Upsets (server : Server) : Signal → Prop
  | .message arrival => ∃ name key other, server.login arrival = some name ∧ name.key = .ok key ∧
      other ≠ key ∧ server.online other = some arrival.conn
  | .disconnect conn => ∃ session other twin, server.session conn = some session ∧ other ≠ conn ∧
      server.session other = some twin ∧ twin.name.key = session.name.key

variable {server : Server} {net : Net} {conn : Address}

/-- The names that connections are authenticated under. -/
def Server.names (server : Server) (conn : Address) : Option Value :=
  (server.session conn).map Session.name

/-- The two tables as a directory. -/
def Server.directory (server : Server) : Directory Address Key where
  named := fun conn => (server.names conn).bind fun name => name.key.toOption
  listed := server.online

theorem toOption_eq_some {ε α : Type} {value : Except ε α} {a : α} :
    value.toOption = some a ↔ value = .ok a := by
  cases value <;> simp [Except.toOption]

theorem directory_named {key : Key} :
    server.directory.named conn = some key ↔
      ∃ session, server.session conn = some session ∧ session.name.key = .ok key := by
  simp [Server.directory, Server.names, Option.bind_eq_some_iff, toOption_eq_some]

/-- The tables are consistent when their directory is and all names are keys. -/
theorem consistent_iff :
    server.Consistent ↔ server.directory.Consistent ∧
      ∀ conn name, server.names conn = some name → ∃ key, name.key = .ok key := by
  constructor
  · -- The directory has what both tables say, for names that are keys.
    intro consistent
    refine ⟨⟨fun key conn leads => ?_, fun conn key has => ?_⟩, fun conn name has => ?_⟩
    · exact directory_named.mpr (consistent.listed key conn leads)
    · obtain ⟨session, found, named⟩ := directory_named.mp has
      obtain ⟨key', other, named', leads⟩ := consistent.known conn session found
      rw [named, Except.ok.injEq] at named'
      simp [Server.directory, named', leads]
    · simp only [Server.names, Option.map_eq_some_iff] at has
      obtain ⟨session, found, rfl⟩ := has
      obtain ⟨key, other, named, -⟩ := consistent.known conn session found
      exact ⟨key, named⟩
  · rintro ⟨consistent, keys⟩
    refine ⟨fun key conn leads => ?_, fun conn session found => ?_⟩
    · exact directory_named.mp (consistent.listed key conn leads)
    · obtain ⟨key, named⟩ := keys conn session.name (by simp [Server.names, found])
      have leads := consistent.known conn key (directory_named.mpr ⟨session, found, named⟩)
      obtain ⟨other, leads⟩ := Option.ne_none_iff_exists'.mp leads
      exact ⟨key, other, named, leads⟩

/-- The names of the connections, and what the names lead to, are given. -/
structure Shows (names : Address → Option Value) (online : Key → Option Address)
    (server : Server) : Prop where
  names : server.names = names
  online : server.online = online

variable {names : Address → Option Value} {online : Key → Option Address}

instance : Silent (Shows names online) where
  send := fun _ _ _ shows_ => ⟨shows_.names, shows_.online⟩

theorem lookup_remove {κ ν : Type} [DecidableEq κ] (k key : κ) (dict : List (κ × ν)) :
    (remove k dict).lookup key = if key = k then none else dict.lookup key := by
  -- By induction on the entries.
  induction dict with
  | nil => simp [remove]
  | cons entry dict ih =>
    obtain ⟨first, v⟩ := entry
    unfold remove at ih ⊢
    by_cases dropped : first = k
    · -- The entry goes, which only a lookup of its own key would have met.
      rw [List.filter_cons_of_neg (by simp [dropped]), ih]
      by_cases same : key = k
      · simp [same]
      · have skipped : (key == first) = false := by simpa [dropped] using same
        simp only [same, if_false, List.lookup_cons, skipped]
    · rw [List.filter_cons_of_pos (by simp [dropped])]
      by_cases met : key = first
      · simp [met, dropped]
      · have skipped : (key == first) = false := by simpa using met
        simp only [List.lookup_cons, skipped, ih]

theorem lookup_assign {κ ν : Type} [DecidableEq κ] (k key : κ) (v : ν) (dict : List (κ × ν)) :
    (assign k v dict).lookup key = if key = k then some v else dict.lookup key := by
  show ((k, v) :: remove k dict).lookup key = _
  by_cases same : key = k
  · simp [same]
  · have skipped : (key == k) = false := by simpa using same
    simp only [List.lookup_cons, skipped, lookup_remove, same, if_false]

/-- The tables after a connection is given a name. -/
theorem shows_login {name : Value} {status : Value} {key : Key}
    (shows_ : Shows names online server) :
    Shows (Function.update names conn (some name)) (Function.update online key (some conn))
      { server with
        authList := assign conn ⟨name, status⟩ server.authList
        connTbl := assign key conn server.connTbl } := by
  constructor
  · -- The assignment shadows the session that the connection had.
    funext other
    rw [Function.update_apply, ← shows_.names]
    simp only [Server.names, Server.session, lookup_assign]
    split <;> rfl
  · funext other
    rw [Function.update_apply, ← shows_.online]
    simp only [Server.online, lookup_assign]

/-- The tables after a connection and its name are struck. -/
theorem shows_logout {key : Key} (shows_ : Shows names online server) :
    Shows (Function.update names conn none) (Function.update online key none)
      { server with
        connTbl := remove key server.connTbl
        authList := remove conn server.authList } := by
  -- The removal strikes the connection and its name.
  constructor
  · funext other
    rw [Function.update_apply, ← shows_.names]
    simp only [Server.names, Server.session, lookup_remove]
    split <;> rfl
  · funext other
    rw [Function.update_apply, ← shows_.online]
    simp only [Server.online, lookup_remove]

/-- A status is written beside the name of the session. -/
theorem shows_status {session : Session} {stat : Value}
    (found : server.session conn = some session) (shows_ : Shows names online server) :
    Shows names online
      { server with authList := assign conn { session with status := stat } server.authList } := by
  refine ⟨?_, shows_.online⟩
  funext other
  -- The session found is the one whose status is rewritten.
  rw [← shows_.names]
  simp only [Server.names, Server.session, lookup_assign]
  split
  · rename_i same
    rw [same, show server.authList.lookup conn = some session from found]
    rfl
  · rfl

/-- A change of status leaves the names as they are. -/
theorem statusChanged_shows (stat : Value) (shows_ : Shows names online server) :
    Shows names online (after (statusChanged net conn stat) server) := by
  -- The status is written into the session, and the friends are told.
  have reads : statusChanged net conn stat server = _ := run_bind_ok (run_read server)
  unfold after
  rw [reads]
  cases found : server.session conn with
  | none => exact shows_
  | some session =>
    dsimp only
    split
    · refine after_bind (shows_status found shows_) fun _ => .andThen .look fun server => ?_
      split
      · exact .andThen (minds_pushStatus _ _ _ _) fun _ => .pure trivial
      · exact .pure trivial
      · exact .raise
    · exact shows_

/-- The key of a name that a query can be asked with. -/
theorem key_of_bind {x : Value} {bound : Option Text} (ok : x.bind = .ok bound) :
    ∃ key, x.key = .ok key := by
  -- Only arrays and maps have no key, and they cannot be bound.
  cases x with
  | nil => exact ⟨_, rfl⟩
  | bool b => exact ⟨_, rfl⟩
  | int i => exact ⟨_, rfl⟩
  | real text whole => cases whole <;> exact ⟨_, rfl⟩
  | raw bytes => exact ⟨_, rfl⟩
  | array items => cases ok
  | map entries => cases ok

/-- A user is logged in whatever comes of the news of its status. -/
theorem doAuth_login {userName password : Value} {name pass : Option Text} {key : Key}
    (bound : bindTwo userName password = .ok (name, pass))
    (one : (server.users.countP fun row => sqlEq row.userName name && sqlEq row.password pass) = 1)
    (named : userName.key = .ok key) (shows_ : Shows names online server) :
    Shows (Function.update names conn (some userName)) (Function.update online key (some conn))
      (after (doAuth net conn userName password) server) := by
  have logged := @statusChanged_shows _ net conn _ _ Status.online.value
    -- The login is in the tables when the news of the status goes out.
    (@shows_login _ conn _ _ userName Status.online.value key shows_)
  unfold doAuth
  simp only [bound]
  unfold after
  rw [run_bind_ok (run_read server), if_pos one, run_bind_ok (run_write _ _), named]
  apply after_bind logged
  intro _
  exact .pure trivial

/-- Without the right password nothing happens. -/
theorem doAuth_refused {userName password : Value}
    (refused : ∀ name pass, bindTwo userName password = .ok (name, pass) →
      (server.users.countP fun row => sqlEq row.userName name && sqlEq row.password pass) ≠ 1) :
    after (doAuth net conn userName password) server = server := by
  unfold doAuth
  -- A login of another shape does nothing either.
  split
  · rename_i name pass bound
    unfold after
    rw [run_bind_ok (run_read server), if_neg (refused name pass bound)]
    rfl
  · rfl
  · rfl

/-- A message that calls a function leaves what the call leaves. -/
theorem receive_called {inv : Server → Prop} [Silent inv] {arrival : Arrival} {fn : Handler}
    {args : List Value} (calls : called arrival.message = some (fn, args))
    (holds : inv (after (fn.call arrival.net arrival.conn args) server)) :
    inv (server.receive arrival) := by
  obtain ⟨opcode, shape, dispatches⟩ := called_eq_some calls
  unfold Server.receive rpcDispatcher
  simp only [shape, dispatches]
  exact Silent.send _ _ _ holds

/-- Any other message leaves the server as it is. -/
theorem receive_ignored {arrival : Arrival} (ignored : called arrival.message = none) :
    server.receive arrival = server := by
  -- The dispatcher finds no handler that is called with these arguments.
  unfold Server.receive rpcDispatcher
  unfold called at ignored
  split
  · rename_i opcode rest shape
    rw [shape] at ignored
    simp only [Option.map_eq_none_iff] at ignored
    simp only [ignored]
  · rfl

/-- A login gives the connection its name. -/
theorem receive_login {arrival : Arrival} {name : Value}
    (logs : server.login arrival = some name) (shows_ : Shows names online server) :
    ∃ key, name.key = .ok key ∧
      Shows (Function.update names arrival.conn (some name))
        (Function.update online key (some arrival.conn)) (server.receive arrival) := by
  -- A login is that of a user with an account, or of a server from its own address.
  unfold Server.login at logs
  split at logs
  · rename_i userName password calls
    split at logs
    · rename_i bound_name pass bound
      split at logs
      · rename_i one
        rw [Option.some.injEq] at logs
        subst logs
        have pair := bindTwo_eq_ok.mp bound
        obtain ⟨key, named⟩ := key_of_bind pair.1
        exact ⟨key, named, receive_called calls (doAuth_login bound one named shows_)⟩
      · contradiction
    · contradiction
  · rename_i host calls
    split at logs
    · rename_i addressed
      rw [Option.some.injEq] at logs
      subst logs
      refine ⟨.text host, rfl, receive_called calls ?_⟩
      simp only [Handler.call, doAuthServer, addressed, if_true]
      exact shows_login shows_
    · contradiction
  · contradiction

/-- Any other message leaves the names as they are. -/
theorem receive_shows {arrival : Arrival} (none_ : server.login arrival = none)
    (shows_ : Shows names online server) : Shows names online (server.receive arrival) := by
  -- A message is ignored, calls what signs nobody in, or fails to sign in.
  cases calls : called arrival.message with
  | none => rwa [receive_ignored calls]
  | some call =>
    obtain ⟨fn, args⟩ := call
    refine receive_called calls ?_
    cases signs : fn.signs with
    | false =>
      refine call_endures signs (fun session found write x y _ => ?_) shows_
      exact fun pair bound server holds => ⟨holds.names, holds.online⟩
    | true =>
      simp only [Server.login, calls] at none_
      unfold Handler.call
      split <;> try cases signs
      · -- The credentials do not fit.
        rename_i userName password
        rw [doAuth_refused]
        · exact shows_
        · intro name pass bound
          simp only [bound] at none_
          simpa using none_
      · exact statusChanged_shows _ shows_
      · -- The server's name does not lead to the address of the connection.
        rename_i hostName
        cases hostName with
        | raw host =>
          simp only [ite_eq_right_iff, reduceCtorEq, imp_false] at none_
          simp only [doAuthServer]
          split
          · exact shows_
          · rename_i hostIp found
            rw [if_neg]
            · exact shows_
            · intro same
              apply none_
              rw [found, same]
        | _ => exact shows_
      · exact shows_

/-- A disconnect strikes the connection and its name. -/
theorem userDisc_shows {session : Session} {key : Key} (found : server.session conn = some session)
    (named : session.name.key = .ok key) (shows_ : Shows names online server) :
    Shows (Function.update names conn none) (Function.update online key none)
      (after (userDisc conn) server) := by
  unfold userDisc after
  rw [run_bind_ok (run_read server)]
  simp only [found, named]
  exact shows_logout shows_

/-- Nothing is struck for a connection that is not authenticated. -/
theorem userDisc_absent (absent : server.session conn = none) :
    after (userDisc conn) server = server := by
  unfold userDisc after
  rw [run_bind_ok (run_read server)]
  simp only [absent]
  rfl

/-- The directory that the tables show. -/
theorem Shows.directory (shows_ : Shows names online server) : server.directory =
    ⟨fun conn => (names conn).bind fun name => name.key.toOption, online⟩ := by
  rw [← shows_.names, ← shows_.online]
  rfl

theorem shows_self : Shows server.names server.online server := ⟨rfl, rfl⟩

/-- A login is one of the directory. -/
theorem directory_login {next : Server} {name : Value} {key : Key} (named : name.key = .ok key)
    (shows_ : Shows (Function.update server.names conn (some name))
      (Function.update server.online key (some conn)) next) :
    next.directory = server.directory.login conn key := by
  -- What was shown of the tables is what the directory knows.
  rw [shows_.directory]
  simp only [Directory.login, Directory.mk.injEq]
  refine ⟨?_, rfl⟩
  funext other
  simp only [Function.update_apply]
  split
  · simp [named, Except.toOption]
  · rfl

/-- A disconnect is a logout of the directory. -/
theorem directory_logout {next : Server} {key : Key} (has : server.directory.named conn = some key)
    (shows_ : Shows (Function.update server.names conn none)
      (Function.update server.online key none) next) :
    next.directory = server.directory.logout conn := by
  -- What was shown of the tables is what the directory knows.
  rw [shows_.directory]
  simp only [Directory.logout, has, Directory.mk.injEq]
  refine ⟨?_, rfl⟩
  funext other
  simp only [Function.update_apply]
  split
  · simp
  · rfl

/-- A signal keeps the tables consistent unless it upsets them. -/
theorem take_consistent {signal : Signal} (consistent : server.Consistent) :
    (server.take signal).Consistent ↔ ¬ server.Upsets signal := by
  -- What the signal does to the tables is what a login or a logout does to the directory.
  obtain ⟨directed, keys⟩ := consistent_iff.mp consistent
  cases signal with
  | message arrival =>
    show (server.receive arrival).Consistent ↔ _
    -- A message that signs nobody in leaves the directory as it is.
    cases logs : server.login arrival with
    | none =>
      have kept := receive_shows logs (@shows_self server)
      have same : (server.receive arrival).Consistent := by
        refine consistent_iff.mpr ⟨?_, ?_⟩
        · rw [kept.directory]
          exact directed
        · rw [kept.names]
          exact keys
      simp [same, Server.Upsets, logs]
    -- The name that is logged in must not lead to another connection.
    | some name =>
      obtain ⟨key, named, kept⟩ := receive_login logs (@shows_self server)
      have fine : ∀ conn name, (server.receive arrival).names conn = some name →
          ∃ key, name.key = .ok key := by
        intro conn other has
        rw [kept.names, Function.update_apply] at has
        split at has
        · cases has
          exact ⟨key, named⟩
        · exact keys conn other has
      rw [consistent_iff, directory_login named kept, Directory.login_consistent directed,
        and_iff_left fine]
      constructor
      · rintro only ⟨again, key', other, logs', named', apart, leads⟩
        rw [logs, Option.some.injEq] at logs'
        rw [← logs', named, Except.ok.injEq] at named'
        rw [← named'] at apart
        exact apart (only other leads)
      · intro none_ other leads
        by_contra apart
        exact none_ ⟨name, key, other, logs, named, apart, leads⟩
  | disconnect conn =>
    show (after (userDisc conn) server).Consistent ↔ _
    cases found : server.session conn with
    | none => simp [userDisc_absent found, consistent, Server.Upsets, found]
    -- The name of the connection must not be that of another one as well.
    | some session =>
      obtain ⟨key, other, named, leads⟩ := consistent.known conn session found
      have has : server.directory.named conn = some key :=
        directory_named.mpr ⟨session, found, named⟩
      have kept := userDisc_shows found named (@shows_self server)
      have fine : ∀ other name, (after (userDisc conn) server).names other = some name →
          ∃ key, name.key = .ok key := by
        intro other name has
        rw [kept.names, Function.update_apply] at has
        split at has
        · contradiction
        · exact keys other name has
      rw [consistent_iff, directory_logout has kept, Directory.logout_consistent directed,
        and_iff_left fine]
      constructor
      · rintro only ⟨session', other, twin, found', apart, too, same⟩
        rw [found, Option.some.injEq] at found'
        rw [← found', named] at same
        exact apart (only key has other (directory_named.mpr ⟨twin, too, same⟩))
      · intro none_ key' has' other too
        rw [has, Option.some.injEq] at has'
        obtain ⟨twin, too, same⟩ := directory_named.mp too
        by_contra apart
        refine none_ ⟨session, other, twin, found, apart, too, ?_⟩
        rw [same, named, has']

namespace Looks

variable {α β : Type} {good : α → Prop}

theorem pure {a : α} (fine : good a) : Looks server (Pure.pure a) good := by
  refine ⟨rfl, by simp [result], fun b returned => ?_⟩
  cases returned
  exact fine

theorem raise {e : Exn} (other : e ≠ .keyError) : Looks server (Act.raise e) good := by
  refine ⟨rfl, by simpa [result] using other, fun b returned => ?_⟩
  cases returned

theorem ofExcept {value : Except Exn α} (other : value ≠ .error .keyError)
    (fine : ∀ a, value = .ok a → good a) : Looks server (Act.ofExcept value) good := by
  -- A value is fine, and an exception is not the one that the lookup must not raise.
  cases value with
  | ok a => exact .pure (fine a rfl)
  | error e =>
    apply Looks.raise
    intro same
    exact other (by rw [same])

theorem bind (mid : α → Prop) {good : β → Prop} {act : Rpc α} {next : α → Rpc β}
    (first : Looks server act mid) (rest : ∀ a, mid a → Looks server (next a) good) :
    Looks server (act >>= next) good := by
  -- The first act stays in the state, so the second one begins there.
  obtain ⟨stays, succeeds, fine⟩ := first
  cases ran : act server with
  | mk out reached =>
    have reached_eq : reached = server := by simpa [after, ran] using stays
    rw [reached_eq] at ran
    cases out with
    | ok a =>
      have onward := rest a (fine a (by simp [result, ran]))
      unfold Looks after result at onward ⊢
      rwa [run_bind_ok ran]
    | error e =>
      unfold Looks after result
      rw [run_bind_error ran]
      refine ⟨rfl, ?_, fun b returned => by cases returned⟩
      intro failed
      cases failed
      exact succeeds (by simp [result, ran])

/-- The state that is read is the server. -/
theorem reading {good : β → Prop} {next : Server → Rpc β} (rest : Looks server (next server) good) :
    Looks server (Act.read >>= next) good :=
  Looks.bind (fun read => read = server) ⟨rfl, by simp [result], fun a returned => by
    cases returned
    rfl⟩ fun a same => by rwa [same]

end Looks

/-- No value fails to be a key the way a lookup fails. -/
theorem key_ne_keyError (name : Value) : name.key ≠ .error .keyError := by
  cases name with
  | real text whole => cases whole <;> simp [Value.key]
  | _ => simp [Value.key]

/-- The second part of a name, if it has one, is its domain. -/
theorem looks_domainOf (name : Value) :
    Looks server (domainOf name) fun domain =>
      ∀ home, name.livesIn home = decide (domain = home) := by
  unfold domainOf
  refine .bind (fun parts => name.split = .ok parts) (.ofExcept ?_ fun _ ok => ok) ?_
  · cases name <;> simp [Value.split]
  · intro parts splits
    unfold second
    -- A name without an at sign raises an exception, of another kind than a missing key.
    cases part : parts[1]? with
    | none => exact .raise (by simp)
    | some text =>
      refine .pure fun home => ?_
      simp [Value.livesIn, splits, part]

/-- The status of a name is looked up without fail, and reports the tables. -/
theorem looks_statusOf (consistent : server.Consistent) (name : Value) :
    Looks server (statusOf name) (Reports server name) := by
  -- The directory knows the connection of every name in the table of sessions.
  refine .reading (.bind (fun key => name.key = .ok key)
    (.ofExcept (key_ne_keyError name) fun key ok => ok) fun key named => ?_)
  cases leads : server.online key with
  | none =>
    refine .pure (.absent fun conn session found same => ?_)
    obtain ⟨key', other, named', leads'⟩ := consistent.known conn session found
    rw [same, named, Except.ok.injEq] at named'
    rw [← named', leads] at leads'
    contradiction
  -- The connection has a session of that name.
  | some conn =>
    obtain ⟨session, found, has⟩ := consistent.listed key conn leads
    dsimp only
    refine .bind (fun read => read = session) (.reading ?_) ?_
    · simp only [found]
      exact .pure rfl
    · rintro _ rfl
      exact .pure (.present found (has.trans named.symm))

theorem looks_statusesOf (consistent : server.Consistent) (users : List Value) :
    Looks server (statusesOf users) (List.Forall₂ (Reports server) users) := by
  induction users with
  | nil => exact .pure .nil
  | cons user users ih =>
    exact .bind _ (looks_statusOf consistent user) fun status reports =>
      .bind _ ih fun rest each => .pure (.cons reports each)

theorem looks_localStatuses (consistent : server.Consistent) (rows : List (Option Text)) :
    ∀ frByDom, Looks server (localStatuses rows frByDom) fun found =>
      List.Forall₂ (Reports server)
        ((rows.map columnValue).filter (Value.livesIn server.domain)) found.1 := by
  -- By induction on the rows, of which only those of the domain are looked up.
  induction rows with
  | nil => exact fun frByDom => .pure .nil
  | cons friend rows ih =>
    intro frByDom
    refine .reading (.bind _ (looks_domainOf _) fun domain lives => ?_)
    rw [List.map_cons, List.filter_cons, lives]
    split
    · rename_i local_
      simp only [local_, decide_true, if_true]
      exact .bind _ (looks_statusOf consistent _) fun status reports =>
        .bind _ (ih frByDom) fun rest each => .pure (.cons reports each)
    · rename_i remote
      simp only [remote, decide_false, Bool.false_eq_true, if_false]
      exact ih _

/-- A method for authenticated connections looks as it does for each session. -/
theorem looks_ifAuth {method : Session → Rpc Value} {good : Value → Prop} (refused : good denied)
    (looks : ∀ session, server.session conn = some session → Looks server (method session) good) :
    Looks server (ifAuth conn method) good := by
  refine .reading ?_
  cases found : server.session conn with
  | none => exact .pure refused
  | some session => exact looks session found

/-- A user is counted without fail, though there may be none. -/
theorem looks_userExists (userName : Value) :
    Looks server (userExists userName) fun _ => True := by
  -- The query, its row and the count in it may each fail, though not with a missing key.
  refine .bind (fun _ => True) ?_ fun cnt _ => .bind (fun _ => True) ?_ fun n _ => ?_
  · unfold executeQuery bindOne
    split
    · refine .reading (.bind (fun _ => True) ?_ fun _ _ => .pure trivial)
      exact ⟨rfl, by simp [result], fun _ _ => trivial⟩
    · exact .pure trivial
    · rename_i e _ bound
      apply Looks.raise
      rintro rfl
      revert bound
      cases userName with
      | int i => simp only [Value.bind]; split <;> simp
      | raw bytes => simp only [Value.bind]; split <;> simp
      | _ => simp [Value.bind]
  · cases cnt with
    | none => exact .raise (by simp)
    | some n => exact .pure trivial
  · split
    · exact .pure trivial
    · exact .raise (by simp)

/-- Consistent tables answer every query. -/
theorem consistent_answers (consistent : server.Consistent) : server.Answers := by
  -- A query of one user, a query of several, and the statuses of the friends.
  refine ⟨fun net conn userName lives => ?_, fun conn users => ?_, looks_localStatuses consistent⟩
  · refine looks_ifAuth (Or.inl rfl) fun session found => ?_
    refine .bind (fun _ => True) ?_ fun _ _ =>
      .bind _ (looks_domainOf userName) fun domain resides => .reading ?_
    · -- A name of another kind than text is refused.
      refine .bind (fun _ => True) (.ofExcept ?_ fun _ _ => trivial) fun hasAt _ => ?_
      · cases userName <;> simp [Value.contains]
      · split
        · exact .pure trivial
        · exact .raise (by simp)
    · have home : domain = server.domain := by simpa [resides] using lives
      rw [if_pos home]
      exact .bind _ (looks_userExists userName) fun _ _ =>
        .bind _ (looks_statusOf consistent userName) fun status reports =>
          .pure (Or.inr ⟨status, reports, rfl⟩)
  · refine looks_ifAuth (Or.inl rfl) fun session found => ?_
    refine .bind (fun names => users.iterate = .ok names) (.ofExcept ?_ fun _ ok => ok)
      fun names ok => .bind _ (looks_statusesOf consistent names) fun rList each =>
        .pure (Or.inr ⟨names, rList, ok, each, rfl⟩)
    cases users <;> simp [Value.iterate]

@[simp] theorem takes_append (start : Server) (first rest : List Signal) :
    start.takes (first ++ rest) = (start.takes first).takes rest := by
  simp [Server.takes]

/-- The tables are consistent, and answer every query, all along a run exactly when none of its
signals upsets them. -/
theorem presence_iff {start : Server} (consistent : start.Consistent) (signals : List Signal) :
    (∀ first rest, signals = first ++ rest →
      (start.takes first).Consistent ∧ (start.takes first).Answers) ↔
    ∀ first signal rest, signals = first ++ signal :: rest →
      ¬ (start.takes first).Upsets signal := by
  -- A signal that upsets the tables is met with tables that were consistent before it.
  constructor
  · intro always first signal rest split
    have before := (always first (signal :: rest) split).1
    have after := (always (first ++ [signal]) rest (by simp [split])).1
    rw [takes_append] at after
    exact (take_consistent before).mp after
  · intro calm first
    -- The induction is on the end of the part that has been handled.
    induction first using List.reverseRecOn with
    | nil => exact fun rest split => ⟨consistent, consistent_answers consistent⟩
    | append_singleton first signal ih =>
      intro rest split
      rw [List.append_assoc] at split
      have before := (ih (signal :: rest) split).1
      have after := (take_consistent before).mpr (calm first signal rest split)
      rw [takes_append]
      exact ⟨after, consistent_answers after⟩

/-- A server on which nobody is authenticated yet. -/
def vacant : Server := { office [] with authList := [], connTbl := [] }

/-- A login on the first connection. -/
def loginAs (userName : Text) (password : String) : Signal :=
  .message ⟨clientConn 1, message .authenticateUser [.raw userName, .text password], offline⟩

/-- Tables without entries are consistent. -/
theorem vacant_consistent : vacant.Consistent where
  listed := fun key conn leads => by simp [vacant, Server.online] at leads
  known := fun conn session found => by simp [vacant, Server.session] at found

/-- The tables stay consistent through a login and a disconnect if neither of them upsets them. -/
theorem presence_iff_vacant :
    (∀ first rest, [loginAs userA "1", .disconnect (clientConn 1)] = first ++ rest →
      (vacant.takes first).Consistent ∧ (vacant.takes first).Answers) ↔
    ∀ first signal rest, [loginAs userA "1", .disconnect (clientConn 1)] =
      first ++ signal :: rest → ¬ (vacant.takes first).Upsets signal :=
  presence_iff vacant_consistent _

/-- A connection that logs in again under another name leaves the entry of the first one. -/
theorem presence_stale : ¬ ∀ (start : Server) (signals : List Signal), start.authList = [] →
    start.connTbl = [] → ∀ first rest, signals = first ++ rest →
      (start.takes first).Consistent ∧ (start.takes first).Answers := by
  -- One connection logs in as one user and then as another one.
  intro claim
  obtain ⟨consistent, -⟩ :=
    claim vacant [loginAs userA "1", loginAs userC "3"] rfl rfl _ [] (List.append_nil _).symm
  obtain ⟨session, found, named⟩ := consistent.listed (.text userA) (clientConn 1) rfl
  cases found
  cases named

end Motmot.Plume
