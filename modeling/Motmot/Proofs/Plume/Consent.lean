import Motmot.Proofs.Plume.Discretion

/-! When a request for friendship is accepted, and by whom. -/

namespace Motmot.Plume

open Act

/-- A row is about two users, either way round. -/
def Friendship.between (u f : Text) (row : Friendship) : Bool :=
  row.userName = some u && row.friend = some f || row.userName = some f && row.friend = some u

/-- There is a row between two users. -/
def related (u f : Text) (rows : List Friendship) : Bool := rows.any (Friendship.between u f)

/-- There is an accepted row between two users. -/
def agreed (u f : Text) (rows : List Friendship) : Bool :=
  rows.any fun row => row.between u f && row.accepted = isAccepted

/-- The function that a message calls, and its arguments. -/
def called : Value → Option (Handler × List Value)
  | .array (opcode :: args) => (dispatched opcode).map fun fn => (fn, args)
  | _ => none

/-- A connection is authenticated under a name. -/
def Server.Speaks (server : Server) (conn : Address) (u : Text) (session : Session) : Prop :=
  server.session conn = some session ∧ session.name.bind = .ok (some u)

/-- An arrival has a user accept another one. -/
def Accepts (server : Server) (arrival : Arrival) (u f : Text) : Prop :=
  ∃ session, server.Speaks arrival.conn u session ∧
    called arrival.message = some (.acceptFriend, [.raw f])

/-- An arrival has a user register another one in its own name. -/
def Registers (server : Server) (arrival : Arrival) (u f : Text) : Prop :=
  ∃ session, server.Speaks arrival.conn u session ∧
    (called arrival.message = some (.registerFriend, [.raw f]) ∨
      ∃ un, called arrival.message = some (.registerFriend, [.raw f, un]) ∧
        (actingName session un).bind = .ok (some u))

/-- A request over the connection of a user creates the rows between this user and another. -/
def Creates (server : Server) (arrival : Arrival) (u f : Text) : Prop :=
  ∃ session args, server.Speaks arrival.conn u session ∧
    called arrival.message = some (.registerFriend, args) ∧
    related u f server.friends = false ∧ related u f (server.receive arrival).friends = true

/-- Rows that a request of `u` created stand, and `f` has not accepted or registered `u` since. -/
def Pending (start : Server) (arrivals : List Arrival) (u f : Text) : Prop :=
  ∃ older asking newer, arrivals = older ++ asking :: newer ∧
    Creates (start.serve older) asking u f ∧
    (∀ front back, newer = front ++ back →
      related u f (start.serve (older ++ asking :: front)).friends = true) ∧
    ∀ front answer back, newer = front ++ answer :: back →
      ¬ Accepts (start.serve (older ++ asking :: front)) answer f u ∧
      ¬ Registers (start.serve (older ++ asking :: front)) answer f u

/-- No row between two users is accepted while the request of the first is pending. -/
def Consents (start : Server) (arrivals : List Arrival) (u f : Text) : Prop :=
  ∀ front back, arrivals = front ++ back → Pending start front u f →
    agreed u f (start.serve front).friends = false

/-- A user of the domain of the server. -/
structure Server.Member (server : Server) (f : Text) : Prop where
  ascii : (Value.raw f).bind = .ok (some f)
  account : (server.users.countP fun row => sqlEq row.userName (some f)) = 1
  home : second (f.splitOn '@') = .ok server.domain

/-- A message is not the news of another server that a request has been accepted. -/
def Friendly (message : Value) : Prop :=
  (called message).map Prod.fst ≠ some .serverAcceptFriend

/-- Updating a row accepts it exactly if it is the one that is named. -/
theorem update_accepted (pair : Option Text × Option Text) (row : Friendship) :
    (Friendship.update pair row).accepted =
      if row.named pair then isAccepted else row.accepted := by
  unfold Friendship.update
  split <;> rfl

@[simp] theorem update_named (pair other : Option Text × Option Text) (row : Friendship) :
    (Friendship.update pair row).named other = row.named other := by
  simp [Friendship.named]

theorem between_update {u f : Text} (pair : Option Text × Option Text) (row : Friendship) :
    (Friendship.update pair row).between u f = row.between u f := by
  simp [Friendship.between]

/-- An update keeps the rows between two users. -/
theorem related_update {u f : Text} (pair : Option Text × Option Text) (rows : List Friendship) :
    related u f (Write.update.run pair rows) = related u f rows := by
  simp [related, Write.run, List.any_map, Function.comp_def, between_update]

theorem agreed_related {u f : Text} {rows : List Friendship} (apart : related u f rows = false) :
    agreed u f rows = false := by
  simp only [related, List.any_eq_false] at apart
  simp only [agreed, List.any_eq_false]
  intro row mem
  simp [apart row mem]

/-- A statement other than an update of one of the two rows does not accept a request. -/
theorem agreed_run {u f : Text} {write : Write} {pair : Option Text × Option Text}
    {rows : List Friendship} (open_ : agreed u f rows = false)
    (other : write = .update → pair ≠ (some u, some f) ∧ pair ≠ (some f, some u)) :
    agreed u f (write.run pair rows) = false := by
  simp only [agreed, List.any_eq_false] at open_ ⊢
  intro row mem
  -- An insertion accepts nothing, a deletion adds no row, and an update is of other rows.
  cases write with
  | insert =>
    simp only [Write.run, List.mem_append, List.mem_singleton] at mem
    obtain old | new := mem
    · exact open_ row old
    · -- What is inserted is not accepted.
      have fresh : notAccepted ≠ isAccepted := by decide
      simp [new, fresh]
  | delete =>
    simp only [Write.run, List.mem_filter] at mem
    exact open_ row mem.1
  | update =>
    simp only [Write.run, List.mem_map] at mem
    obtain ⟨old, was, rfl⟩ := mem
    by_cases named : old.named pair = true
    · -- The row that is updated is between others.
      obtain ⟨same1, same2, -, -⟩ := named_columns named
      obtain ⟨forth, back⟩ := other rfl
      have elsewhere : old.between u f = false := by
        simp only [Friendship.between, same1, same2]
        simp only [Prod.ext_iff, ne_eq] at forth back
        simp only [Bool.or_eq_false_iff, Bool.and_eq_false_iff, decide_eq_false_iff_not]
        tauto
      simp [between_update, elsewhere]
    · have kept : Friendship.update pair old = old := by
        simp [Friendship.update, named]
      rw [kept]
      exact open_ old was

/-- Updating both rows between two users accepts the request if there is one. -/
theorem agreed_update {u f : Text} {rows : List Friendship} (apart : related u f rows = true) :
    agreed u f (Write.update.run (some f, some u) (Write.update.run (some u, some f) rows))
      = true := by
  -- The row that there is between the two is named by one of the updates.
  simp only [related, List.any_eq_true] at apart
  obtain ⟨row, mem, both⟩ := apart
  simp only [agreed, List.any_eq_true]
  refine ⟨Friendship.update (some f, some u) (Friendship.update (some u, some f) row), ?_, ?_⟩
  · simp only [Write.run, List.mem_map]
    exact ⟨_, ⟨row, mem, rfl⟩, rfl⟩
  · have named : row.named (some u, some f) = true ∨ row.named (some f, some u) = true := by
      simp only [Friendship.between, Bool.or_eq_true, Bool.and_eq_true, decide_eq_true_eq] at both
      obtain ⟨name, friend⟩ | ⟨name, friend⟩ := both
      · exact .inl (by simp [Friendship.named, sqlEq, name, friend])
      · exact .inr (by simp [Friendship.named, sqlEq, name, friend])
    have accepted : (Friendship.update (some f, some u)
        (Friendship.update (some u, some f) row)).accepted = isAccepted := by
      simp only [update_accepted, update_named]
      obtain first | last := named
      · simp [first]
      · simp [last]
    simp [between_update, both, accepted]

/-! ### What is kept while a request is pending -/

/-- The rows that a statement of a friendly call updates are those of the user that accepts. -/
theorem friendly_update {fn : Handler} {args : List Value} {session : Session} {x y : Value}
    (friendly : fn ≠ .serverAcceptFriend) (runs : (.update, x, y) ∈ fn.writes session args) :
    ∃ friend, fn = .acceptFriend ∧ args = [friend] ∧ friend.searchable = true ∧
      (x = session.name ∧ y = friend ∨ x = friend ∧ y = session.name) := by
  -- Of the calls of users only one updates rows.
  unfold Handler.writes at runs
  split at runs
  · split at runs <;> simp at runs
  · split at runs <;> simp at runs
  · split at runs <;> simp at runs
  · split at runs <;> simp at runs
  · split at runs
    · rename_i friend searched
      simp only [List.mem_cons, Prod.mk.injEq, List.not_mem_nil, or_false, true_and] at runs
      exact ⟨friend, rfl, rfl, searched, runs⟩
    · simp at runs
  · exact absurd rfl friendly
  · cases runs

/-- A friendly arrival accepts no request between two users unless one of them accepts the other. -/
theorem receive_agreed {u f : Text} {server : Server} {arrival : Arrival}
    (friendly : Friendly arrival.message) (open_ : agreed u f server.friends = false)
    (forth : ¬ Accepts server arrival u f) (back : ¬ Accepts server arrival f u) :
    agreed u f (server.receive arrival).friends = false := by
  have start : Stands (agreed u f · = false) server.users server.domain server :=
    ⟨open_, rfl, rfl⟩
  -- Each statement that the arrival runs leaves the request open.
  refine (receive_friends ?_ start).friends
  intro opcode args fn session shape found live write x y runs pair bound rows still
  have calls : called arrival.message = some (fn, args) := by simp [called, shape, found]
  apply agreed_run still
  intro updates
  rw [updates] at runs
  have other : fn ≠ .serverAcceptFriend := by
    intro same
    exact friendly (by rw [calls, same]; rfl)
  obtain ⟨friend, rfl, rfl, searched, names⟩ := friendly_update other runs
  obtain ⟨first, last⟩ := bindTwo_eq_ok.mp bound
  constructor
  · -- The rows of the first user with the second as a friend.
    intro same
    rw [same] at first last
    obtain ⟨rfl, rfl⟩ | ⟨rfl, rfl⟩ := names
    · obtain ⟨bytes, rfl, is⟩ := searchable_bind searched last
      cases is
      exact forth ⟨session, ⟨live, first⟩, calls⟩
    · obtain ⟨bytes, rfl, is⟩ := searchable_bind searched first
      cases is
      exact back ⟨session, ⟨live, last⟩, calls⟩
  · intro same
    rw [same] at first last
    obtain ⟨rfl, rfl⟩ | ⟨rfl, rfl⟩ := names
    · obtain ⟨bytes, rfl, is⟩ := searchable_bind searched last
      cases is
      exact back ⟨session, ⟨live, first⟩, calls⟩
    · obtain ⟨bytes, rfl, is⟩ := searchable_bind searched first
      cases is
      exact forth ⟨session, ⟨live, last⟩, calls⟩

/-- Creating the rows between two users does not accept them. -/
theorem creates_agreed {u f : Text} {server : Server} {arrival : Arrival}
    (creates : Creates server arrival u f) :
    agreed u f (server.receive arrival).friends = false := by
  obtain ⟨session, args, -, calls, absent, -⟩ := creates
  -- A message that registers does not accept.
  have registers {v w : Text} : ¬ Accepts server arrival v w := by
    rintro ⟨-, -, accepts⟩
    rw [calls] at accepts
    cases accepts
  apply receive_agreed
  · simp [Friendly, calls]
  · exact agreed_related absent
  · exact registers
  · exact registers

/-- A request that is pending was pending at every earlier time since it was made. -/
theorem Pending.earlier {start : Server} {older newer front back : List Arrival}
    {asking : Arrival} {u f : Text} (creates : Creates (start.serve older) asking u f)
    (stands : ∀ front back, newer = front ++ back →
      related u f (start.serve (older ++ asking :: front)).friends = true)
    (silent : ∀ front answer back, newer = front ++ answer :: back →
      ¬ Accepts (start.serve (older ++ asking :: front)) answer f u ∧
      ¬ Registers (start.serve (older ++ asking :: front)) answer f u)
    (split : newer = front ++ back) : Pending start (older ++ asking :: front) u f := by
  refine ⟨older, asking, front, rfl, creates, ?_, ?_⟩
  · intro first rest cut
    exact stands first (rest ++ back) (by simp [split, cut])
  · intro first answer rest cut
    exact silent first answer (rest ++ back) (by simp [split, cut])

/-- If nobody accepts while its own request is pending, requests are only accepted by consent. -/
theorem consents_of_patient {start : Server} {arrivals : List Arrival} {u f : Text}
    (friendly : ∀ arrival ∈ arrivals, Friendly arrival.message)
    (patient : ∀ front hasty back, arrivals = front ++ hasty :: back → Pending start front u f →
      ¬ Accepts (start.serve front) hasty u f) : Consents start arrivals u f := by
  -- The request is open right after it was made, and stays so until one of the two accepts.
  intro front back split pending
  obtain ⟨older, asking, newer, shape, creates, stands, silent⟩ := pending
  -- The rows are open right after the request, and every later arrival leaves them open.
  have open_ : ∀ first rest, newer = first ++ rest →
      agreed u f (start.serve (older ++ asking :: first)).friends = false := by
    intro first
    induction first using List.reverseRecOn with
    | nil =>
      intro rest _
      simp only [Server.serve_append, Server.serve_cons, Server.serve_nil]
      exact creates_agreed creates
    | append_singleton first arrival ih =>
      intro rest cut
      have before := ih (arrival :: rest) (by simp [cut])
      have reached : start.serve (older ++ asking :: (first ++ [arrival])) =
          (start.serve (older ++ asking :: first)).receive arrival := by
        simp
      have whole : arrivals = (older ++ asking :: first) ++ arrival :: (rest ++ back) := by
        simp [split, shape, cut]
      rw [reached]
      apply receive_agreed
      · exact friendly arrival (by simp [whole])
      · exact before
      · -- The hasty acceptance is excluded, since the request is pending here.
        have was : newer = first ++ arrival :: rest := by simp [cut]
        exact patient _ _ _ whole (.earlier creates stands silent was)
      · -- The other user has been silent so far.
        exact (silent first arrival rest (by simp [cut])).1
  rw [shape]
  exact open_ newer [] (by simp)

/-! ### Accepting one's own request -/

/-- A query whose parameters are bound answers and writes what its statement says. -/
theorem executeQuery_ok {π : Type} {params : Except Exn π} {bound : π}
    {statement : π → Server → Option Nat × Server} (ok : params = .ok bound) (server : Server) :
    executeQuery params statement server =
      (.ok (statement bound server).1, (statement bound server).2) := by
  rw [ok]
  rfl

/-- A member passes the check of local names. -/
theorem userExistsIfLocal_ok {server : Server} {f : Text} (member : server.Member f) :
    userExistsIfLocal (.raw f) server = (.ok (), server) := by
  -- A local name must have an account, and that of a member has one.
  unfold userExistsIfLocal
  rw [run_bind_ok (run_read server)]
  have contains : (Value.raw f).contains server.domain = .ok (decide (server.domain <:+: f)) := rfl
  rw [contains]
  by_cases isLocal : server.domain <:+: f
  · have counts : executeQuery (bindOne (.raw f)) countUser server = (.ok (some 1), server) := by
      have bound : bindOne (.raw f) = .ok (some f) := member.ascii
      rw [executeQuery_ok bound]
      simp [countUser, member.account]
    simp only [isLocal, decide_true]
    show userExists (.raw f) server = (.ok (), server)
    unfold userExists
    rw [run_bind_ok counts]
    rfl
  · simp only [isLocal, decide_false]
    rfl

/-- Accepting a member of the domain updates the rows of both directions. -/
theorem acceptFriend_updates {net : Net} {conn : Address} {server : Server} {u f : Text}
    {session : Session} (speaks : server.Speaks conn u session) (member : server.Member f) :
    (after (acceptFriend net conn (.raw f)) server).friends =
      Write.update.run (some f, some u) (Write.update.run (some u, some f) server.friends) := by
  -- The call computes down to the two updates and a push.
  obtain ⟨live, name⟩ := speaks
  have reads : acceptFriend net conn (.raw f) server = _ := run_bind_ok (run_read server)
  unfold after
  rw [reads, live]
  simp only
  rw [run_bind_ok (userExistsIfLocal_ok member)]
  -- The row of the user that accepts.
  have forth : bindTwo session.name (.raw f) = .ok (some u, some f) :=
    bindTwo_eq_ok.mpr ⟨name, member.ascii⟩
  rw [run_bind_ok (executeQuery_ok forth server)]
  generalize flipped : (updateFriend (some u, some f) server).2 = mid
  have domain : mid.domain = server.domain := by rw [← flipped]; rfl
  have splits : domainOf (.raw f) mid = (.ok server.domain, mid) := by
    show Act.ofExcept (second (f.splitOn '@')) mid = _
    rw [member.home]
    rfl
  rw [run_bind_ok splits, run_bind_ok (run_read mid), if_pos domain.symm]
  -- The row of the friend, which is on this domain.
  have back : bindTwo (.raw f) session.name = .ok (some f, some u) :=
    bindTwo_eq_ok.mpr ⟨member.ascii, name⟩
  rw [run_bind_ok (executeQuery_ok back mid)]
  generalize done : (updateFriend (some f, some u) mid).2 = last
  -- The push sends something, and writes no row.
  have pushes : Minds (· = last.friends) last.users last.domain
      (push (.raw f) (message .pushFriendAccept [session.name, session.status]) >>=
        fun _ => (pure (reply .success "Friend Request Accepted") : Rpc Value)) :=
    .andThen (minds_push _ _) fun _ => .pure trivial
  have kept := (pushes last ⟨rfl, rfl, rfl⟩).1.friends
  unfold after at kept
  rw [kept, ← done, ← flipped]
  rfl

/-- The accounts and the domain of the server are never written. -/
theorem receive_member {server : Server} {arrival : Arrival} {f : Text} :
    (server.receive arrival).Member f ↔ server.Member f := by
  -- Nothing that an arrival runs writes the accounts.
  have same : Stands (fun _ => True) server.users server.domain (server.receive arrival) :=
    receive_friends (fun _ _ _ _ _ _ _ _ _ _ _ _ _ _ _ => trivial) ⟨trivial, rfl, rfl⟩
  constructor
  · intro member
    refine ⟨member.ascii, ?_, ?_⟩
    · rw [← same.users]
      exact member.account
    · rw [← same.domain]
      exact member.home
  · intro member
    refine ⟨member.ascii, ?_, ?_⟩
    · rw [same.users]
      exact member.account
    · rw [same.domain]
      exact member.home

theorem serve_member {server : Server} {arrivals : List Arrival} {f : Text} :
    (server.serve arrivals).Member f ↔ server.Member f := by
  induction arrivals generalizing server with
  | nil => rfl
  | cons arrival rest ih => rw [Server.serve_cons, ih, receive_member]

/-- A message that calls a function starts with its opcode and goes on with its arguments. -/
theorem called_eq_some {message : Value} {fn : Handler} {args : List Value}
    (calls : called message = some (fn, args)) :
    ∃ opcode, message = .array (opcode :: args) ∧ dispatched opcode = some fn := by
  unfold called at calls
  -- The opcode is looked up first, and then the shape of the call.
  split at calls
  · obtain ⟨found, dispatches, pair⟩ := Option.map_eq_some_iff.mp calls
    obtain ⟨rfl, rfl⟩ := Prod.mk.inj pair
    exact ⟨_, rfl, dispatches⟩
  · contradiction

/-- A user that accepts a member of the domain accepts the request between them, whoever made it. -/
theorem accepts_agreed {u f : Text} {server : Server} {arrival : Arrival}
    (member : server.Member f) (stands : related u f server.friends = true)
    (accepts : Accepts server arrival u f) :
    agreed u f (server.receive arrival).friends = true ∧
      related u f (server.receive arrival).friends = true := by
  obtain ⟨session, speaks, calls⟩ := accepts
  -- The handler runs one update in each direction.
  have written : (server.receive arrival).friends =
      Write.update.run (some f, some u) (Write.update.run (some u, some f) server.friends) := by
    obtain ⟨opcode, shape, found⟩ := called_eq_some calls
    simp only [Server.receive, rpcDispatcher, shape, found, writeback, Handler.call]
    exact acceptFriend_updates speaks member
  rw [written]
  exact ⟨agreed_update stands, by rw [related_update, related_update, stands]⟩

/-- An arrival has one user act. -/
theorem accepts_only {u f : Text} {server : Server} {arrival : Arrival} (apart : u ≠ f)
    (accepts : Accepts server arrival u f) :
    ¬ Accepts server arrival f u ∧ ¬ Registers server arrival f u := by
  -- A connection speaks for one user, and makes one call.
  obtain ⟨session, speaks, calls⟩ := accepts
  constructor
  · rintro ⟨other, speaks', -⟩
    have same := speaks.1.symm.trans speaks'.1
    cases same
    have names := speaks.2.symm.trans speaks'.2
    cases names
    exact apart rfl
  · rintro ⟨other, -, registers | ⟨un, registers, -⟩⟩ <;>
    · rw [calls] at registers
      cases registers

/--
Requests between members are accepted only by consent exactly in the runs in which nobody accepts
while its own request is pending.
-/
theorem consent_iff {u f : Text} {start : Server} {arrivals : List Arrival} (apart : u ≠ f)
    (member : start.Member f) (friendly : ∀ arrival ∈ arrivals, Friendly arrival.message) :
    Consents start arrivals u f ↔
      ∀ front hasty back, arrivals = front ++ hasty :: back → Pending start front u f →
        ¬ Accepts (start.serve front) hasty u f := by
  -- Patience is enough by the lemma; conversely a hasty acceptance is itself the counterexample.
  refine ⟨?_, consents_of_patient friendly⟩
  intro consents front hasty back split pending accepts
  obtain ⟨older, asking, newer, shape, creates, stands, silent⟩ := pending
  have here : start.serve front = start.serve (older ++ asking :: newer) := by rw [shape]
  have standing : related u f (start.serve front).friends = true := by
    rw [here]
    exact stands newer [] (by simp)
  obtain ⟨agrees, still⟩ := accepts_agreed (serve_member.mpr member) standing accepts
  have reached : start.serve (front ++ [hasty]) = (start.serve front).receive hasty := by simp
  -- The request is still pending after it has been accepted by the user that made it.
  have after_ : Pending start (front ++ [hasty]) u f := by
    refine ⟨older, asking, newer ++ [hasty], by simp [shape], creates, ?_, ?_⟩
    · intro first rest cut
      obtain rfl | ⟨rest, last, rfl⟩ := rest.eq_nil_or_concat
      · have whole : older ++ asking :: first = front ++ [hasty] := by
          rw [shape, ← List.append_nil first, ← cut]
          simp
        rw [whole, reached]
        exact still
      · simp only [List.concat_eq_append, ← List.append_assoc] at cut
        exact stands first rest (List.append_inj_left' cut rfl)
    · intro first answer rest cut
      -- Whatever came before the acceptance was silent already.
      obtain rfl | ⟨rest, last, rfl⟩ := rest.eq_nil_or_concat
      · -- The last arrival is not one of the other user.
        have parts := List.append_inj' cut rfl
        have whole : older ++ asking :: first = front := by rw [shape, ← parts.1]
        have same : answer = hasty := by simpa using parts.2.symm
        rw [whole, same]
        exact accepts_only apart accepts
      · have back : newer ++ [hasty] = (first ++ answer :: rest) ++ [last] := by
          rw [cut]
          simp
        exact silent first answer rest (List.append_inj_left' back rfl)
  have open_ := consents (front ++ [hasty]) back (by simp [split]) after_
  rw [reached, agrees] at open_
  cases open_

/-- The second user is a member of the domain of the office. -/
theorem office_member (friends : List Friendship) : (office friends).Member userB :=
  ⟨by rfl, by rfl, by rfl⟩

/-- The first user asks the second, and accepts at once. -/
def hastily : List Arrival :=
  [fromA .registerFriend [.raw userB], fromA .acceptFriend [.raw userB]]

/-- Neither message is one that servers send to accept. -/
theorem hastily_friendly : ∀ arrival ∈ hastily, Friendly arrival.message := by
  intro arrival mem
  simp only [hastily, List.mem_cons, List.not_mem_nil, or_false] at mem
  unfold Friendly
  obtain rfl | rfl := mem <;> decide

/-- The hasty acceptance is what the consent of the second user comes down to. -/
theorem consent_iff_hastily : Consents (office []) hastily userA userB ↔
    ∀ front hasty back, hastily = front ++ hasty :: back →
      Pending (office []) front userA userB →
        ¬ Accepts ((office []).serve front) hasty userA userB :=
  consent_iff (by decide) (office_member []) hastily_friendly

/-- A user that accepts its own request makes the other one a friend without consent. -/
theorem consent_forced : ¬ ∀ (u f : Text) (start : Server) (arrivals : List Arrival),
    start.friends = [] → u ≠ f → start.Member f →
    (∀ arrival ∈ arrivals, Friendly arrival.message) → Consents start arrivals u f := by
  -- The request of the first user is pending when the same user accepts it.
  intro claim
  have open_ := claim userA userB (office []) hastily rfl (by decide) (office_member [])
    hastily_friendly hastily [] (by simp)
  have pending : Pending (office []) hastily userA userB := by
    refine ⟨[], fromA .registerFriend [.raw userB], [fromA .acceptFriend [.raw userB]], rfl,
      ⟨⟨.raw userA, Status.online.value⟩, [.raw userB], ⟨rfl, rfl⟩, rfl, by decide, by decide⟩,
      ?_, ?_⟩
    · -- The rows stand before and after the second message.
      intro front back split
      cases front with
      | nil => decide
      | cons head tail =>
        simp only [List.cons_append, List.cons.injEq] at split
        obtain ⟨rfl, rest⟩ := split
        have done : tail = [] := (List.append_eq_nil_iff.mp rest.symm).1
        rw [done]
        decide
    · intro front answer back split
      have first : front = [] ∧ answer = fromA .acceptFriend [.raw userB] := by
        cases front with
        | nil =>
          simp only [List.nil_append, List.cons.injEq] at split
          exact ⟨rfl, split.1.symm⟩
        | cons head tail => simp at split
      obtain ⟨rfl, rfl⟩ := first
      -- The second message is one of the first user as well.
      have speaks {session : Session} : ¬ ((office []).serve
          [fromA .registerFriend [.raw userB]]).Speaks (clientConn 1) userB session := by
        rintro ⟨live, name⟩
        have own := (ordinary_office rfl session live).1
        rw [own] at name
        revert name
        decide
      constructor
      · rintro ⟨session, spoken, -⟩
        exact speaks spoken
      · rintro ⟨session, spoken, -⟩
        exact speaks spoken
  have agrees : agreed userA userB ((office []).serve hastily).friends = true := by decide
  rw [open_ pending] at agrees
  cases agrees

end Motmot.Plume
