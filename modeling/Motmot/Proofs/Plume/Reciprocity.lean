import Motmot.Proofs.Plume.Calls

/-! Two servers have the same rows of a friendship whenever no call is in progress. -/

namespace Motmot.Plume

open Act Mirror

@[simp] theorem Host.other_other (host : Host) : host.other.other = host := by cases host <;> rfl

theorem Host.other_ne (host : Host) : host.other ≠ host := by cases host <;> simp [Host.other]

namespace Duo

variable {names : Host → Text} {duo : Duo}

/-- The accept bits that a server has of its user with the other one. -/
def bits (names : Host → Text) (duo : Duo) (host : Host) : List Text :=
  bitsOf (names host) (names host.other) (duo.servers host).friends

/-- The calls of a list that a host has started and the other one has not served. -/
def unserved (calls : List Ongoing) (host : Host) : List Friending :=
  (calls.filter fun call => call.home = host && call.answer.isNone).map Ongoing.method

/-- A server lets its user befriend the other one. -/
def Lets (names : Host → Text) (duo : Duo) (host : Host) : Prop :=
  (duo.servers host).knows (names host.other) = true

/-- Each user is one of its server, and the servers have different domains. -/
structure Acquainted (names : Host → Text) (duo : Duo) : Prop where
  member : ∀ host, (duo.servers host).Member (names host)
  apart : (duo.servers .first).domain ≠ (duo.servers .second).domain

/-- No call is in progress, and the users are no friends. -/
structure Strangers (names : Host → Text) (duo : Duo) : Prop where
  acquainted : duo.Acquainted names
  idle : duo.pending = []
  bare : ∀ host, duo.bits names host = []

/-- What a call has asked, goes on with and is answered. -/
structure Correct (names : Host → Text) (duo : Duo) (call : Ongoing) : Prop where
  lets : duo.Lets names call.home
  request : ∃ status, call.request =
    call.method.request (names call.home) (names call.home.other) status
  rest : call.rest = call.method.rest (names call.home) (names call.home.other)
  success : ∀ answer, call.answer = some answer →
    duo.Lets names call.home.other ∨ call.method = .accept →
      ∃ text, answer = reply .success text
  unknown : ∀ answer, call.answer = some answer →
    ¬ duo.Lets names call.home.other → call.method ≠ .accept →
      ∃ text, answer = reply .userNotFound text

/-- What every event keeps that makes no difference to the order of calls which cross. -/
structure Reciprocal (names : Host → Text) (duo : Duo) : Prop where
  acquainted : duo.Acquainted names
  correct : ∀ call ∈ duo.pending, duo.Correct names call
  mirrors : ∀ host, duo.Lets names host → duo.Lets names host.other →
    Mirrors Friending.apply (duo.bits names host) (duo.bits names host.other)
      (unserved duo.pending host) (unserved duo.pending host.other)
  /-- A server that does not let its user befriend the other one has no row. -/
  bare : ∀ host, ¬ duo.Lets names host → duo.bits names host = []
  /-- Its peer has one only while a call is in progress that will remove it. -/
  undone : ∀ host, ¬ duo.Lets names host.other → duo.bits names host ≠ [] →
    ∃ call ∈ duo.pending, call.home = host ∧ call.method = .register

/-- An event lets no call overtake another one at a server where their order makes a difference. -/
def Event.Orderly (names : Host → Text) (duo : Duo) : Event → Prop
  | .start host _ method =>
    Mirror.Harmless Friending.apply (unserved duo.pending host.other) method (duo.bits names host)
  | .serve index _ => ∀ call, duo.pending[index]? = some call →
    Mirror.Harmless Friending.apply (unserved (duo.pending.take index) call.home) call.method
      (duo.bits names call.home.other)
  | .link _ _ => True
  | .finish _ => True

instance decidableEventOrderly (names : Host → Text) (duo : Duo) :
    ∀ event : Event, Decidable (event.Orderly names duo)
  | .start host _ method =>
    inferInstanceAs (Decidable (Mirror.Harmless Friending.apply _ method (duo.bits names host)))
  | .serve index _ =>
    match found : duo.pending[index]? with
    | some call =>
      decidable_of_iff (Mirror.Harmless Friending.apply
        (unserved (duo.pending.take index) call.home) call.method
        (duo.bits names call.home.other)) (by simp [Event.Orderly, found])
    | none => isTrue (by simp [Event.Orderly, found])
  | .link _ _ => isTrue trivial
  | .finish _ => isTrue trivial

/-- Whenever no call is in progress both servers have equal rows. -/
theorem Reciprocal.agree (inv : duo.Reciprocal names) (idle : duo.pending = []) :
    duo.bits names .first = duo.bits names .second := by
  -- Where both servers let the pair in, nothing in progress stands between their rows.
  by_cases first : duo.Lets names .first
  · by_cases second : duo.Lets names .second
    · have mirrors := inv.mirrors .first first second
      rw [idle] at mirrors
      exact mirrors.rest
    · -- The second server has no row, and nothing is left to undo at the first one.
      rw [inv.bare .second second]
      by_contra some_
      obtain ⟨call, member, _⟩ := inv.undone .first second some_
      simp [idle] at member
  · -- The same the other way round.
    rw [inv.bare .first first]
    by_contra some_
    obtain ⟨call, member, _⟩ := inv.undone .second first (Ne.symm some_)
    simp [idle] at member

/-- Strangers are a start. -/
theorem Strangers.reciprocal (strangers : duo.Strangers names) : duo.Reciprocal names := by
  -- Nobody has a row, so nothing has to be mirrored.
  refine ⟨strangers.acquainted, ?_, ?_, fun host _ => strangers.bare host, ?_⟩
  · simp [strangers.idle]
  · intro host _ _
    rw [strangers.idle, strangers.bare, strangers.bare]
    rfl
  · intro host _ some_
    exact absurd (strangers.bare host) some_

/-- Servers that differ in nothing that the friendship is about. -/
structure Alike (server other : Server) : Prop where
  domain : other.domain = server.domain
  users : other.users = server.users

/-- Membership and knowledge are about the domain and the accounts. -/
theorem Alike.member {server other : Server} (alike : Alike server other) {u : Text}
    (member : server.Member u) : other.Member u :=
  ⟨member.ascii, by rw [alike.users]; exact member.account,
    by rw [alike.domain]; exact member.home⟩

theorem Alike.knows {server other : Server} (alike : Alike server other) (f : Text) :
    other.knows f = server.knows f := by
  rw [Server.knows, Server.knows, alike.domain, alike.users]

/-- A step that leaves domains and accounts as they are. -/
def Calm (duo next : Duo) : Prop := ∀ host, Alike (duo.servers host) (next.servers host)

/-- Replacing a server by one that is alike. -/
theorem calm_put {host : Host} {server : Server} (alike : Alike (duo.servers host) server)
    (pending : List Ongoing) : duo.Calm { duo.put host server with pending := pending } := by
  intro other
  -- The replaced server is alike, and the other one is the same.
  by_cases here : other = host
  · subst here
    simpa [put] using alike
  · have same : Function.update duo.servers host server other = duo.servers other :=
      Function.update_of_ne here server duo.servers
    simp only [put, same]
    exact ⟨rfl, rfl⟩

theorem Calm.lets {next : Duo} (calm : duo.Calm next) (host : Host) :
    next.Lets names host ↔ duo.Lets names host := by
  rw [Lets, Lets, (calm host).knows]

theorem Calm.acquainted {next : Duo} (calm : duo.Calm next) (known : duo.Acquainted names) :
    next.Acquainted names := by
  refine ⟨fun host => (calm host).member (known.member host), ?_⟩
  rw [(calm .first).domain, (calm .second).domain]
  exact known.apart

theorem Calm.correct {next : Duo} (calm : duo.Calm next) {call : Ongoing}
    (correct : duo.Correct names call) : next.Correct names call where
  lets := (calm.lets call.home).mpr correct.lets
  request := correct.request
  rest := correct.rest
  -- The call looks at its own server only.
  success := by
    rw [calm.lets]
    exact correct.success
  unknown := by
    rw [calm.lets]
    exact correct.unknown

/-- The domains of a server and of its peer are different. -/
theorem Acquainted.differ (known : duo.Acquainted names) (host : Host) :
    (duo.servers host.other).domain ≠ (duo.servers host).domain := by
  cases host
  · exact Ne.symm known.apart
  · exact known.apart

@[simp] theorem unserved_append (front rest : List Ongoing) (host : Host) :
    unserved (front ++ rest) host = unserved front host ++ unserved rest host := by
  simp [unserved]

theorem unserved_cons (call : Ongoing) (rest : List Ongoing) (host : Host) :
    unserved (call :: rest) host =
      if call.home = host ∧ call.answer = none then call.method :: unserved rest host
      else unserved rest host := by
  unfold unserved
  rw [List.filter_cons]
  -- The call is counted if it is at this server and has no answer.
  by_cases here : call.home = host ∧ call.answer = none
  · simp [here.1, here.2]
  · rw [if_neg here]
    have off : ¬ (call.home = host && call.answer.isNone) = true := by simpa using here
    rw [if_neg off]

/-- The bits that a server has after another one was put somewhere. -/
theorem bits_put (duo : Duo) (host other : Host) (server : Server) (pending : List Ongoing) :
    bits names { duo.put host server with pending := pending } other =
      if other = host then bitsOf (names host) (names host.other) server.friends
      else duo.bits names other := by
  unfold bits put
  by_cases here : other = host
  · subst here
    simp
  · simp [here]

/-- The mirrors hold at both servers if they hold at one. -/
theorem mirrors_both {next : Duo} (host : Host)
    (here : next.Lets names host → next.Lets names host.other →
      Mirrors Friending.apply (next.bits names host) (next.bits names host.other)
        (unserved next.pending host) (unserved next.pending host.other)) :
    ∀ host, next.Lets names host → next.Lets names host.other →
      Mirrors Friending.apply (next.bits names host) (next.bits names host.other)
        (unserved next.pending host) (unserved next.pending host.other) := by
  intro other left right
  by_cases same : other = host
  · subst same
    exact here left right
  · obtain rfl : other = host.other := by cases other <;> cases host <;> simp_all [Host.other]
    rw [Host.other_other] at right ⊢
    exact (here right left).symm

/-- Replacing a server by one with the same rows. -/
theorem Reciprocal.calm {host : Host} {server : Server} (inv : duo.Reciprocal names)
    (alike : Alike (duo.servers host) server) (same : server.friends = (duo.servers host).friends) :
    (duo.put host server).Reciprocal names := by
  -- The rows are all that the invariant reads of a server.
  have calm := calm_put alike duo.pending
  have bits_eq : ∀ other, (duo.put host server).bits names other = duo.bits names other := by
    intro other
    have put := @bits_put names duo host other server duo.pending
    rw [same] at put
    refine put.trans ?_
    split
    · rename_i here
      rw [here]
      rfl
    · rfl
  refine ⟨calm.acquainted inv.acquainted, fun call member => calm.correct (inv.correct call member),
    ?_, ?_, ?_⟩
  · intro other
    rw [bits_eq, bits_eq]
    have lets := @Calm.lets names _ _ calm
    exact fun left right => inv.mirrors other ((lets other).mp left) ((lets _).mp right)
  · intro other
    rw [bits_eq]
    exact fun denied => inv.bare other fun lets => denied ((calm.lets other).mpr lets)
  · intro other
    rw [bits_eq]
    exact fun denied => inv.undone other fun lets => denied ((calm.lets _).mpr lets)

/-- The bits of a server whose rows a method has written. -/
theorem bits_writes (method : Friending) (host other : Host) {server : Server}
    (written : server.friends =
      method.writes (names host) (names host.other) (duo.servers host).friends)
    (pending : List Ongoing) :
    bits names { duo.put host server with pending := pending } other =
      if other = host then method.apply (duo.bits names host) else duo.bits names other := by
  rw [bits_put, written, Friending.bitsOf_writes]
  rfl

/-- A method that starts writes the rows of its server, or finds that it must not. -/
theorem start_reciprocal (inv : duo.Reciprocal names) {host : Host} {conn : Address}
    {method : Friending} {status : Value}
    (session : (duo.servers host).session conn = some ⟨.raw (names host), status⟩)
    (user : status.isStatus .server = false)
    (harmless : Mirror.Harmless Friending.apply (unserved duo.pending host.other) method
      (duo.bits names host)) :
    (duo.start host conn method (.raw (names host.other))).Reciprocal names := by
  -- A friend whom the server does not let in stops the method before it writes.
  have own := inv.acquainted.member host
  have other := inv.acquainted.member host.other
  cases lets : (duo.servers host).knows (names host.other) with
  | false =>
    rw [start, method.ask_refused session other.ascii lets]
    exact inv.calm ⟨rfl, rfl⟩ rfl
  | true =>
    -- The rows are written, and a call is in progress that the other server has not seen.
    rw [start, method.ask_spec session user own other.ascii lets other.home
      (inv.acquainted.differ host)]
    simp only
    generalize placed : ({ home := host, method := method, conn := conn, answer := none
                           request := method.request (names host) (names host.other) status
                           rest := method.rest (names host) (names host.other) } : Ongoing) = call
    generalize wrote : ({ duo.servers host with
      friends := method.writes (names host) (names host.other) (duo.servers host).friends } :
        Server) = server
    have calm : duo.Calm { duo.put host server with pending := duo.pending ++ [call] } := by
      refine calm_put ?_ _
      subst wrote
      exact ⟨rfl, rfl⟩
    have bits_eq : ∀ other, bits names { duo.put host server with
        pending := duo.pending ++ [call] } other =
          if other = host then method.apply (duo.bits names host) else duo.bits names other :=
      fun other => bits_writes method host other (by subst wrote; rfl) _
    refine ⟨calm.acquainted inv.acquainted, ?_, mirrors_both host ?_, ?_, ?_⟩
    · intro each member
      rcases List.mem_append.mp member with old | new
      · exact calm.correct (inv.correct each old)
      · rw [List.mem_singleton.mp new]
        subst placed
        exact ⟨(calm.lets host).mpr lets, ⟨status, rfl⟩, rfl, by simp, by simp⟩
    · -- The method is applied here, and awaits the other server.
      intro left right
      have mirrors := inv.mirrors host ((calm.lets host).mp left) ((calm.lets _).mp right)
      rw [bits_eq, bits_eq, if_pos rfl, if_neg (Host.other_ne host)]
      have sent : unserved [call] host = [method] := by
        subst placed
        simp [unserved]
      have none_ : unserved [call] host.other = [] := by
        subst placed
        simp [unserved, Ne.symm (Host.other_ne host)]
      simp only [unserved_append, sent, none_, List.append_nil]
      exact mirrors.start harmless
    · -- The other server is as it was.
      intro each denied
      have differs : each ≠ host := by
        intro here
        subst here
        exact denied ((calm.lets each).mpr lets)
      rw [bits_eq, if_neg differs]
      exact inv.bare each fun lets => denied ((calm.lets each).mpr lets)
    · -- If the other server will refuse, the call in progress undoes the row.
      intro each denied some_
      have old : ¬ duo.Lets names each.other := fun lets => denied ((calm.lets _).mpr lets)
      have kept : duo.bits names each ≠ [] →
          ∃ before ∈ duo.pending ++ [call], before.home = each ∧ before.method = .register := by
        intro some_
        obtain ⟨before, member, found⟩ := inv.undone each old some_
        exact ⟨before, List.mem_append_left _ member, found⟩
      rw [bits_eq] at some_
      split at some_
      · rename_i here
        subst here
        -- Only registering makes rows where there were none.
        cases method with
        | register =>
          refine ⟨call, by simp, ?_⟩
          subst placed
          exact ⟨rfl, rfl⟩
        | unregister => exact absurd rfl some_
        | accept => exact kept (by simpa [Friending.apply] using some_)
      · exact kept some_

/-- Whether the other server does what a call asks for. -/
def Takes (names : Host → Text) (duo : Duo) (call : Ongoing) : Prop :=
  duo.Lets names call.home.other ∨ call.method = .accept

/-- A call is answered, with its rows written at the other server if that takes it. -/
theorem answered_reciprocal (inv : duo.Reciprocal names) {front rest : List Ongoing}
    {call : Ongoing} (split : duo.pending = front ++ call :: rest) (open_ : call.answer = none)
    (harmless : Mirror.Harmless Friending.apply (unserved front call.home) call.method
      (duo.bits names call.home.other))
    {server : Server} {answer : Value} (alike : Alike (duo.servers call.home.other) server)
    (takes : duo.Takes names call → (∃ text, answer = reply .success text) ∧
      server.friends = call.method.writes (names call.home.other) (names call.home)
        (duo.servers call.home.other).friends)
    (refuses : ¬ duo.Takes names call → (∃ text, answer = reply .userNotFound text) ∧
      server.friends = (duo.servers call.home.other).friends) :
    Reciprocal names { duo.put call.home.other server with
      pending := front ++ { call with answer := some answer } :: rest } := by
  have correct := inv.correct call (by simp [split])
  have calm := calm_put alike (front ++ { call with answer := some answer } :: rest)
  have bits_eq := fun other => @bits_put names duo call.home.other other server
    (front ++ { call with answer := some answer } :: rest)
  generalize reached : ({ duo.put call.home.other server with
    pending := front ++ { call with answer := some answer } :: rest } : Duo) = next at *
  have pending : next.pending = front ++ { call with answer := some answer } :: rest := by
    rw [← reached]
  -- The rows of the caller stay, and those of the other server change if it takes the call.
  have near : next.bits names call.home = duo.bits names call.home := by
    rw [bits_eq, if_neg (Ne.symm (Host.other_ne call.home))]
  have far : duo.Takes names call → next.bits names call.home.other =
      call.method.apply (duo.bits names call.home.other) := by
    intro taken
    rw [bits_eq, if_pos rfl, (takes taken).2, Host.other_other, Friending.bitsOf_writes]
    simp [bits]
  have still : ¬ duo.Takes names call → next.bits names call.home.other =
      duo.bits names call.home.other := by
    intro refused
    rw [bits_eq, if_pos rfl, (refuses refused).2]
    rfl
  have hosts : ∀ host, host = call.home ∨ host = call.home.other := by
    intro host
    cases host <;> cases call.home <;> simp [Host.other]
  refine ⟨calm.acquainted inv.acquainted, ?_, mirrors_both call.home ?_, ?_, ?_⟩
  · -- The calls are those that there were, one of them with an answer.
    intro each member
    have old : each ∈ duo.pending ∨ each = { call with answer := some answer } := by
      rw [pending] at member
      rw [split]
      grind
    rcases old with old | rfl
    · exact calm.correct (inv.correct each old)
    · refine ⟨(calm.lets _).mpr correct.lets, correct.request, correct.rest, ?_, ?_⟩
      · intro given same taken
        obtain rfl : answer = given := by simpa using same
        exact (takes (taken.imp_left (calm.lets _).mp)).1
      · intro given same denied names_
        obtain rfl : answer = given := by simpa using same
        have refused : ¬ duo.Takes names call := by
          rintro (lets | accepts)
          · exact denied ((calm.lets _).mpr lets)
          · exact names_ accepts
        exact (refuses refused).1
  · -- The call is the first that the other server has not seen, so both sides have it now.
    intro left right
    have lets := (calm.lets call.home.other).mp right
    have mirrors := inv.mirrors call.home correct.lets lets
    rw [near, far (Or.inl lets), pending]
    rw [split] at mirrors
    simp only [unserved_append, unserved_cons, open_, and_self, if_true, reduceCtorEq, and_false,
      if_false, Ne.symm (Host.other_ne call.home), false_and] at mirrors ⊢
    exact mirrors.finish harmless
  · -- A server that does not know the other name has no row of its user.
    intro host denied
    have old := inv.bare host fun lets => denied ((calm.lets host).mpr lets)
    rcases hosts host with rfl | rfl
    · exact absurd ((calm.lets _).mpr correct.lets) denied
    · by_cases taken : duo.Takes names call
      · -- Only an accepted request is taken here, and there is none.
        have accepts : call.method = .accept :=
          taken.resolve_left fun lets => denied ((calm.lets _).mpr lets)
        rw [far taken, old, accepts]
        rfl
      · rw [still taken, old]
  · -- The row at the caller waits for the same call to remove it.
    intro host denied some_
    rcases hosts host with rfl | rfl
    · rw [near] at some_
      obtain ⟨before, member, found⟩ :=
        inv.undone _ (fun lets => denied ((calm.lets _).mpr lets)) some_
      rw [split] at member
      rw [pending]
      by_cases here : before = call
      · subst here
        exact ⟨{ before with answer := some answer }, by simp, found⟩
      · exact ⟨before, by grind, found⟩
    · rw [Host.other_other] at denied
      exact absurd ((calm.lets _).mpr correct.lets) denied

/-- The request of a method is answered with the result of the function for it. -/
theorem serve_eq {net : Net} {front rest : List Ongoing} {call : Ongoing} {link : Address}
    {g h : Text} {status : Value} {out : Except Exn Value} {mid : Server}
    (request : call.request = call.method.request h g status)
    (ran : call.method.remote net link g h status
      (duo.servers call.home.other) = (out, mid)) :
    duo.serve net front call rest link =
      { duo.put call.home.other (mid.replied link out) with
        pending := front ++ { call with answer := some (replyOf out) } :: rest } := by
  have handled := @Friending.dispatch_request net link call.method g h status
    (duo.servers call.home.other)
  rw [← request, result, after, ran] at handled
  rw [serve, handled]
  cases out <;> simp [Server.replied]

/-- The other server handles the request of a call. -/
theorem serve_reciprocal (inv : duo.Reciprocal names) {net : Net} {front rest : List Ongoing}
    {call : Ongoing} (split : duo.pending = front ++ call :: rest) (open_ : call.answer = none)
    {link : Address} {session : Session}
    (known : (duo.servers call.home.other).session link = some session)
    (peer : session.status.isStatus .server = true)
    (harmless : Mirror.Harmless Friending.apply (unserved front call.home) call.method
      (duo.bits names call.home.other)) :
    (duo.serve net front call rest link).Reciprocal names := by
  -- The other server takes the request, or does not know whom it is for.
  have correct := inv.correct call (by simp [split])
  have own := inv.acquainted.member call.home.other
  have caller := inv.acquainted.member call.home
  have apart := inv.acquainted.differ call.home.other
  rw [Host.other_other] at apart
  obtain ⟨status, request⟩ := correct.request
  have lets_eq : duo.Lets names call.home.other ↔
      (duo.servers call.home.other).knows (names call.home) = true := by
    rw [Lets, Host.other_other]
  by_cases taken : duo.Takes names call
  · obtain ⟨sent, text, ran⟩ := @Friending.remote_spec net link _ session (names call.home.other)
      (names call.home) _ status call.method known peer own caller.ascii caller.home apart
      (taken.imp_left lets_eq.mp)
    rw [serve_eq request ran]
    exact answered_reciprocal inv split open_ harmless (by exact ⟨rfl, rfl⟩)
      (fun _ => ⟨⟨text, rfl⟩, by rfl⟩) fun refused => absurd taken refused
  · have unknown : (duo.servers call.home.other).knows (names call.home) = false := by
      rw [← Bool.not_eq_true, ← lets_eq]
      exact fun lets => taken (Or.inl lets)
    have ran := @Friending.remote_refused net link _ session (names call.home.other)
      (names call.home) status call.method known caller.ascii unknown
      fun accepts => taken (Or.inr accepts)
    rw [serve_eq request ran]
    exact answered_reciprocal inv split open_ harmless (by exact ⟨rfl, rfl⟩)
      (fun other => absurd other taken) fun _ => ⟨⟨_, rfl⟩, by rfl⟩

/-- A call is over, with the rows of its server as they were or removed again. -/
theorem over_reciprocal (inv : duo.Reciprocal names) {front rest : List Ongoing} {call : Ongoing}
    (split : duo.pending = front ++ call :: rest) (closed : call.answer ≠ none) {server : Server}
    (alike : Alike (duo.servers call.home) server)
    (rows : server.friends = (duo.servers call.home).friends ∧
        (duo.Lets names call.home.other ∨ call.method ≠ .register) ∨
      ¬ duo.Lets names call.home.other ∧
        bitsOf (names call.home) (names call.home.other) server.friends = []) :
    Reciprocal names { duo.put call.home server with pending := front ++ rest } := by
  -- What was in progress is what there was without the call.
  have correct := inv.correct call (by simp [split])
  have calm := calm_put alike (front ++ rest)
  have bits_eq := fun other => @bits_put names duo call.home other server (front ++ rest)
  generalize reached : ({ duo.put call.home server with pending := front ++ rest } : Duo) = next
    at *
  have pending : next.pending = front ++ rest := by rw [← reached]
  have far : next.bits names call.home.other = duo.bits names call.home.other := by
    rw [bits_eq, if_neg (Host.other_ne call.home)]
  have near : server.friends = (duo.servers call.home).friends →
      next.bits names call.home = duo.bits names call.home := by
    intro same
    rw [bits_eq, if_pos rfl, same]
    rfl
  have same_calls : ∀ host, unserved next.pending host = unserved duo.pending host := by
    intro host
    rw [pending, split, unserved_append, unserved_append, unserved_cons]
    simp [closed]
  have hosts : ∀ host, host = call.home ∨ host = call.home.other := by
    intro host
    cases host <;> cases call.home <;> simp [Host.other]
  refine ⟨calm.acquainted inv.acquainted, ?_, mirrors_both call.home ?_, ?_, ?_⟩
  · intro each member
    refine calm.correct (inv.correct each ?_)
    rw [pending] at member
    rw [split]
    grind
  · -- The other server took the call, so nothing is removed here.
    intro left right
    have lets := (calm.lets call.home.other).mp right
    have kept : server.friends = (duo.servers call.home).friends := by
      rcases rows with ⟨kept, _⟩ | ⟨refused, _⟩
      · exact kept
      · exact absurd lets refused
    rw [near kept, far, same_calls, same_calls]
    exact inv.mirrors call.home correct.lets lets
  · -- The other server is as it was.
    intro host denied
    rcases hosts host with rfl | rfl
    · exact absurd ((calm.lets _).mpr correct.lets) denied
    · rw [far]
      exact inv.bare _ fun lets => denied ((calm.lets _).mpr lets)
  · intro host denied some_
    rcases hosts host with rfl | rfl
    · have refused : ¬ duo.Lets names call.home.other :=
        fun lets => denied ((calm.lets _).mpr lets)
      rcases rows with ⟨kept, other⟩ | ⟨_, removed⟩
      · -- Another call has registered the friend, and will remove it.
        rw [near kept] at some_
        obtain ⟨before, member, found⟩ := inv.undone _ refused some_
        have differs : before ≠ call := by
          rintro rfl
          exact other.resolve_left refused found.2
        refine ⟨before, ?_, found⟩
        rw [pending]
        rw [split] at member
        grind
      · -- Otherwise the call removes its row itself.
        rw [bits_eq, if_pos rfl] at some_
        exact absurd removed some_
    · rw [Host.other_other] at denied
      exact absurd ((calm.lets _).mpr correct.lets) denied

/-- A call goes on with its answer, which undoes what the other server has not taken. -/
theorem finish_reciprocal (inv : duo.Reciprocal names) {front rest : List Ongoing}
    {call : Ongoing} (split : duo.pending = front ++ call :: rest) {answer : Value}
    (given : call.answer = some answer) :
    (duo.finish front call rest answer).Reciprocal names := by
  have correct := inv.correct call (by simp [split])
  have closed : call.answer ≠ none := by simp [given]
  -- A call that was taken returns, and changes nothing any more.
  by_cases taken : duo.Takes names call
  · obtain ⟨text, rfl⟩ := correct.success answer given taken
    obtain ⟨rVal, ran⟩ := call.method.rest_success (names call.home) (names call.home.other) text
      (duo.servers call.home)
    rw [← correct.rest] at ran
    rw [finish, ran]
    refine over_reciprocal inv split closed ⟨rfl, rfl⟩ (Or.inl ⟨rfl, ?_⟩)
    refine taken.imp_right fun accepts => ?_
    simp [accepts]
  · -- A call that was refused has its answer read by the method that asked.
    have refused : ¬ duo.Lets names call.home.other := fun lets => taken (Or.inl lets)
    have no_accept : call.method ≠ .accept := fun accepts => taken (Or.inr accepts)
    obtain ⟨text, rfl⟩ := correct.unknown answer given refused no_accept
    -- Only a registration has a row to remove.
    cases asked : call.method with
    | register =>
      have bound : bindTwo (.raw (names call.home)) (.raw (names call.home.other)) =
          .ok (some (names call.home), some (names call.home.other)) :=
        bindTwo_eq_ok.mpr ⟨(inv.acquainted.member call.home).ascii,
          (inv.acquainted.member call.home.other).ascii⟩
      have ran := @registerRest_unknown (duo.servers call.home) _ _ text bound
      have same := correct.rest
      rw [asked] at same
      rw [finish, same, Friending.rest, ran]
      refine over_reciprocal inv split closed ⟨rfl, rfl⟩ (Or.inr ⟨refused, ?_⟩)
      exact bitsOf_delete _ _ _
    | unregister =>
      have same := correct.rest
      rw [asked] at same
      rw [finish, same, Friending.rest, okRest_unknown]
      refine over_reciprocal inv split closed ⟨rfl, rfl⟩ (Or.inl ⟨rfl, Or.inr ?_⟩)
      simp [asked]
    | accept => exact absurd asked no_accept

/-- A list is what comes before an index, the member there and what follows. -/
theorem pending_split {calls : List Ongoing} {index : Nat} {call : Ongoing}
    (found : calls[index]? = some call) :
    calls = calls.take index ++ call :: calls.drop (index + 1) := by
  obtain ⟨within, rfl⟩ := List.getElem?_eq_some_iff.mp found
  rw [List.cons_getElem_drop_succ, List.take_append_drop]

/-- One event keeps the rows of both servers in step. -/
theorem step_reciprocal (inv : duo.Reciprocal names) {net : Net} {event : Event} {next : Duo}
    (orderly : event.Orderly names duo) (ran : duo.step net names event = some next) :
    next.Reciprocal names := by
  -- A user starts a method, servers authenticate, a request is handled or an answer read.
  cases event with
  | start host conn method =>
    cases known : (duo.servers host).session conn with
    | none => simp [step, known] at ran
    | some session =>
      obtain ⟨name, status⟩ := session
      cases name <;> simp only [step, known, reduceCtorEq] at ran
      split at ran
      · rename_i user
        obtain ⟨rfl, user⟩ := user
        obtain rfl := Option.some.inj ran
        exact start_reciprocal inv known user orderly
      · exact absurd ran (by simp)
  | link host conn =>
    simp only [step] at ran
    split at ran
    · obtain rfl := Option.some.inj ran
      have kept := @link_keeps net conn (duo.servers host) (duo.servers host.other).domain
      exact inv.calm ⟨kept.2.2, kept.2.1⟩ kept.1
    · exact absurd ran (by simp)
  -- The request must be in progress, without an answer, and the link authenticated.
  | serve index link =>
    cases found : duo.pending[index]? with
    | none => simp [step, found] at ran
    | some call =>
      cases answered : call.answer with
      | some answer => simp [step, found, answered] at ran
      | none =>
        cases known : (duo.servers call.home.other).session link with
        | none => simp [step, found, answered, known] at ran
        | some session =>
          simp only [step, found, answered, known] at ran
          split at ran
          · rename_i peer
            obtain rfl := Option.some.inj ran
            exact serve_reciprocal inv (pending_split found) answered known peer
              (orderly call found)
          · exact absurd ran (by simp)
  -- The call must have its answer.
  | finish index =>
    cases found : duo.pending[index]? with
    | none => simp [step, found] at ran
    | some call =>
      cases answered : call.answer with
      | none => simp [step, found, answered] at ran
      | some answer =>
        simp only [step, found, answered, Option.some.injEq] at ran
        subst ran
        exact finish_reciprocal inv (pending_split found) answered

/-- Every event of a run is orderly where it happens. -/
def Orderly (net : Net) (names : Host → Text) : Duo → List Event → Prop
  | _, [] => True
  | duo, event :: events => event.Orderly names duo ∧
    ∀ next, duo.step net names event = some next → next.Orderly net names events

instance decidableOrderly (net : Net) (names : Host → Text) :
    ∀ (duo : Duo) (events : List Event), Decidable (duo.Orderly net names events)
  | _, [] => isTrue trivial
  | duo, event :: events =>
    match stepped : duo.step net names event with
    | some next =>
      have := decidableOrderly net names next events
      decidable_of_iff (event.Orderly names duo ∧ next.Orderly net names events)
        (by simp [Orderly, stepped])
    | none => decidable_of_iff (event.Orderly names duo) (by simp [Orderly, stepped])

/-- A run of orderly events keeps the rows of both servers in step. -/
theorem exec_reciprocal {net : Net} {events : List Event} :
    ∀ {duo last : Duo}, duo.Reciprocal names → duo.Orderly net names events →
      duo.exec net names events = some last → last.Reciprocal names := by
  -- By induction on the events.
  induction events with
  | nil =>
    intro duo last inv _ ran
    obtain rfl := Option.some.inj ran
    exact inv
  | cons event events ih =>
    intro duo last inv orderly ran
    cases stepped : duo.step net names event with
    | none => simp [exec, stepped] at ran
    | some next =>
      have rest : next.exec net names events = some last := by
        simpa [exec, stepped] using ran
      exact ih (step_reciprocal inv orderly.1 stepped) (orderly.2 next stepped) rest

/-- Servers whose users were strangers agree on their friendship whenever no call is in progress. -/
theorem friends_reciprocal {net : Net} {start last : Duo} {events : List Event}
    (strangers : start.Strangers names) (orderly : start.Orderly net names events)
    (ran : start.exec net names events = some last) (idle : last.pending = []) :
    last.bits names .first = last.bits names .second :=
  (exec_reciprocal strangers.reciprocal orderly ran).agree idle

/-- Two towns, each with a user and a server, at which both the user and the peer come in. -/
def towns : Duo where
  servers
    | .first =>
      { domain := ['m'], users := [⟨some userA, some ['1']⟩], friends := [], sent := []
        authList := [(clientConn 1, ⟨.raw userA, Status.online.value⟩)]
        connTbl := [(.text userA, clientConn 1)] }
    | .second =>
      { domain := ['n'], users := [⟨some ['b', '@', 'n'], some ['2']⟩], friends := [], sent := []
        authList := [(clientConn 2, ⟨.raw ['b', '@', 'n'], Status.online.value⟩)]
        connTbl := [(.text ['b', '@', 'n'], clientConn 2)] }
  pending := []

/-- The users of the towns. -/
def townsmen : Host → Text
  | .first => userA
  | .second => ['b', '@', 'n']

/-- A network on which every host has the address of the clients. -/
def nearby : Net := ⟨fun _ => some ['i', 'p'], fun _ _ => .down, fun _ _ => .error .cryptoError⟩

/-- Neither server has a row of the two, and no call is in progress. -/
theorem towns_strangers : towns.Strangers townsmen where
  acquainted := ⟨fun host => by cases host <;> exact ⟨rfl, rfl, rfl⟩, by decide⟩
  idle := rfl
  bare host := by cases host <;> rfl

/-- Both users register each other at once. -/
def crossing : List Event :=
  [.start .first (clientConn 1) .register, .start .second (clientConn 2) .register,
    .link .first (clientConn 3), .link .second (clientConn 3),
    .serve 1 (clientConn 3), .serve 0 (clientConn 3), .finish 0, .finish 0]

/-- One user registers the other, who removes the first before its server is asked. -/
def removal : List Event :=
  [.start .first (clientConn 1) .register, .start .second (clientConn 2) .unregister,
    .link .first (clientConn 3), .serve 1 (clientConn 3), .finish 1,
    .link .second (clientConn 3), .serve 0 (clientConn 3), .finish 0]

/-- Two calls that cross each other leave the same bits at both servers. -/
theorem friends_reciprocal_crossing :
    ∃ last, towns.exec nearby townsmen crossing = some last ∧ last.pending = [] ∧
      last.bits townsmen .first = last.bits townsmen .second := by
  have runs : (towns.exec nearby townsmen crossing).isSome := by rfl
  have ran := (Option.some_get runs).symm
  have idle : ((towns.exec nearby townsmen crossing).get runs).pending = [] := by rfl
  have orderly : towns.Orderly nearby townsmen crossing := by decide
  exact ⟨_, ran, idle, friends_reciprocal towns_strangers orderly ran idle⟩

/-- A row is left at one server that was removed from the other before it was asked for it. -/
theorem friends_parted : ¬ ∀ (net : Net) (names : Host → Text) (start last : Duo)
    (events : List Event), start.Strangers names → start.exec net names events = some last →
      last.pending = [] → last.bits names .first = last.bits names .second := by
  -- The run is computed, and ends with rows that differ.
  intro claim
  have runs : (towns.exec nearby townsmen removal).isSome := by rfl
  have ran := (Option.some_get runs).symm
  have idle : ((towns.exec nearby townsmen removal).get runs).pending = [] := by rfl
  have agree := claim nearby townsmen towns _ removal towns_strangers ran idle
  have left_ : ((towns.exec nearby townsmen removal).get runs).bits townsmen .second =
      [notAccepted] := by rfl
  have removed : ((towns.exec nearby townsmen removal).get runs).bits townsmen .first = [] := by
    rfl
  rw [left_, removed] at agree
  exact absurd agree (by simp)

end Duo

end Motmot.Plume
