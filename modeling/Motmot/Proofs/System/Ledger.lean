import Motmot.Proofs.Paxos.Books
import Motmot.Proofs.Paxos.Supply
import Motmot.Proofs.System.Conduct

/-! All copies of a request are the same in a run without rebuilt requests. -/

namespace Motmot.System

/-- One step of a run, with the choices that it was taken with. -/
structure Moment where
  before : System
  choice : Choice
  step : Step
  after : System

namespace Moment

/-- A process enters the session under an identifier. -/
def Begins (moment : Moment) (paxid : Nat) : Prop :=
  ∃ id node, (moment.before.process id).node = none ∧
    (moment.after.process id).node = some node ∧ node.pax.selfId = paxid

/-- A request is made: the client starts the session with it, or calls for it in an event. -/
inductive Makes (moment : Moment) (req : Request) : Prop where
  | start {id session} (step : moment.step = .start id session)
      (same : req = { val := startValue, data := id }) : Makes moment req
  | call {id event node call} (what : moment.before.occasion moment.step = some (id, event))
      (live : (moment.before.process id).node = some node)
      (called : Calls { node with script := moment.choice.script } event call)
      (same : req = requestOf node.pax.selfId req.val.reqid.gen call)
      (fresh : node.pax.reqId < req.val.reqid.gen)
      (counted : ∀ last, (moment.after.process id).crashed = false →
        (moment.after.process id).node = some last → req.val.reqid.gen ≤ last.pax.reqId) :
      Makes moment req

/-- A refused request is sent on whose data are gone. -/
def Rebuilds (moment : Moment) : Prop :=
  ∃ id event node val, moment.before.occasion moment.step = some (id, event) ∧
    (moment.before.process id).node = some node ∧ Motmot.Rebuilds node.pax event val

/-- What is learned for a number is the request that everybody else has learned for it. -/
def Concurs (moment : Moment) : Prop :=
  ∀ id other inum val old, .learn inum val ∉ (moment.before.process id).history →
    .learn inum val ∈ (moment.after.process id).history →
      .learn inum old ∈ (moment.after.process other).history → val.reqid = old.reqid

end Moment

/-- The runs of the system, with all their steps. -/
inductive Chronicle : List Moment → System → Prop where
  | init : Chronicle [] init
  | step {past sys next choice step} (run : Chronicle past sys)
      (stepped : sys.step choice step = some next) :
      Chronicle (past ++ [⟨sys, choice, step, next⟩]) next

/-- No two sessions of a run have the same identifier. -/
def Unique (past : List Moment) : Prop :=
  past.Pairwise fun early late => ∀ paxid, early.Begins paxid → ¬ late.Begins paxid

/-- The client of a process was handed data as the chat of a value, learned for a number. -/
def Hands (sys : System) (id : NodeId) (inum : Nat) (val : Value) (data : Bytes) : Prop :=
  ∃ front desc back,
    (sys.process id).history = front ++ .learn inum val :: .chat data desc :: back

/--
All copies of a request are the same in all caches, and are those that its author has made.

What the clients are handed of a chat are the data of the request that was learned, and they are the
same for a number wherever it is learned.
-/
def Agrees (past : List Moment) (sys : System) : Prop :=
  (∃ book : List Request, (∀ req ∈ book, ∃ moment ∈ past, moment.Makes req) ∧
    (∀ x ∈ book, ∀ y ∈ book, x.val.reqid = y.val.reqid → x = y) ∧
    (∀ id node, (sys.process id).crashed = false → (sys.process id).node = some node →
      ∀ req ∈ node.pax.rcache, req ∈ book) ∧
    ∀ id inum val data, sys.Hands id inum val data →
      ∃ req ∈ book, req.val.reqid = val.reqid ∧ req.data = data) ∧
    ∀ id other inum x y data more, sys.Hands id inum x data → sys.Hands other inum y more →
      data = more

variable {past : List Moment} {sys next : System} {book : List Request}

/-- A chronicle is a run. -/
theorem Chronicle.conducts (run : Chronicle past sys) :
    Conducts (fun _ _ => True) System.init sys := by
  induction run with
  | init => exact .refl
  | step _ stepped ih => exact .step ih trivial stepped

/-- Every reachable state has a chronicle. -/
theorem Reachable.chronicle (reachable : Reachable sys) : ∃ past, Chronicle past sys := by
  induction reachable with
  | init => exact ⟨[], .init⟩
  | step choice step _ stepped ih =>
    obtain ⟨past, run⟩ := ih
    exact ⟨_, .step run stepped⟩

/-- The requests that were made so far, and where they are known. -/
structure Ledger (past : List Moment) (sys : System) (book : List Request) : Prop where
  made : ∀ req ∈ book, ∃ moment ∈ past, moment.Makes req
  born : ∀ req ∈ book, ∃ moment ∈ past, moment.Begins req.val.reqid.id
  single : ∀ x ∈ book, ∀ y ∈ book, x.val.reqid = y.val.reqid → x = y
  entered : ∀ id node, (sys.process id).crashed = false → (sys.process id).node = some node →
    ∃ moment ∈ past, moment.Begins node.pax.selfId
  apart : ∀ id other node peer, (sys.process id).crashed = false →
    (sys.process id).node = some node → (sys.process other).crashed = false →
    (sys.process other).node = some peer → node.pax.selfId = peer.pax.selfId → id = other
  cached : ∀ id node, (sys.process id).crashed = false → (sys.process id).node = some node →
    ∀ req ∈ node.pax.rcache, req ∈ book
  /-- A session has counted the requests that go by its identifier. -/
  counted : ∀ id node, (sys.process id).crashed = false → (sys.process id).node = some node →
    ∀ req ∈ book, req.val.reqid.id = node.pax.selfId → req.val.reqid.gen ≤ node.pax.reqId
  quoted : ∀ id, Quotes book (sys.process id).history
  waiting : ∀ channel second msg, sys.Waits channel second msg → msg.Booked book

/-- Before anything has happened no request is made. -/
theorem Ledger.init : Ledger [] System.init [] where
  -- Nobody is live, no channel exists, and the book is empty.
  made := by simp
  born := by simp
  single := by simp
  entered := by
    intro id node up live
    contradiction
  apart := by
    intro id other node peer up live
    contradiction
  cached := by
    intro id node up live
    contradiction
  counted := by
    intro id node up live
    contradiction
  quoted := fun id => .nil
  waiting := by
    rintro channel second msg ⟨chan, at_, -⟩
    contradiction

/-- What the clients are handed is booked. -/
theorem Ledger.hands (ledger : Ledger past sys book) {id : NodeId} {inum : Nat} {val : Value}
    {data : Bytes} (hands : sys.Hands id inum val data) :
    ∃ req ∈ book, req.val.reqid = val.reqid ∧ req.data = data := by
  obtain ⟨front, desc, back, whole⟩ := hands
  have quotes := ledger.quoted id
  rw [whole] at quotes
  exact quotes.heard

/-- If every learn concurs with those before it, one request is learned for each number. -/
theorem Chronicle.concurs (run : Chronicle past sys) (agreed : ∀ moment ∈ past, moment.Concurs)
    {id other : NodeId} {inum : Nat} {x y : Value}
    (first : .learn inum x ∈ (sys.process id).history)
    (second : .learn inum y ∈ (sys.process other).history) : x.reqid = y.reqid := by
  -- By induction on the run, whose last step has learned one of the two, or neither.
  induction run generalizing id other inum x y with
  | init => contradiction
  | @step past sys next choice step run stepped ih =>
    have now : Moment.Concurs ⟨sys, choice, step, next⟩ := agreed _ (by simp)
    -- Either of the two is learned in this step, or both were learned before it.
    by_cases old : .learn inum x ∈ (sys.process id).history
    · by_cases older : .learn inum y ∈ (sys.process other).history
      · exact ih (fun moment mem => agreed moment (by simp [mem])) old older
      · exact (now other id inum y x older second first).symm
    · exact now id other inum x y old first second

/-- What a ledger says is all that it takes for the copies to agree. -/
theorem Ledger.agrees (ledger : Ledger past sys book)
    (agreed : ∀ id other inum x y, .learn inum x ∈ (sys.process id).history →
      .learn inum y ∈ (sys.process other).history → x.reqid = y.reqid) : Agrees past sys := by
  refine ⟨⟨book, ledger.made, ledger.single, ledger.cached, fun _ _ _ _ => ledger.hands⟩, ?_⟩
  -- Both requests are in the book.
  intro id other inum x y data more first second
  obtain ⟨req, mem, same, rfl⟩ := ledger.hands first
  obtain ⟨again, booked, alike, rfl⟩ := ledger.hands second
  have heard : ∀ {id val data}, sys.Hands id inum val data →
      .learn inum val ∈ (sys.process id).history := by
    rintro id val data ⟨front, desc, back, whole⟩
    rw [whole]
    exact List.mem_append_right _ List.mem_cons_self
  -- One request was learned for the number, and the book has one entry for it.
  have one := agreed id other inum x y (heard first) (heard second)
  rw [ledger.single req mem again booked (same.trans (one.trans alike.symm))]

/-- Nothing is booked anew while no session does anything. -/
theorem Ledger.idle (ledger : Ledger past sys book) (moment : Moment)
    (nodes : ∀ id, (next.process id).node = (sys.process id).node)
    (history : ∀ id, (next.process id).past = (sys.process id).past)
    (lives : ∀ id, (next.process id).crashed = false → (sys.process id).crashed = false)
    (grows : Grows sys next []) : Ledger (past ++ [moment]) next book where
  -- Nothing is made, and nobody enters.
  made := fun req mem => by
    obtain ⟨early, old, makes⟩ := ledger.made req mem
    exact ⟨early, List.mem_append_left _ old, makes⟩
  born := fun req mem => by
    obtain ⟨early, old, begins⟩ := ledger.born req mem
    exact ⟨early, List.mem_append_left _ old, begins⟩
  single := ledger.single
  entered := fun id node up live => by
    obtain ⟨early, old, begins⟩ := ledger.entered id node (lives id up) ((nodes id).symm.trans live)
    exact ⟨early, List.mem_append_left _ old, begins⟩
  apart := fun id other node peer up live up' live' =>
    ledger.apart id other node peer (lives id up) ((nodes id).symm.trans live) (lives other up')
      ((nodes other).symm.trans live')
  cached := fun id node up live =>
    ledger.cached id node (lives id up) ((nodes id).symm.trans live)
  counted := fun id node up live =>
    ledger.counted id node (lives id up) ((nodes id).symm.trans live)
  quoted := fun id => by
    rw [Process.history, nodes, history]
    exact ledger.quoted id
  waiting := fun channel second msg waits => by
    rcases grows.waits waits with before | sent
    · exact ledger.waiting channel second msg before
    · contradiction

/-- What one process accounts for in a step that books more requests, all of its own. -/
structure Entry (past : List Moment) (sys next : System) (book : List Request) (moment : Moment)
    (id : NodeId) (node : Node) (more : List Request) (sent : List Effect) : Prop where
  /-- Where the process is still up and in the session, it has this state. -/
  stays : ∀ held, (next.process id).crashed = false → (next.process id).node = some held →
    held = node
  others : ∀ other, other ≠ id → next.process other = sys.process other
  grows : Grows sys next sent
  begun : ∃ early ∈ past ++ [moment], early.Begins node.pax.selfId
  alone : ∀ other peer, other ≠ id → (sys.process other).crashed = false →
    (sys.process other).node = some peer → peer.pax.selfId ≠ node.pax.selfId
  makes : ∀ req ∈ more, moment.Makes req ∧ req.val.reqid.id = node.pax.selfId ∧
    req.val.reqid.gen ≤ node.pax.reqId
  new : ∀ x ∈ book, ∀ y ∈ more, x.val.reqid ≠ y.val.reqid
  single : ∀ x ∈ more, ∀ y ∈ more, x.val.reqid = y.val.reqid → x = y
  cached : ∀ req ∈ node.pax.rcache, req ∈ book ++ more
  counted : ∀ req ∈ book, req.val.reqid.id = node.pax.selfId → req.val.reqid.gen ≤ node.pax.reqId
  quoted : Quotes (book ++ more) (next.process id).history
  told : ∀ peer msg, .send peer msg ∈ sent → msg.Booked (book ++ more)

/-- No two sessions that are up go by one identifier after the step. -/
theorem Entry.apart {moment : Moment} {id : NodeId} {node : Node} {more : List Request}
    {sent : List Effect} (entry : Entry past sys next book moment id node more sent)
    (ledger : Ledger past sys book) {left right : NodeId} {here there : Node}
    (up : (next.process left).crashed = false) (live : (next.process left).node = some here)
    (up' : (next.process right).crashed = false) (live' : (next.process right).node = some there)
    (same : here.pax.selfId = there.pax.selfId) : left = right := by
  -- Either of the two can be the process that has done something, or neither.
  by_cases first : left = id
  · by_cases second : right = id
    · rw [first, second]
    · subst first
      obtain rfl := entry.stays here up live
      rw [entry.others right second] at up' live'
      exact absurd same.symm (entry.alone right there second up' live')
  · rw [entry.others left first] at up live
    by_cases second : right = id
    · subst second
      obtain rfl := entry.stays there up' live'
      exact absurd same (entry.alone left here first up live)
    · rw [entry.others right second] at up' live'
      exact ledger.apart left right here there up live up' live' same

/-- A ledger takes the entry of a process. -/
theorem Ledger.extend (ledger : Ledger past sys book) {moment : Moment} {id : NodeId} {node : Node}
    {more : List Request} {sent : List Effect}
    (entry : Entry past sys next book moment id node more sent) :
    Ledger (past ++ [moment]) next (book ++ more) := by
  -- Field by field, what is new comes from the entry and the rest from the ledger.
  constructor
  case made =>
    intro req mem
    rcases List.mem_append.mp mem with mem | mem
    · obtain ⟨early, old, before⟩ := ledger.made req mem
      exact ⟨early, List.mem_append_left _ old, before⟩
    · exact ⟨moment, by simp, (entry.makes req mem).1⟩
  case born =>
    intro req mem
    rcases List.mem_append.mp mem with mem | mem
    · obtain ⟨early, old, before⟩ := ledger.born req mem
      exact ⟨early, List.mem_append_left _ old, before⟩
    · rw [(entry.makes req mem).2.1]
      exact entry.begun
  case single =>
    -- Two requests are both old, both new, or one of each.
    intro x memX y memY same
    rcases List.mem_append.mp memX with oldX | newX
    · rcases List.mem_append.mp memY with oldY | newY
      · exact ledger.single x oldX y oldY same
      · exact absurd same (entry.new x oldX y newY)
    · rcases List.mem_append.mp memY with oldY | newY
      · exact absurd same.symm (entry.new y oldY x newX)
      · exact entry.single x newX y newY same
  case entered =>
    intro other peer up here
    by_cases same : other = id
    · subst same
      obtain rfl := entry.stays peer up here
      exact entry.begun
    · rw [entry.others other same] at up here
      obtain ⟨early, old, before⟩ := ledger.entered other peer up here
      exact ⟨early, List.mem_append_left _ old, before⟩
  case apart => exact fun _ _ _ _ up live up' live' => entry.apart ledger up live up' live'
  case cached =>
    intro other peer up here req mem
    by_cases same : other = id
    · subst same
      obtain rfl := entry.stays peer up here
      exact entry.cached req mem
    · rw [entry.others other same] at up here
      exact List.mem_append_left _ (ledger.cached other peer up here req mem)
  case counted =>
    intro other peer up here req mem ours
    by_cases same : other = id
    · subst same
      obtain rfl := entry.stays peer up here
      rcases List.mem_append.mp mem with old | new
      · exact entry.counted req old ours
      · exact (entry.makes req new).2.2
    · rw [entry.others other same] at up here
      rcases List.mem_append.mp mem with old | new
      · exact ledger.counted other peer up here req old ours
      · -- A request that was just made is none of a session with another identifier.
        have clash := (entry.makes req new).2.1
        rw [ours] at clash
        exact absurd clash (entry.alone other peer same up here)
  case quoted =>
    intro other
    by_cases same : other = id
    · rw [same]
      exact entry.quoted
    · rw [entry.others other same]
      exact (ledger.quoted other).mono fun req mem => List.mem_append_left _ mem
  -- What is in flight was so before, or was sent with this entry.
  case waiting =>
    intro channel second msg waits
    rcases entry.grows.waits waits with before | sent
    · exact fun req carries =>
        List.mem_append_left _ (ledger.waiting channel second msg before req carries)
    · exact entry.told _ msg sent

/-- A session that is entered under a new identifier books what it starts with. -/
theorem Ledger.enter (ledger : Ledger past sys book) {moment : Moment} {id : NodeId} {node : Node}
    {more : List Request} {sent : List Effect} (gone : (sys.process id).node = none)
    (made : next.process id = { sys.process id with node := some node })
    (others : ∀ other, other ≠ id → next.process other = sys.process other)
    (grows : Grows sys next sent) (silent : ∀ peer msg, .send peer msg ∉ sent)
    (begins : moment.Begins node.pax.selfId)
    (new : ∀ early ∈ past, ¬ early.Begins node.pax.selfId) (few : more.length ≤ 1)
    (makes : ∀ req ∈ more, moment.Makes req ∧ req.val.reqid.id = node.pax.selfId ∧
      req.val.reqid.gen ≤ node.pax.reqId)
    (cached : ∀ req ∈ node.pax.rcache, req ∈ more)
    (quotes : ∀ effect ∈ node.out, ∀ data desc, effect ≠ .chat data desc) :
    Ledger (past ++ [moment]) next (book ++ more) := by
  -- The process is where it began, and what it books is its own.
  have live : (next.process id).node = some node := by rw [made]
  -- Nothing in the book goes by the new identifier.
  have foreign : ∀ req ∈ book, req.val.reqid.id ≠ node.pax.selfId := by
    intro req mem same
    obtain ⟨early, old, before⟩ := ledger.born req mem
    rw [same] at before
    exact new early old before
  apply ledger.extend
  constructor
  case stays => exact fun held _ here => (Option.some.inj (live.symm.trans here)).symm
  case others => exact others
  case grows => exact grows
  case begun => exact ⟨moment, by simp, begins⟩
  case alone =>
    intro other peer _ up here same
    obtain ⟨early, old, before⟩ := ledger.entered other peer up here
    rw [same] at before
    exact new early old before
  case makes => exact makes
  case new =>
    intro x memX y memY same
    have ours := (makes y memY).2.1
    rw [← same] at ours
    exact foreign x memX ours
  case single =>
    intro x memX y memY _
    match more, few with
    | [], _ => contradiction
    | [only], _ => rw [List.mem_singleton.mp memX, List.mem_singleton.mp memY]
  case cached => exact fun req mem => List.mem_append_right _ (cached req mem)
  case counted => exact fun req mem ours => absurd ours (foreign req mem)
  -- A process that enters has no live session, so its history is past.
  case quoted =>
    rw [made, Process.history]
    have before := ledger.quoted id
    rw [Process.history, gone] at before
    simp only [Option.map_none, Option.getD_none, List.append_nil] at before
    exact (before.mono fun req mem => List.mem_append_left _ mem).append (.silent quotes)
  case told => exact fun peer msg sent => absurd sent (silent peer msg)

/-- What a handler that keeps the books has made is an entry. -/
theorem Ledger.entry (ledger : Ledger past sys book) {choice : Choice} {step : Step}
    {id : NodeId} {event : Event} {node last : Node} {result : Result} {more : List Request}
    (what : sys.occasion step = some (id, event)) (up : (sys.process id).crashed = false)
    (live : (sys.process id).node = some node)
    (made : next.process id = after (sys.process id) result)
    (others : ∀ other, other ≠ id → next.process other = sys.process other)
    (grows : Grows sys next (fresh node result))
    (history : (after (sys.process id) result).history =
      (sys.process id).history ++ fresh node result)
    (keeps : Keeps book { node with script := choice.script } event last more)
    (lasts : ∀ following, result = .ok following → last = following)
    (reports : Reports (book ++ more) (fresh node result)) :
    Entry past sys next book ⟨sys, choice, step, next⟩ id last more (fresh node result) := by
  -- A process that is still up and in the session has the last state of the handler.
  have stays : ∀ held, (next.process id).crashed = false → (next.process id).node = some held →
      held = last := by
    intro held upright here
    rcases Live.handled made others ⟨upright, here⟩ with ⟨apart, -⟩ | ⟨-, same⟩
    · exact absurd rfl apart
    · exact (lasts held same).symm
  have self : last.pax.selfId = node.pax.selfId := keeps.self
  -- The requests are numbered behind those that the session has counted.
  have numbered : ∀ req ∈ more, node.pax.reqId < req.val.reqid.gen ∧
      req.val.reqid.gen ≤ last.pax.reqId ∧ req.val.reqid.id = node.pax.selfId := by
    intro req mem
    obtain ⟨after, before⟩ := keeps.issued.counted req mem
    obtain ⟨call, -, same⟩ := keeps.issued.asked req mem
    refine ⟨after, before, ?_⟩
    rw [same]
    rfl
  have counted := ledger.counted id node up live
  -- The entry is what the handler has kept the books of.
  constructor
  case stays => exact stays
  case others => exact others
  case grows => exact grows
  case begun =>
    obtain ⟨early, old, begins⟩ := ledger.entered id node up live
    rw [self]
    exact ⟨early, List.mem_append_left _ old, begins⟩
  case alone =>
    intro other peer apart upright here same
    rw [self] at same
    exact apart (ledger.apart other id peer node upright here up live same)
  case makes =>
    intro req mem
    obtain ⟨call, called, same⟩ := keeps.issued.asked req mem
    obtain ⟨above, below, ours⟩ := numbered req mem
    refine ⟨.call what live called same above fun held upright here => ?_, ours.trans self.symm,
      below⟩
    rw [stays held upright here]
    exact below
  case new =>
    -- What is made now is numbered above everything that the session has made before.
    intro x memX y memY same
    have older := counted x memX (same ▸ (numbered y memY).2.2)
    have newer := (numbered y memY).1
    rw [same] at older
    omega
  case single =>
    have ascending : (more.map fun req => req.val.reqid.gen).Pairwise (· < ·) :=
      List.pairwise_map.mpr keeps.issued.ascending
    have distinct := ascending.imp fun less => Nat.ne_of_lt less
    exact fun x memX y memY same =>
      List.inj_on_of_nodup_map distinct memX memY (congrArg PPair.gen same)
  case cached => exact keeps.cached
  case counted =>
    exact fun req mem ours => Nat.le_trans (counted req mem (ours.trans self)) keeps.counted
  case quoted =>
    rw [made, history]
    exact ((ledger.quoted id).mono fun req mem => List.mem_append_left _ mem).append reports.quotes
  case told => exact fun peer msg sent => reports.sends peer msg sent

/-- A session that handles an event books the requests that it makes. -/
theorem Ledger.handle (ledger : Ledger past sys book) {choice : Choice} {step : Step}
    {id : NodeId} {event : Event} {node : Node} (stepped : sys.step choice step = some next)
    (what : sys.occasion step = some (id, event)) (up : (sys.process id).crashed = false)
    (live : (sys.process id).node = some node) (arrives : Arrives sys next id event)
    (wf : node.pax.ilist.WellFormed) (kept : ¬ Moment.Rebuilds ⟨sys, choice, step, next⟩) :
    ∃ more, Ledger (past ++ [⟨sys, choice, step, next⟩]) next (book ++ more) := by
  obtain ⟨mid, handover, reacted⟩ := step_reacts stepped what up live
  have processes := handover.process
  obtain ⟨-, made, others, -, carried⟩ := react_made reacted (processes ▸ live)
  rw [processes] at made others
  -- What has arrived is booked, and nothing is rebuilt.
  have honest : Honest book node.pax event := by
    constructor
    · rintro req ⟨source, hdr, rfl⟩
      obtain ⟨channel, second, -, -, waits⟩ := arrives
      exact ledger.waiting channel second _ waits req rfl
    · intro val rebuilds
      exact kept ⟨id, event, node, val, what, live, rebuilds⟩
  obtain ⟨more, last, keeps, lasts, reports⟩ :=
    @handle_keeps { node with script := choice.script } event book choice.fuel wf honest
      (ledger.cached id node up live)
  have handles : Handles node event
      (Motmot.handle choice.fuel { node with script := choice.script } event) :=
    ⟨choice.fuel, choice.script, rfl⟩
  exact ⟨more, ledger.extend (ledger.entry what up live made others (handover.grows.trans carried)
    (history_after live handles wf) keeps lasts reports)⟩

/-- A step that rebuilds nothing, and lets nobody in under an old identifier, keeps the ledger. -/
theorem Ledger.step (ledger : Ledger past sys book) (run : Chronicle past sys) {choice : Choice}
    {step : Step} (stepped : sys.step choice step = some next)
    (unique : ∀ early ∈ past, ∀ paxid, early.Begins paxid →
      ¬ Moment.Begins ⟨sys, choice, step, next⟩ paxid)
    (kept : ¬ Moment.Rebuilds ⟨sys, choice, step, next⟩) :
    ∃ more, Ledger (past ++ [⟨sys, choice, step, next⟩]) next more := by
  -- Logs stay in order whatever happens.
  have sound := run.conducts.sound
  have turn := step_turn stepped
  generalize what : sys.occasion step = occasion at turn
  cases turn with
  | idle nodes past lives started grows => exact ⟨book, ledger.idle _ nodes past lives grows⟩
  -- The founder books its own start.
  | @start id session gone once made others started grows =>
    obtain ⟨id, session, rfl, gone, made, others⟩ := step_begins stepped what once started
    have begins : Moment.Begins ⟨sys, choice, .start id session, next⟩ 1 :=
      ⟨id, paxosStart session id, gone, by rw [made], rfl⟩
    refine ⟨_, @Ledger.enter past sys next book ledger _ id (paxosStart session id)
      [{ val := startValue, data := id }] [] gone made others grows (by simp) begins
      (fun early old before => unique early old 1 before begins) (by simp) ?_ ?_ ?_⟩
    · intro req mem
      obtain rfl := List.mem_singleton.mp mem
      exact ⟨.start rfl rfl, rfl, Nat.le_refl _⟩
    · intro req mem
      exact mem
    · intro effect mem
      contradiction
  -- A newcomer books nothing.
  | @greet id source hdr session ibase alist ilist opcode gone arrives made others started grows =>
    have begins : Moment.Begins ⟨sys, choice, step, next⟩
        (acceptorAckWelcome source hdr session ibase alist ilist).pax.selfId :=
      ⟨id, acceptorAckWelcome source hdr session ibase alist ilist, gone, by rw [made], rfl⟩
    have empty : (acceptorAckWelcome source hdr session ibase alist ilist).pax.rcache = [] :=
      welcomeAcceptors_rcache
    have quiet := @acceptorAckWelcome_out source hdr session ibase alist ilist
    refine ⟨_, @Ledger.enter past sys next book ledger _ id _ [] _ gone made others grows ?_ begins
      (fun early old before => unique early old _ before begins) (by simp) (by simp) ?_ ?_⟩
    · intro peer msg sent
      rcases quiet _ sent with told | ⟨_, _, told⟩ <;> cases told
    · rw [empty]
      simp
    · intro effect mem data desc told
      rw [told] at mem
      rcases quiet _ mem with told | ⟨_, _, told⟩ <;> cases told
  -- A handler books what its client has called for.
  | @handle id event node result up live arrives handles made others started grows =>
    obtain ⟨more, booked⟩ :=
      ledger.handle stepped what up live arrives (sound.live id node up live) kept
    exact ⟨_, booked⟩

/--
In a run without rebuilt requests whose sessions are told apart, all have the same data.

The clients are handed the same data for each number as long as the same requests are learned.
-/
theorem data_agree {past : List Moment} {sys : System} (run : Chronicle past sys)
    (unique : Unique past) (kept : ∀ moment ∈ past, ¬ moment.Rebuilds)
    (agreed : ∀ moment ∈ past, moment.Concurs) : Agrees past sys := by
  -- A ledger is kept along the run.
  have booked : ∃ book, Ledger past sys book := by
    clear agreed
    induction run with
    | init => exact ⟨[], .init⟩
    | step run stepped ih =>
      obtain ⟨earlier, -, apart⟩ := List.pairwise_append.mp unique
      obtain ⟨book, ledger⟩ := ih earlier fun moment mem => kept moment (by simp [mem])
      exact ledger.step run stepped (fun early mem => apart early mem _ (by simp))
        (kept _ (by simp))
  obtain ⟨book, ledger⟩ := booked
  exact ledger.agrees fun _ _ _ _ _ => run.concurs agreed

/-- The moments of a list of steps, up to the first that cannot be taken. -/
def moments (choice : Choice) : System → List Step → List Moment
  | _, [] => []
  | sys, step :: rest =>
    match sys.step choice step with
    | some next => ⟨sys, choice, step, next⟩ :: moments choice next rest
    | none => []

/-- The identifier that a process enters the session under, if one does. -/
def Moment.entrant (moment : Moment) : Option Nat := do
  let id ← match moment.step with
    | .start id _ => some id
    | step => (moment.before.occasion step).map Prod.fst
  match (moment.before.process id).node, (moment.after.process id).node with
  | none, some node => some node.pax.selfId
  | _, _ => none

/-- Steps that can be taken make a chronicle. -/
theorem Chronicle.exec {choice : Choice} {steps : List Step} {last : System}
    (run : Chronicle past sys) (done : sys.exec choice steps = some last) :
    Chronicle (past ++ moments choice sys steps) last := by
  -- By induction on the steps.
  induction steps generalizing past sys with
  | nil =>
    obtain rfl := Option.some.inj done
    rw [moments, List.append_nil]
    exact run
  | cons step steps ih =>
    obtain ⟨mid, stepped, rest⟩ := Option.bind_eq_some_iff.mp done
    have more := ih (run.step stepped) rest
    rw [List.append_assoc] at more
    rw [moments, stepped]
    exact more

/-- Nobody but the process that does something enters the session. -/
theorem Moment.entrant_eq {choice : Choice} {step : Step}
    (stepped : sys.step choice step = some next) {paxid : Nat}
    (begins : Moment.Begins ⟨sys, choice, step, next⟩ paxid) :
    Moment.entrant ⟨sys, choice, step, next⟩ = some paxid := by
  -- A step lets at most one process enter.
  obtain ⟨id, node, absent, present, same⟩ := begins
  have gone : (sys.process id).node = none := absent
  have live : (next.process id).node = some node := present
  clear absent present
  have turn := step_turn stepped
  generalize what : sys.occasion step = occasion at turn
  cases turn with
  | idle nodes =>
    rw [nodes id, gone] at live
    contradiction
  | start _ once _ _ started =>
    obtain ⟨actor, session, rfl, -, -, others⟩ := step_begins stepped what once started
    have here : id = actor := by
      by_contra apart
      rw [others id apart, gone] at live
      contradiction
    subst here
    simp [entrant, gone, live, same]
  | @greet actor _ _ _ _ _ _ _ _ _ _ others =>
    have here : id = actor := by
      by_contra apart
      rw [others id apart, gone] at live
      contradiction
    subst here
    cases step with
    | start => contradiction
    | _ => simp [entrant, what, gone, live, same]
  -- Whoever handles an event was in a session before.
  | @handle actor _ _ _ _ held _ _ _ others =>
    have apart : id ≠ actor := by
      rintro rfl
      rw [gone] at held
      contradiction
    rw [others id apart, gone] at live
    contradiction

/-- Every moment of a list of steps is one. -/
theorem moments_stepped {choice : Choice} {steps : List Step} {moment : Moment}
    (mem : moment ∈ moments choice sys steps) :
    moment.before.step moment.choice moment.step = some moment.after ∧ moment.step ∈ steps := by
  -- By induction on the steps.
  induction steps generalizing sys with
  | nil => contradiction
  | cons step steps ih =>
    unfold moments at mem
    split at mem
    · rename_i next stepped
      rcases List.mem_cons.mp mem with rfl | mem
      · exact ⟨stepped, List.mem_cons_self⟩
      · obtain ⟨able, listed⟩ := ih mem
        exact ⟨able, List.mem_cons_of_mem _ listed⟩
    · contradiction

/-- Sessions are told apart if the identifiers are that are entered under. -/
theorem unique_moments {choice : Choice} {steps : List Step}
    (distinct : ((moments choice sys steps).filterMap Moment.entrant).Nodup) :
    Unique (moments choice sys steps) := by
  have apart := List.pairwise_filterMap.mp distinct
  refine apart.imp_of_mem fun {early late} memEarly memLate differs paxid first second => ?_
  have entered := Moment.entrant_eq (moments_stepped memEarly).1 first
  have again := Moment.entrant_eq (moments_stepped memLate).1 second
  exact differs paxid entered paxid again rfl

/-- Nothing is rebuilt by a process that waits with no refused request. -/
theorem Moment.not_rebuilds {moment : Moment}
    (facts : ((moment.before.occasion moment.step).all fun happens =>
      (moment.before.process happens.1).node.all fun node =>
        node.pax.clist.all fun k => !(k.purpose matches .ackRefuse _)) = true) :
    ¬ moment.Rebuilds := by
  rintro ⟨id, event, node, val, what, held, ⟨_, _, _, ⟨handle, k, -, found, refused, -⟩, -⟩, -⟩
  rw [what, Option.all_some, held, Option.all_some] at facts
  have kept := List.all_eq_true.mp facts k (List.mem_of_find?_eq_some found)
  rw [refused] at kept
  contradiction

/-- Whoever takes no part in a run was in no session after any of its steps. -/
theorem Chronicle.within {names : List NodeId} (run : Chronicle past sys)
    (inside : ∀ moment ∈ past, (moment.step.actor moment.before).all (· ∈ names) = true) :
    Within names sys ∧ ∀ moment ∈ past, Within names moment.after := by
  -- By induction on the run, whose steps act for the named.
  induction run with
  | init => exact ⟨fun _ _ => ⟨rfl, rfl⟩, fun moment mem => absurd mem List.not_mem_nil⟩
  | @step past sys next choice step run stepped ih =>
    obtain ⟨before, earlier⟩ := ih fun moment mem => inside moment (by simp [mem])
    have now : Within names next :=
      before.step stepped (inside ⟨sys, choice, step, next⟩ (by simp))
    refine ⟨now, fun moment mem => ?_⟩
    rcases List.mem_append.mp mem with old | new
    · exact earlier moment old
    · obtain rfl := List.mem_singleton.mp new
      exact now

/-- Two learns of one number are of one request. -/
def Effect.concurs : Effect → Effect → Bool
  | .learn inum x, .learn other y => inum ≠ other || x.reqid = y.reqid
  | _, _ => true

/-- Learns concur if those do that the processes of a run have made. -/
theorem Chronicle.concurring {names : List NodeId} (run : Chronicle past sys)
    (inside : ∀ moment ∈ past, (moment.step.actor moment.before).all (· ∈ names) = true)
    (agreed : ∀ moment ∈ past, ∀ id ∈ names, ∀ other ∈ names,
      ∀ x ∈ (moment.after.process id).history, ∀ y ∈ (moment.after.process other).history,
        Effect.concurs x y = true) : ∀ moment ∈ past, moment.Concurs := by
  intro moment mem id other inum val old _ first second
  -- Only the named processes have learned anything, and those are compared.
  have known : ∀ {id val}, .learn inum val ∈ (moment.after.process id).history → id ∈ names := by
    intro id val heard
    by_contra stranger
    rw [((run.within inside).2 moment mem).history stranger] at heard
    contradiction
  have same := agreed moment mem id (known first) other (known second) _ first _ second
  simpa [Effect.concurs] using same

/-- Both clients of a session are handed what the first one has said. -/
theorem data_agree_chatting : ∃ sys, System.init.exec quiet chatting = some sys ∧
    .chat [9] [1] ∈ (sys.process [1]).history ∧ .chat [9] [1] ∈ (sys.process [2]).history ∧
      Agrees (moments quiet System.init chatting) sys := by
  -- The run is computed once, and what it meets is checked of its moments.
  have able : (System.init.exec quiet chatting).any (fun sys =>
      decide (.chat [9] [1] ∈ (sys.process [1]).history ∧
        .chat [9] [1] ∈ (sys.process [2]).history)) = true := by decide +kernel
  obtain ⟨sys, ran, handed⟩ := (Option.any_eq_true _ _).mp able
  obtain ⟨first, second⟩ := of_decide_eq_true handed
  have run : Chronicle (moments quiet System.init chatting) sys := Chronicle.exec .init ran
  have unique : Unique (moments quiet System.init chatting) :=
    unique_moments (by decide +kernel)
  have inside : ∀ moment ∈ moments quiet System.init chatting,
      (moment.step.actor moment.before).all (· ∈ [[1], [2]]) = true := by decide +kernel
  have calm : ∀ moment ∈ moments quiet System.init chatting,
      ((moment.before.occasion moment.step).all fun happens =>
        (moment.before.process happens.1).node.all fun node =>
          node.pax.clist.all fun k => !(k.purpose matches .ackRefuse _)) = true := by
    decide +kernel
  exact ⟨sys, ran, first, second, data_agree run unique
    (fun moment mem => Moment.not_rebuilds (calm moment mem))
    (run.concurring inside (by decide +kernel))⟩

/-- The steps that a rule picks, until it picks none. -/
def picks (pick : System → Option Step) : Nat → System → List Step
  | 0, _ => []
  | fuel + 1, sys =>
    match pick sys with
    | some step => step :: ((sys.step quiet step).map fun sys => picks pick fuel sys).getD []
    | none => []

/-- The steps of a schedule. -/
def unroll : System → List Cue → List Step
  | _, [] => []
  | sys, cue :: cues =>
    let steps := match cue with
      | .steps steps => steps
      | .drain => picks delivery 100 sys
      | .settle => picks progress 100 sys
    steps ++ ((sys.exec quiet steps).map fun sys => unroll sys cues).getD []

/-- The fifth node sends a chat to the first once more, after it has freed its data. -/
def belated : List Cue :=
  assemble [[1], [2], [3], [4], [5]] ++ [.steps [
    -- The fifth node loses the first two and is refused by the third, and then by the second.
    .cut 6, .eof 6 true, .cut 7, .eof 7 false, .cut 1, .eof 1 true,
    .client [5] ⟨.chat, [1]⟩, .client [5] ⟨.chat, [2]⟩,
    .deliver 8 true, .deliver 8 true, .deliver 8 false, .deliver 8 false,
    .eof 7 true, .complete 0 true, .deliver 10 true, .deliver 10 true, .deliver 10 false,
    .client [5] ⟨.chat, [9]⟩, .client [5] ⟨.chat, [8]⟩, .deliver 10 true, .deliver 10 false,
    -- The third node prepares without the first two, and decrees the chats that reach it.
    .cut 10, .eof 10 false, .cut 3, .eof 3 true, .cut 4, .eof 4 false,
    .client [4] ⟨.chat, [6]⟩, .deliver 5 true, .deliver 5 false, .cut 2, .eof 2 false,
    .deliver 8 true, .deliver 8 true, .deliver 5 false, .deliver 8 false, .deliver 5 true,
    .deliver 8 true, .client [4] ⟨.chat, [5]⟩, .deliver 5 true,
    .deliver 8 false, .deliver 8 false, .deliver 8 false, .deliver 8 false, .deliver 8 false,
    -- The first node parts the last two, reaches them again, and decrees null instead.
    .eof 3 false, .eof 6 false, .deliver 0 true, .deliver 0 true, .deliver 0 false,
    .deliver 0 false, .deliver 9 true, .deliver 9 true, .deliver 9 true, .deliver 9 true,
    .complete 4 true, .deliver 11 true, .deliver 11 true, .deliver 0 true, .deliver 0 false,
    .deliver 11 false, .complete 4 true, .deliver 0 true, .deliver 0 true, .deliver 11 true,
    .deliver 11 true, .deliver 0 false, .deliver 11 false, .deliver 0 true, .deliver 11 true,
    -- The second node loses the first one and prepares, with what the third has decreed.
    .eof 4 true, .eof 10 true, .eof 2 true, .complete 3 true, .deliver 13 true,
    .complete 0 true, .deliver 14 true, .cut 0, .eof 0 true, .cut 11, .eof 11 true,
    .deliver 13 false, .deliver 14 false, .deliver 14 true, .deliver 13 true, .deliver 14 true,
    .cut 5, .eof 5 false, .cut 8, .eof 8 false, .deliver 13 false, .deliver 14 false,
    .deliver 13 true, .deliver 14 true, .deliver 13 false, .deliver 13 false, .deliver 13 false,
    .deliver 13 false, .deliver 13 false, .deliver 14 false, .deliver 14 false,
    .deliver 13 false, .deliver 14 false, .deliver 14 false, .deliver 14 false, .deliver 14 false,
    .deliver 14 true, .deliver 14 true, .deliver 14 true, .deliver 14 true, .deliver 14 true,
    .deliver 13 true, .deliver 13 true, .deliver 13 true, .deliver 13 true, .deliver 13 true,
    -- Its decrees are committed, and the fifth node learns what it has missed.
    .deliver 14 true, .deliver 14 false, .deliver 14 false, .deliver 14 true,
    .deliver 13 false, .deliver 13 false, .deliver 13 false, .deliver 13 true,
    .deliver 13 false, .deliver 13 false, .deliver 13 false, .deliver 14 true, .deliver 14 false,
    .deliver 14 false, .deliver 14 false, .deliver 14 false, .deliver 14 false,
    .client [2] ⟨.chat, [3]⟩, .deliver 14 false, .deliver 14 false, .deliver 14 false,
    .deliver 14 true, .deliver 14 true, .deliver 14 true, .deliver 14 true,
    .deliver 13 false, .deliver 13 false, .deliver 13 false, .deliver 13 false, .deliver 13 true,
    .deliver 14 false, .deliver 14 false, .deliver 14 false, .deliver 14 false, .deliver 14 true,
    .deliver 14 false, .deliver 13 false, .deliver 13 false, .deliver 13 false, .deliver 13 false,
    .deliver 13 false,
    -- A sync frees the data at the fifth node, which then reaches the first one at last.
    .tick [2], .deliver 14 false, .deliver 13 false, .deliver 14 true, .deliver 13 true,
    .deliver 14 false, .complete 1 true, .deliver 15 true, .deliver 15 true]]

/-- The first node has another chat of the fifth in its cache than the fourth has. -/
def Parted (sys : System) : Prop :=
  ∃ node ∈ (sys.process [1]).node, ∃ other ∈ (sys.process [4]).node,
    (sys.process [1]).crashed = false ∧ (sys.process [4]).crashed = false ∧
      ⟨⟨.chat, ⟨5, 3⟩, 0⟩, []⟩ ∈ node.pax.rcache ∧ ⟨⟨.chat, ⟨5, 3⟩, 0⟩, [9]⟩ ∈ other.pax.rcache

instance (sys : System) : Decidable sys.Parted := inferInstanceAs (Decidable (∃ _, _))

/-- A refused request that is sent on after its data were freed has none. -/
theorem data_lost : ¬ ∀ past sys, Chronicle past sys → Unique past → Agrees past sys := by
  intro claim
  -- The run ends with a request at two processes whose data differ.
  have ends : (System.init.exec quiet (unroll System.init belated)).any
      (fun sys => decide sys.Parted) = true := by decide +kernel
  have unique : Unique (moments quiet System.init (unroll System.init belated)) :=
    unique_moments (by decide +kernel)
  obtain ⟨sys, ran, parted⟩ := (Option.any_eq_true _ _).mp ends
  obtain ⟨node, live, other, live', up, up', lost, held⟩ := of_decide_eq_true parted
  obtain ⟨⟨book, -, single, cached, -⟩, -⟩ := claim _ sys (Chronicle.exec .init ran) unique
  have same := single _ (cached [1] node up live _ lost) _ (cached [4] other up' live' _ held) rfl
  cases same

end Motmot.System
