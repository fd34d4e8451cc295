import Motmot.Proofs.Paxos.Prefix

/-! A commit learns what is ready, and asks for what it is missing. -/

namespace Motmot

/-- A commit has to ask for what fills the hole: it does not, and nobody else will bring that. -/
def Wants (pax : Session) (cell : Cell) : Prop :=
  cell.inum ≠ pax.ihole ∧ isProposer pax = false ∧ ¬ HoleCommitted pax

/-- The message that asks for the instance at the hole. -/
def retryMsg (pax : Session) : Msg := { hdr := headerInit pax .retry pax.ihole, body := .empty }

/-- The message that asks for the request of an instance. -/
def retrieveMsg (pax : Session) (inst : Instance) : Msg :=
  { hdr := headerInit pax .retrieve inst.hdr.inum, body := .retrieve pax.selfId inst.val }

/-- The channels to the originator of a request, or to everyone when there is none. -/
def holders (pax : Session) (val : Value) : List PeerId :=
  match (acceptorFind pax.alist val.reqid.id).bind Acceptor.peer with
  | some peer => [peer]
  | none => pax.alist.filterMap Acceptor.peer

/-- A commit whose request is missing marks the instance and asks for the request. -/
def Retrieves (node : Node) (cell : Cell) (next : Node) : Prop :=
  next = { node.modify cell.addr markCommitted with
    out := node.out ++ (holders node.pax cell.inst.val).map
      (Effect.send · (retrieveMsg node.pax cell.inst)) }

/-- A commit learns what is ready from the hole on, in order, and nothing else. -/
structure Advances (node : Node) (cell : Cell) (next : Node) : Prop where
  past : node.pax.ihole ≤ next.pax.ihole
  ready : ∀ inum, node.pax.ihole ≤ inum → inum < next.pax.ihole →
    ∃ other ∈ (finishCommit node cell.addr).pax.ilist.cells, other.inum = inum ∧
      other.inst.committed = true ∧ other.inst.cached = true
  /-- The new hole is the first number that is not ready. -/
  first : ∀ other ∈ (finishCommit node cell.addr).pax.ilist.cells, other.inum = next.pax.ihole →
    ¬ (other.inst.committed = true ∧ other.inst.cached = true)
  learns : next.learns = node.learns ++
    List.range' node.pax.ihole (next.pax.ihole - node.pax.ihole)
  marks : next.pax.ilist.cells = (finishCommit node cell.addr).pax.ilist.cells.map fun other =>
    if node.pax.ihole ≤ other.inum ∧ other.inum < next.pax.ihole
      then { other with inst := markLearned other.inst } else other
  poised : Poised next.pax
  asks : Wants node.pax cell → ∃ acc peer, proposerAcc node.pax = some acc ∧
    acc.peer = some peer ∧ next.retries = node.retries ++ [.send peer (retryMsg node.pax)]
  spares : ¬ Wants node.pax cell → next.retries = node.retries

/-- A commit does what is claimed of it, given enough fuel. -/
def CommitsReady (node : Node) (cell : Cell) : Prop :=
  ∃ enough, ∀ fuel, enough ≤ fuel → ∃ next, paxosCommit fuel node cell = .ok next ∧
    (Missing node.pax.rcache cell.inst.val → Retrieves node cell next) ∧
    (¬ Missing node.pax.rcache cell.inst.val → Advances node cell next)

/-- A retrieve goes to the originator, or to everyone with a channel. -/
theorem paxosRetrieve_eq (node : Node) (inst : Instance) : paxosRetrieve node inst =
    .ok { node with out := node.out ++
      (holders node.pax inst.val).map (Effect.send · (retrieveMsg node.pax inst)) } := by
  -- A broadcast skips those without a channel, as the list of those asked does.
  have all : ∀ (accs : List Acceptor) (msg : Msg),
      (accs.filterMap fun acc => acc.peer.map (Effect.send · msg)) =
        (accs.filterMap Acceptor.peer).map (Effect.send · msg) := by
    intro accs msg
    rw [List.map_filterMap]
  unfold paxosRetrieve holders
  -- The originator is asked if it is listed with a channel, else everyone is.
  cases found : acceptorFind node.pax.alist inst.val.reqid.id with
  | none => simp [paxosBroadcast, broadcastTo, all, retrieveMsg]
  | some acc =>
    cases chan : acc.peer with
    | none => simp [paxosBroadcast, broadcastTo, all, retrieveMsg, chan]
    | some peer => simp [paxosSend, chan, Node.emit, retrieveMsg]

/-- What is ready in a row at the hole once an instance is marked. -/
def readied (node : Node) (addr : Addr) : List Cell :=
  readyRun node.pax.ihole
    ((finishCommit node addr).pax.ilist.cells.filter fun cell => node.pax.ihole ≤ cell.inum)

/--
What a commit rests on besides the log.

At the hole everything that is ready must be admissible, and past it there must be a way to ask.
-/
def Supports (node : Node) (cell : Cell) : Prop :=
  if cell.inum = node.pax.ihole then Admits node ((readied node cell.addr).map Cell.inst)
  else Wants node.pax cell →
    ∃ acc peer, proposerAcc node.pax = some acc ∧ acc.peer = some peer

/-- An element with the marks of a commit whose request is at hand. -/
def Cell.filled (cell : Cell) : Cell :=
  { cell with inst := markCached (markCommitted cell.inst) }

@[simp] theorem Cell.filled_inum (cell : Cell) : cell.filled.inum = cell.inum := rfl

section Commit

variable {node : Node} {cell : Cell}

/-- The commit mark and the cache mark are made on the element itself. -/
theorem marked_cells {front rest : List Cell} (poised : Poised node.pax)
    (split : node.pax.ilist.cells = front ++ cell :: rest) :
    (finishCommit node cell.addr).pax.ilist.cells = front ++ cell.filled :: rest := by
  -- Both marks go to one place on the list, because no address occurs twice.
  have once := (Ilist.place split poised.distinct markCommitted).2.2.2
  have addrs : ((node.pax.ilist.modify cell.addr markCommitted).cells.map Cell.addr).Nodup := by
    have distinct := poised.distinct
    rw [split] at distinct
    rw [once]
    simpa using distinct
  exact (@Ilist.place _ front rest { cell with inst := markCommitted cell.inst } once addrs
    markCached).2.2.2

/-- The marks leave the other elements alone. -/
theorem marked_mem {front rest : List Cell} {other : Cell} (poised : Poised node.pax)
    (split : node.pax.ilist.cells = front ++ cell :: rest) (mem : other ∈ node.pax.ilist.cells)
    (apart : other ≠ cell) : other ∈ (finishCommit node cell.addr).pax.ilist.cells := by
  -- An element apart from the marked one is in front of it or behind it.
  rw [split] at mem
  rw [marked_cells poised split]
  rcases List.mem_append.mp mem with mem | mem
  · exact List.mem_append_left _ mem
  · rcases List.mem_cons.mp mem with rfl | mem
    · exact absurd rfl apart
    · exact List.mem_append_right _ (List.mem_cons_of_mem _ mem)

/-- What is not learned is not in front of the hole. -/
theorem Poised.above {pax : Session} (poised : Poised pax) (mem : cell ∈ pax.ilist.cells)
    (fresh : cell.inst.learned = false) : pax.ihole ≤ cell.inum := by
  by_contra below
  have learned := (poised.settled cell mem (by omega)).2
  rw [fresh] at learned
  contradiction

/-- The marks leave the list as it has to be. -/
theorem marked_lined {front rest : List Cell} (poised : Poised node.pax)
    (split : node.pax.ilist.cells = front ++ cell :: rest) (fresh : cell.inst.learned = false)
    (served : ¬ Missing node.pax.rcache cell.inst.val) :
    Lined (finishCommit node cell.addr).pax.ilist.cells node.pax.ihole node.pax.rcache := by
  have lined := poised.lined
  rw [split] at lined
  rw [marked_cells poised split]
  -- What holds of the elements from before and of the one with the marks holds of them all.
  have mem : ∀ {P : Cell → Prop}, (∀ other ∈ front ++ cell :: rest, P other) →
      P cell.filled → ∀ other ∈ front ++ cell.filled :: rest, P other := by
    intro P all here other mem
    rcases List.mem_append.mp mem with mem | mem
    · exact all other (List.mem_append_left _ mem)
    · rcases List.mem_cons.mp mem with rfl | mem
      · exact here
      · exact all other (List.mem_append_right _ (List.mem_cons_of_mem _ mem))
  have there : cell ∈ front ++ cell :: rest := by simp
  have above := poised.above (split ▸ there) fresh
  constructor
  case low => exact lined.low
  case room => exact mem lined.room (lined.room cell there)
  case ascending =>
    have order := List.pairwise_map.mpr lined.ascending
    apply List.pairwise_map.mp
    simpa [Cell.inum, Cell.filled, markCached, markCommitted] using order
  case distinct => simpa [Cell.filled] using lined.distinct
  case settled =>
    refine mem lined.settled fun below => ?_
    have : cell.inum < node.pax.ihole := below
    omega
  case fresh => exact mem lined.fresh fun _ => fresh
  case known =>
    refine mem lined.known fun _ _ needs => ?_
    by_contra missing
    apply served
    exact ⟨needs, by simpa [Cell.filled, markCached, markCommitted] using missing⟩

/-- A commit past the hole leaves everything but its own marks. -/
theorem Advances.ahead {front rest : List Cell} {next : Node} (poised : Poised node.pax)
    (split : node.pax.ilist.cells = front ++ cell :: rest) (fresh : cell.inst.learned = false)
    (served : ¬ Missing node.pax.rcache cell.inst.val) (apart : cell.inum ≠ node.pax.ihole)
    (pax : next.pax = (finishCommit node cell.addr).pax) (learns : next.learns = node.learns)
    (asks : Wants node.pax cell → ∃ acc peer, proposerAcc node.pax = some acc ∧
      acc.peer = some peer ∧ next.retries = node.retries ++ [.send peer (retryMsg node.pax)])
    (spares : ¬ Wants node.pax cell → next.retries = node.retries) :
    Advances node cell next := by
  -- The marks move no hole, so nothing is learned and only the element itself is in question.
  have lined := marked_lined poised split fresh served
  have hole : next.pax.ihole = node.pax.ihole := by
    rw [pax]
    rfl
  have cells := marked_cells poised split
  have marks : next.pax.ilist.cells = (finishCommit node cell.addr).pax.ilist.cells.map
      (learnBetween node.pax.ihole next.pax.ihole) := by
    rw [hole, map_learnBetween, pax]
  -- The element with the marks is not at the hole, and nothing else has become ready.
  have first : ∀ other ∈ (finishCommit node cell.addr).pax.ilist.cells,
      other.inum = next.pax.ihole →
      ¬ (other.inst.committed = true ∧ other.inst.cached = true) := by
    intro other mem number
    rw [cells] at mem
    rw [hole] at number
    apply poised.waits other _ number
    rw [split]
    rcases List.mem_append.mp mem with mem | mem
    · exact List.mem_append_left _ mem
    · rcases List.mem_cons.mp mem with rfl | mem
      · exact absurd number apart
      · exact List.mem_append_right _ (List.mem_cons_of_mem _ mem)
  constructor
  case past => rw [hole]
  case ready => intro inum low high; omega
  case first => exact first
  case learns => simp [learns, hole]
  case marks => exact marks
  case poised =>
    have keys : (finishCommit node cell.addr).pax.ilist.cells.map
          (fun cell => (cell.inum, cell.addr)) =
        node.pax.ilist.cells.map fun cell => (cell.inum, cell.addr) := by
      rw [cells, split]
      simp [Cell.inum, Cell.filled, markCached, markCommitted]
    -- The cursor is in front of the hole, and the element with the marks is past it.
    obtain ⟨start, mem, -, within, -⟩ := poised.cursor
    have low : start ∈ (finishCommit node cell.addr).pax.ilist.cells := by
      apply marked_mem poised split mem
      rintro rfl
      have := poised.above mem fresh
      omega
    have requests : next.pax.rcache = node.pax.rcache := by
      rw [pax]
      rfl
    have cursor : next.pax.istart =
        cursorAt (finishCommit node cell.addr).pax.ilist.cells next.pax.ihole := by
      rw [hole, pax, cursorAt_congr keys]
      exact poised.cursorAt
    exact Lined.poised (requests ▸ lined) (by omega) (fun inum low high => by omega) first marks
      cursor ⟨start, low, within⟩
  case asks => exact asks
  case spares => exact spares

/-- How a commit whose request is at hand ends. -/
def CommitEnds (node : Node) (cell : Cell) (result : Result) : Prop :=
  (∃ halted, result = .stop .ended halted) ∨
  (Supports node cell ∧ ∃ next, result = .ok next ∧ Advances node cell next) ∨
  (¬ Supports node cell ∧ ∀ next, result = .ok next → ¬ Advances node cell next)

/-- A retry reaches the proposer if there is one with a channel. -/
theorem acceptorRetry_ends (node : Node) :
    (∃ acc peer, proposerAcc node.pax = some acc ∧ acc.peer = some peer ∧
      acceptorRetry node node.pax.ihole = .ok (node.emit (.send peer (retryMsg node.pax)))) ∨
    ((¬ ∃ acc peer, proposerAcc node.pax = some acc ∧ acc.peer = some peer) ∧
      (acceptorRetry node node.pax.ihole = .ok node ∨
        acceptorRetry node node.pax.ihole = node.undefined)) := by
  unfold acceptorRetry paxosSendToProposer
  cases proposer : node.pax.proposer with
  | none =>
    -- Nobody is asked, and nobody could be.
    have nobody : proposerAcc node.pax = none := by simp [proposerAcc, proposer]
    exact Or.inr ⟨by simp [nobody], Or.inl rfl⟩
  | some paxid =>
    cases found : proposerAcc node.pax with
    | none => exact Or.inr ⟨by simp, Or.inr rfl⟩
    | some acc =>
      cases chan : acc.peer with
      | none => exact Or.inr ⟨by simp [chan], Or.inr (by simp [paxosSend, chan])⟩
      | some peer => exact Or.inl ⟨acc, peer, rfl, chan, by simp [paxosSend, chan, retryMsg]⟩

/-- A commit past the hole asks for what is missing if there is a way to. -/
theorem commitAhead_ends {front rest : List Cell} (poised : Poised node.pax)
    (split : node.pax.ilist.cells = front ++ cell :: rest) (fresh : cell.inst.learned = false)
    (served : ¬ Missing node.pax.rcache cell.inst.val) (apart : cell.inum ≠ node.pax.ihole) :
    CommitEnds node cell (commitAhead (finishCommit node cell.addr)) := by
  -- The hole waits for something below this instance; whether it is asked for depends on the
  -- cursor.
  have lined := marked_lined poised split fresh served
  have there : cell ∈ node.pax.ilist.cells := by simp [split]
  have above := poised.above there fresh
  have quiet : ¬ Wants node.pax cell → Supports node cell ∧
      Advances node cell (finishCommit node cell.addr) := by
    intro content
    refine ⟨?_, .ahead poised split fresh served apart rfl rfl (fun wants => absurd wants content)
      fun _ => rfl⟩
    rw [Supports, if_neg apart]
    exact fun wants => absurd wants content
  unfold commitAhead
  split
  · -- The proposer does not ask itself.
    rename_i proposer
    right; left
    have content : ¬ Wants node.pax cell := fun wants => by
      have follows : isProposer (finishCommit node cell.addr).pax = false := wants.2.1
      rw [follows] at proposer
      contradiction
    exact ⟨(quiet content).1, _, rfl, (quiet content).2⟩
  · -- A follower looks at its cursor, the last element that is not past the hole.
    rename_i follows
    have follows : isProposer node.pax = false := by
      have same : isProposer (finishCommit node cell.addr).pax = isProposer node.pax := rfl
      simpa [same] using follows
    obtain ⟨start, mem, rests, within, greatest⟩ := poised.cursor
    have low : start ∈ (finishCommit node cell.addr).pax.ilist.cells := by
      apply marked_mem poised split mem
      rintro rfl
      omega
    obtain ⟨upper, lower, whole⟩ := List.append_of_mem low
    have held : (finishCommit node cell.addr).inst? start.addr = some start.inst :=
      (Ilist.place whole lined.distinct markLearned).1
    have aimed : (finishCommit node cell.addr).pax.istart.bind (finishCommit node cell.addr).inst? =
        some start.inst := by
      have same : (finishCommit node cell.addr).pax.istart = some start.addr := rests
      rw [same]
      exact held
    rw [aimed]
    simp only
    -- Nothing else can fill the hole.
    have committed : HoleCommitted node.pax ↔
        start.inum = node.pax.ihole ∧ start.inst.committed = true := by
      constructor
      · rintro ⟨other, memOther, committed, number⟩
        have := greatest other memOther (by omega)
        obtain rfl := poised.lined.inum_inj memOther mem (by omega)
        exact ⟨number, committed⟩
      · rintro ⟨number, committed⟩
        exact ⟨start, mem, committed, number⟩
    by_cases filled : start.inum = node.pax.ihole ∧ start.inst.committed = true
    · -- The hole only waits for a resend.
      have content : ¬ Wants node.pax cell := fun wants => wants.2.2 (committed.mpr filled)
      have uncached : start.inst.cached = false := by
        by_contra cached
        exact poised.waits start mem filled.1 ⟨filled.2, by simpa using cached⟩
      right; left
      refine ⟨(quiet content).1, _, ?_, (quiet content).2⟩
      have number : start.inst.hdr.inum = (finishCommit node cell.addr).pax.ihole := filled.1
      simp [number, filled.2, uncached]
    · have wants : Wants node.pax cell := ⟨apart, follows, fun holds => filled (committed.mp holds)⟩
      have number : ¬ (decide (start.inst.hdr.inum = (finishCommit node cell.addr).pax.ihole) &&
          start.inst.committed) = true := by
        intro both
        simp only [Bool.and_eq_true, decide_eq_true_eq] at both
        exact filled both
      rw [if_neg number]
      have supports : Supports node cell ↔
          ∃ acc peer, proposerAcc node.pax = some acc ∧ acc.peer = some peer := by
        rw [Supports, if_neg apart]
        exact ⟨fun ask => ask wants, fun there _ => there⟩
      -- The marks change nobody's channel, so the retry is that of the node before them.
      rcases acceptorRetry_ends (finishCommit node cell.addr) with
        ⟨acc, peer, found, chan, asked⟩ | ⟨nobody, still⟩
      · right; left
        refine ⟨supports.mpr ⟨acc, peer, found, chan⟩, _, asked, ?_⟩
        refine .ahead poised split fresh served apart rfl ?_ (fun _ => ⟨acc, peer, found, chan, ?_⟩)
          fun content => absurd wants content
        · simp [Node.learns, Node.emit, finishCommit, Node.modify, Node.setIlist, Effect.learned]
        · simp [Node.retries, Node.emit, finishCommit, Node.modify, Node.setIlist, Effect.isRetry,
            retryMsg, headerInit]
      · right; right
        have unsupported : ¬ Supports node cell := fun there => nobody (supports.mp there)
        refine ⟨unsupported, fun next _ advances => ?_⟩
        obtain ⟨acc, peer, found, chan, -⟩ := advances.asks wants
        exact unsupported (supports.mpr ⟨acc, peer, found, chan⟩)

/-- The elements on the two sides of one that is at the hole lie on the two sides of the hole. -/
theorem Poised.sides {front rest : List Cell} {pax : Session} (poised : Poised pax)
    (split : pax.ilist.cells = front ++ cell :: rest) (number : cell.inum = pax.ihole) :
    (∀ other ∈ front, other.inum < pax.ihole) ∧ ∀ other ∈ rest, pax.ihole < other.inum := by
  -- The list ascends, and the element at the hole is where it is split.
  have order := poised.ascending
  rw [split] at order
  obtain ⟨-, behind, before⟩ := List.pairwise_append.mp order
  rw [← number]
  exact ⟨fun other mem => before other mem cell List.mem_cons_self,
    (List.pairwise_cons.mp behind).1⟩

/-- Once the element at the hole has its marks, the learning loop stands in front of it. -/
theorem marked_stands {front rest : List Cell} (poised : Poised node.pax)
    (split : node.pax.ilist.cells = front ++ cell :: rest) (fresh : cell.inst.learned = false)
    (served : ¬ Missing node.pax.rcache cell.inst.val) (silent : node.script = [])
    (number : cell.inum = node.pax.ihole) :
    Looping ((finishCommit node cell.addr).setIstart (some cell.addr)) front
      (cell.filled :: rest) := by
  -- The elements in front lie below the hole, and those behind the marked one above it.
  have lined := marked_lined poised split fresh served
  have cells := marked_cells poised split
  obtain ⟨past, later⟩ := poised.sides split number
  have ahead : ∀ other ∈ cell.filled :: rest, node.pax.ihole ≤ other.inum := by
    intro other mem
    rcases List.mem_cons.mp mem with rfl | mem
    · exact Nat.le_of_eq number.symm
    · exact Nat.le_of_lt (later other mem)
  have among : ∀ other ∈ cell.filled :: rest,
      other ∈ (finishCommit node cell.addr).pax.ilist.cells := fun other mem => by
    rw [cells]
    exact List.mem_append_right _ mem
  exact
    { silent
      split := cells
      distinct := lined.distinct
      ascending := lined.ascending
      past
      ahead
      fresh := fun other mem => lined.fresh other (among other mem) (ahead other mem)
      known := fun other mem cached => lined.known other (among other mem) cached
        (lined.fresh other (among other mem) (ahead other mem)) }

/-- A commit that fills the hole enters the learning loop at its own element. -/
theorem commitHole_enters (commit : Commit) {front rest : List Cell} (fuel : Nat)
    (poised : Poised node.pax) (split : node.pax.ilist.cells = front ++ cell :: rest)
    (fresh : cell.inst.learned = false) (served : ¬ Missing node.pax.rcache cell.inst.val)
    (number : cell.inum = node.pax.ihole) :
    commitHole commit fuel (finishCommit node cell.addr) =
      learnLoop commit fuel ((finishCommit node cell.addr).setIstart (some cell.addr))
        ((cell.filled :: rest).head?.map Cell.addr) := by
  have there : cell ∈ node.pax.ilist.cells := by simp [split]
  -- The cursor is the last element that is not past the hole, which is the element itself.
  have rests : (finishCommit node cell.addr).pax.istart = some cell.addr := by
    obtain ⟨start, mem, rests, within, greatest⟩ := poised.cursor
    have := greatest cell there (by omega)
    obtain rfl := poised.lined.inum_inj mem there (by omega)
    exact rests
  have held : (finishCommit node cell.addr).inst? cell.addr = some cell.filled.inst :=
    (Ilist.place (marked_cells poised split) (marked_lined poised split fresh served).distinct
      markLearned).1
  have here : cell.filled.inst.hdr.inum = (finishCommit node cell.addr).pax.ihole := number
  have still : cell.filled.inst.hdr.inum =
      ((finishCommit node cell.addr).setIstart (some cell.addr)).pax.ihole := number
  unfold commitHole
  simp only [rests, held, here, ne_eq, not_true, if_false]
  rw [if_neg (not_not_intro (here ▸ still))]
  rfl

/-- What the learning loop has in front of it at the hole is what can be ready. -/
theorem readied_eq {front rest : List Cell} (poised : Poised node.pax)
    (split : node.pax.ilist.cells = front ++ cell :: rest) (number : cell.inum = node.pax.ihole) :
    readied node cell.addr = readyRun node.pax.ihole (cell.filled :: rest) := by
  -- What is in front lies below the hole and is filtered out; nothing else is.
  obtain ⟨past, later⟩ := poised.sides split number
  have none_ : front.filter (fun other => decide (node.pax.ihole ≤ other.inum)) = [] :=
    List.filter_eq_nil_iff.mpr fun other mem => by simpa using past other mem
  have all : (cell.filled :: rest).filter (fun other => decide (node.pax.ihole ≤ other.inum)) =
      cell.filled :: rest := by
    refine List.filter_eq_self.mpr fun other mem => ?_
    rcases List.mem_cons.mp mem with rfl | mem
    · exact decide_eq_true (Nat.le_of_eq number.symm)
    · exact decide_eq_true (Nat.le_of_lt (later other mem))
  rw [readied, marked_cells poised split, List.filter_append, none_, all, List.nil_append]

/-- A run of the learning loop from the hole on advances the session. -/
theorem Advances.hole {front rest : List Cell} {next : Node} (poised : Poised node.pax)
    (split : node.pax.ilist.cells = front ++ cell :: rest) (fresh : cell.inst.learned = false)
    (served : ¬ Missing node.pax.rcache cell.inst.val) (number : cell.inum = node.pax.ihole)
    (stands : Looping ((finishCommit node cell.addr).setIstart (some cell.addr)) front
      (cell.filled :: rest))
    (learns : LearnsRun ((finishCommit node cell.addr).setIstart (some cell.addr))
      (cell.filled :: rest) next) : Advances node cell next := by
  -- The loop has learned the ready run, and the hole stands at the first number it misses.
  have lined := marked_lined poised split fresh served
  have cells := marked_cells poised split
  have among : ∀ other ∈ cell.filled :: rest,
      other ∈ (finishCommit node cell.addr).pax.ilist.cells := fun other mem => by
    rw [cells]
    exact List.mem_append_right _ mem
  have order := stands.ascending
  rw [stands.split] at order
  obtain ⟨below, stops⟩ := readyRun_spec stands.ahead (List.pairwise_append.mp order).2.1
  have total : next.pax.ihole =
      node.pax.ihole + (readyRun node.pax.ihole (cell.filled :: rest)).length := learns.ihole
  have count : next.pax.ihole - node.pax.ihole =
      (readyRun node.pax.ihole (cell.filled :: rest)).length := by omega
  have ready : ∀ inum, node.pax.ihole ≤ inum → inum < next.pax.ihole →
      ∃ other ∈ (finishCommit node cell.addr).pax.ilist.cells, other.inum = inum ∧
        other.inst.committed = true ∧ other.inst.cached = true := by
    intro inum low high
    obtain ⟨other, mem, same⟩ := below inum low (Nat.lt_of_lt_of_eq high total)
    exact ⟨other, among other mem, same⟩
  have first : ∀ other ∈ (finishCommit node cell.addr).pax.ilist.cells,
      other.inum = next.pax.ihole →
      ¬ (other.inst.committed = true ∧ other.inst.cached = true) := by
    intro other mem here
    rw [cells] at mem
    rcases List.mem_append.mp mem with mem | mem
    · -- What is in front of the old hole is not at the new one.
      have before : other.inum < node.pax.ihole := stands.past other mem
      omega
    · exact stops other mem (here.trans total)
  have content : ¬ Wants node.pax cell := fun wants => wants.1 number
  constructor
  case past => omega
  case ready => exact ready
  case first => exact first
  case learns =>
    rw [count, learns.learns]
    rfl
  case marks => exact learns.cells
  case poised =>
    have requests : next.pax.rcache = node.pax.rcache := learns.rcache
    refine Lined.poised (requests ▸ lined) (by omega) ready first learns.cells learns.istart ?_
    exact ⟨cell.filled, among cell.filled List.mem_cons_self, Nat.le_of_eq number⟩
  case asks => exact fun wants => absurd wants content
  case spares => exact fun _ => learns.retries

/-- A commit that fills the hole learns what is ready from there on. -/
theorem commitHole_ends (commit : Commit) {front rest : List Cell} {fuel : Nat}
    (poised : Poised node.pax) (split : node.pax.ilist.cells = front ++ cell :: rest)
    (fresh : cell.inst.learned = false) (served : ¬ Missing node.pax.rcache cell.inst.val)
    (silent : node.script = []) (number : cell.inum = node.pax.ihole)
    (enough : rest.length + 1 < fuel) :
    CommitEnds node cell (commitHole commit fuel (finishCommit node cell.addr)) := by
  -- The loop stands at the hole, and its run decides how the commit ends.
  have stands := marked_stands poised split fresh served silent number
  have run := @learnLoop_run commit (cell.filled :: rest) _ front fuel stands (by simpa using enough)
  -- Learning rests on who takes part, which the marks do not touch.
  have supports : Supports node cell ↔
      Admits ((finishCommit node cell.addr).setIstart (some cell.addr))
        ((readyRun node.pax.ihole (cell.filled :: rest)).map Cell.inst) := by
    have alike : Alike node.pax ((finishCommit node cell.addr).setIstart (some cell.addr)).pax :=
      ⟨rfl, rfl, rfl, rfl, rfl, Or.inr rfl⟩
    rw [Supports, if_pos number, readied_eq poised split number]
    exact admits_alike alike _
  unfold CommitEnds
  rw [commitHole_enters commit fuel poised split fresh served number, supports]
  -- Whoever lacks a part to learn stops the loop, and nothing else does.
  rcases run with ended | ⟨admits, next, runs, learns⟩ | ⟨stuck, reason, halted, ends⟩
  · exact Or.inl ended
  · exact Or.inr (Or.inl ⟨admits, next, runs,
      .hole poised split fresh served number stands learns⟩)
  · right; right
    refine ⟨stuck, ?_⟩
    rw [ends]
    simp

/-- A commit whose request is at hand marks the instance and goes on at or past the hole. -/
theorem commitWith_ends (commit : Commit) {fuel : Nat} (poised : Poised node.pax)
    (mem : cell ∈ node.pax.ilist.cells) (fresh : cell.inst.learned = false)
    (served : ¬ Missing node.pax.rcache cell.inst.val) (silent : node.script = [])
    (enough : node.pax.ilist.cells.length < fuel) :
    CommitEnds node cell (commitWith commit fuel node cell) := by
  -- The request is at hand, so the marks are set and the number decides the way on.
  obtain ⟨front, rest, split⟩ := List.append_of_mem mem
  have above := poised.above mem fresh
  have found : (requestNeedsCached cell.inst.val.dkind &&
      (requestFind (node.modify cell.addr markCommitted).pax.rcache
        cell.inst.val.reqid).isNone) = false := by
    by_contra missing
    simp only [Bool.not_eq_false, Bool.and_eq_true, Option.isNone_iff_eq_none] at missing
    exact served missing
  have low : ¬ cell.inst.hdr.inum < (finishCommit node cell.addr).pax.ihole := Nat.not_lt.mpr above
  simp only [commitWith, found, Bool.false_eq_true, if_false]
  show CommitEnds node cell (if cell.inst.hdr.inum < (finishCommit node cell.addr).pax.ihole then _
    else if cell.inst.hdr.inum ≠ (finishCommit node cell.addr).pax.ihole then
      commitAhead (finishCommit node cell.addr)
    else commitHole commit fuel (finishCommit node cell.addr))
  -- No fresh instance lies below the hole.
  rw [if_neg low]
  by_cases number : cell.inst.hdr.inum = (finishCommit node cell.addr).pax.ihole
  · rw [if_neg (not_not_intro number)]
    rw [split] at enough
    simp only [List.length_append, List.length_cons] at enough
    exact commitHole_ends commit poised split fresh served silent number (by omega)
  · rw [if_pos number]
    exact commitAhead_ends poised split fresh served number

end Commit

/-- The decree of a null, one past the number that the newcomer has to learn next. -/
def newcomer.decree : Event :=
  .message 1 { hdr := { session := 7, ballot := ⟨1, 1⟩, opcode := .decree, inum := 4 }
               body := .value { dkind := .null, reqid := ⟨1, 3⟩, extra := 0 } }

/-- What the decree leaves. -/
def newcomer.accepted : Node := (handle 20 newcomer.node newcomer.decree).state

/-- The instance that the newcomer has accepted. -/
def newcomer.cell : Cell where
  addr := 2
  inst :=
    { hdr := { session := 7, ballot := ⟨1, 1⟩, opcode := .decree, inum := 4 }, committed := false
      cached := false, learned := false, votes := 0, rejects := 0
      val := { dkind := .null, reqid := ⟨1, 3⟩, extra := 0 } }

end Motmot
