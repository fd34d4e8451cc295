import Motmot.Proofs.Paxos.Promise
import Motmot.Proofs.Paxos.Stock

/-! One handler makes no second decree of a request, as long as it is asked for nothing twice. -/

namespace Motmot

/-- A value is a request under an identifier. -/
def Value.Asks (val : Value) (reqid : ReqId) : Prop :=
  requestNeedsCached val.dkind = true ∧ val.reqid = reqid

/-- Identifiers that a session has not counted yet. -/
def Session.Uncounted (pax : Session) (reqid : ReqId) : Prop :=
  reqid.id = pax.selfId ∧ pax.reqId < reqid.gen

/-- No request is decreed under two numbers. -/
def Single (known : Decree → Prop) : Prop :=
  ∀ x y reqid, known x → known y → x.val.Asks reqid → y.val.Asks reqid → x.inum = y.inum

/-- A request that was not decreed before, and that the session will not count as its own. -/
def Unheard (known : Decree → Prop) (pax : Session) (val : Value) : Prop :=
  ∀ reqid, val.Asks reqid →
    (∀ decree, known decree → ¬ decree.val.Asks reqid) ∧ ¬ pax.Uncounted reqid

/--
Events that make a session decree only what was never decreed.

A prepared proposer decrees a request at once, and one that becomes prepared what it has deferred.
-/
structure Unasked (known : Decree → Prop) (pax : Session) (event : Event) : Prop where
  counted : ∀ decree, known decree → ∀ reqid, decree.val.Asks reqid → ¬ pax.Uncounted reqid
  asked : ∀ source hdr req, event = .message source ⟨hdr, .request req⟩ →
    hdr.opcode = .request → Prepared pax → Unheard known pax req.val
  deferred : (∃ prep, Completes pax event prep) →
    (∀ inst ∈ pax.idefer, Unheard known pax inst.val) ∧
      pax.idefer.Pairwise fun x y => ∀ reqid, x.val.Asks reqid → ¬ y.val.Asks reqid

variable {known : Decree → Prop}

/-- Fewer decrees are no less single. -/
theorem Single.mono {fewer : Decree → Prop} (single : Single known)
    (less : ∀ decree, fewer decree → known decree) : Single fewer :=
  fun x y reqid heldX heldY => single x y reqid (less x heldX) (less y heldY)

/-- A null is no request. -/
theorem Value.null_asks {val : Value} {reqid : ReqId} (null : val.dkind = .null) :
    ¬ val.Asks reqid := by
  rintro ⟨needs, -⟩
  rw [null] at needs
  contradiction

/-- A decree of something unheard of is no second one. -/
theorem Single.add {fresh : Decree} (single : Single known)
    (unheard : ∀ reqid, fresh.val.Asks reqid → ∀ decree, known decree → ¬ decree.val.Asks reqid) :
    Single fun decree => decree = fresh ∨ known decree := by
  rintro x y reqid (rfl | heldX) (rfl | heldY) asksX asksY
  · rfl
  · exact absurd asksY (unheard reqid asksX y heldY)
  · exact absurd asksX (unheard reqid asksY x heldX)
  · exact single x y reqid heldX heldY asksX asksY

/-- Whatever was counted before stays counted. -/
theorem Session.Uncounted.earlier {pax next : Session} {reqid : ReqId}
    (uncounted : next.Uncounted reqid) (self : next.selfId = pax.selfId)
    (counted : pax.reqId ≤ next.reqId) : pax.Uncounted reqid :=
  ⟨uncounted.1.trans self, Nat.lt_of_le_of_lt counted uncounted.2⟩

/-- What is unheard of remains so while the session counts. -/
theorem Unheard.later {pax next : Session} {val : Value} (unheard : Unheard known pax val)
    (self : next.selfId = pax.selfId) (counted : pax.reqId ≤ next.reqId) :
    Unheard known next val := by
  intro reqid asks
  obtain ⟨fresh, ours⟩ := unheard reqid asks
  exact ⟨fresh, fun uncounted => ours (uncounted.earlier self counted)⟩

/-- What a session in the middle of a handler has decreed so far, and what it may still decree. -/
structure Sums (known : Decree → Prop) (pax : Session) (out : List Effect) (event : Event)
    (node : Node) (sum : Decree → Prop) : Prop where
  before : ∀ decree, known decree → sum decree
  nulls : ∀ decree : Decree, decree.val.dkind = .null → sum decree
  self : node.pax.selfId = pax.selfId
  stock : ∀ decree, node.pax.ilist.Stocks decree → sum decree
  told : ∃ effects, node.out = out ++ effects ∧ ∀ effect ∈ effects, ∀ decree,
    effect.Discloses decree → sum decree
  single : Single sum
  counted : ∀ decree, sum decree → ∀ reqid, decree.val.Asks reqid → ¬ node.pax.Uncounted reqid
  waiting : (∃ prep, Completes pax event prep) →
    (∀ inst ∈ node.pax.idefer, Unheard sum node.pax inst.val) ∧
      node.pax.idefer.Pairwise fun x y => ∀ reqid, x.val.Asks reqid → ¬ y.val.Asks reqid

variable {start node next : Node} {pax : Session} {out : List Effect} {event : Event}
  {sum : Decree → Prop}

/-- A handler begins with what was decreed before. -/
theorem Sums.init (unasked : Unasked known start.pax event)
    (stock : ∀ decree, start.pax.ilist.Stocks decree → known decree) (single : Single known) :
    Sums known start.pax start.out event start fun decree =>
      known decree ∨ decree.val.dkind = .null where
  before := fun _ => Or.inl
  nulls := fun _ => Or.inr
  self := rfl
  stock := fun decree stocks => Or.inl (stock decree stocks)
  told := ⟨[], by simp, by simp⟩
  single := by
    -- A null asks for nothing, so it can clash with no decree.
    rintro x y reqid (heldX | null) (heldY | null') asksX asksY
    · exact single x y reqid heldX heldY asksX asksY
    · exact absurd asksY (Value.null_asks null')
    · exact absurd asksX (Value.null_asks null)
    · exact absurd asksX (Value.null_asks null)
  counted := by
    rintro decree (held | null) reqid asks
    · exact unasked.counted decree held reqid asks
    · exact absurd asks (Value.null_asks null)
  waiting := by
    -- What waits for the prepare is unheard of by what the event promises, and no null has it.
    intro completes
    obtain ⟨unheard, apart⟩ := unasked.deferred completes
    refine ⟨fun inst mem reqid asks => ?_, apart⟩
    obtain ⟨fresh, ours⟩ := unheard inst mem reqid asks
    refine ⟨?_, ours⟩
    rintro decree (held | null)
    · exact fresh decree held
    · exact Value.null_asks null

/-- A move discloses nothing but what is in the log before it or behind it. -/
def Frank (node next : Node) : Prop :=
  ∃ effects, next.out = node.out ++ effects ∧ ∀ effect ∈ effects, ∀ decree,
    effect.Discloses decree → node.pax.ilist.Stocks decree ∨ next.pax.ilist.Stocks decree

/-- A move tells of nothing but the log, which is accounted for. -/
theorem Sums.tell {more : Decree → Prop} (sums : Sums known pax out event node sum)
    (grows : ∀ decree, sum decree → more decree)
    (stock : ∀ decree, next.pax.ilist.Stocks decree → more decree)
    (discloses : Frank node next) :
    ∃ effects, next.out = out ++ effects ∧ ∀ effect ∈ effects, ∀ decree,
      effect.Discloses decree → more decree := by
  -- What the move tells is in the log before it or after it.
  obtain ⟨early, first, known⟩ := sums.told
  obtain ⟨late, added, tells⟩ := discloses
  refine ⟨early ++ late, by rw [added, first, List.append_assoc], ?_⟩
  intro effect mem decree disclosed
  rcases List.mem_append.mp mem with mem | mem
  · exact grows decree (known effect mem decree disclosed)
  · rcases tells effect mem decree disclosed with before | after
    · exact grows decree (sums.stock decree before)
    · exact stock decree after

/-- A move that asks for nothing leaves the account as it is. -/
theorem Sums.idle (sums : Sums known pax out event node sum) (idle : Idle start event node next)
    (arrives : ∀ source msg, event = .message source msg → ∀ decree, msg.Carries decree →
      known decree)
    (discloses : Frank node next) :
    Sums known pax out event next sum := by
  -- The log gains what the event carries, which was known, or a null.
  have stock : ∀ decree, next.pax.ilist.Stocks decree → sum decree := by
    intro decree stocks
    rcases idle.stock decree stocks with held | ⟨source, msg, asked, carries⟩ | ⟨null, -⟩
    · exact sums.stock decree held
    · exact sums.before decree (arrives source msg asked decree carries)
    · exact sums.nulls decree null
  refine ⟨sums.before, sums.nulls, idle.self.trans sums.self, stock,
    sums.tell (fun _ => id) stock discloses, sums.single, ?_, ?_⟩
  · intro decree held reqid asks uncounted
    exact sums.counted decree held reqid asks (uncounted.earlier idle.self idle.counted)
  · intro completes
    -- The waiting requests are the same, or none is left.
    rcases idle.waiting with same | none
    · rw [same]
      obtain ⟨unheard, apart⟩ := sums.waiting completes
      exact ⟨fun inst mem => (unheard inst mem).later idle.self idle.counted, apart⟩
    · rw [none]
      exact ⟨by simp, List.Pairwise.nil⟩

/-- A decree of something unheard of is added to the account. -/
theorem Sums.add {fresh : Decree} (sums : Sums known pax out event node sum)
    (self : next.pax.selfId = node.pax.selfId) (counts : node.pax.reqId ≤ next.pax.reqId)
    (unheard : ∀ reqid, fresh.val.Asks reqid →
      (∀ decree, sum decree → ¬ decree.val.Asks reqid) ∧ ¬ next.pax.Uncounted reqid)
    (stock : ∀ decree, next.pax.ilist.Stocks decree →
      decree = fresh ∨ node.pax.ilist.Stocks decree)
    (discloses : Frank node next)
    (waiting : (∃ prep, Completes pax event prep) → next.pax.idefer.Sublist node.pax.idefer ∧
      ∀ inst ∈ next.pax.idefer, ∀ reqid, inst.val.Asks reqid → ¬ fresh.val.Asks reqid) :
    Sums known pax out event next fun decree => decree = fresh ∨ sum decree := by
  -- Only the new decree is added, and nobody has heard of what it asks for.
  have stock : ∀ decree, next.pax.ilist.Stocks decree → decree = fresh ∨ sum decree :=
    fun decree stocks => (stock decree stocks).imp id (sums.stock decree)
  refine ⟨fun decree held => Or.inr (sums.before decree held),
    fun decree null => Or.inr (sums.nulls decree null), self.trans sums.self, stock,
    sums.tell (fun _ => Or.inr) stock discloses,
    sums.single.add fun reqid asks => (unheard reqid asks).1, ?_, ?_⟩
  · rintro decree (rfl | held) reqid asks uncounted
    · exact (unheard reqid asks).2 uncounted
    · exact sums.counted decree held reqid asks (uncounted.earlier self counts)
  · -- Requests still wait only while a prepare completes, and they differ from the new one.
    intro completes
    obtain ⟨waits, apart⟩ := sums.waiting completes
    obtain ⟨part, others⟩ := waiting completes
    refine ⟨fun inst mem reqid asks => ?_, apart.sublist part⟩
    obtain ⟨none, ours⟩ := (waits inst (part.subset mem)).later self counts reqid asks
    refine ⟨?_, ours⟩
    rintro decree (rfl | held)
    · exact others inst mem reqid asks
    · exact none decree held

/-- What a client or a continuation asks for is counted just then, so nobody has heard of it. -/
theorem Sums.own {val : Value} {mid : Node} (sums : Sums known pax out event node sum)
    (step : mid.pax.reqId = node.pax.reqId + 1)
    (mine : val.reqid = ⟨node.pax.selfId, mid.pax.reqId⟩) : Unheard sum mid.pax val := by
  -- A decree that asks for it would have been counted, and nothing counts as late as this one.
  rintro reqid ⟨-, rfl⟩
  rw [mine, step]
  constructor
  · intro decree held asks
    exact sums.counted decree held _ asks ⟨rfl, Nat.lt_succ_self _⟩
  · rintro ⟨-, later⟩
    simp only [step, Nat.lt_irrefl] at later

/-- A request that was counted just now is none that waits. -/
theorem Sums.own_apart {val : Value} {mid : Node} (step : mid.pax.reqId = node.pax.reqId + 1)
    (mine : val.reqid = ⟨node.pax.selfId, mid.pax.reqId⟩) {other : Value}
    (unheard : Unheard sum node.pax other) :
    ∀ reqid, other.Asks reqid → ¬ val.Asks reqid := by
  rintro reqid asks ⟨-, same⟩
  have ours : reqid = ⟨node.pax.selfId, node.pax.reqId + 1⟩ := by rw [← same, mine, step]
  rw [ours] at asks
  exact (unheard _ asks).2 ⟨rfl, Nat.lt_succ_self _⟩

/-- A decree that is announced counts no request, and defers none. -/
theorem announceDecree_counts (node : Node) (inst : Instance) :
    (announceDecree node inst).pax.selfId = node.pax.selfId ∧
      (announceDecree node inst).pax.reqId = node.pax.reqId ∧
        (announceDecree node inst).pax.idefer = node.pax.idefer := by
  obtain ⟨_, _, same⟩ := instanceInsertAndUpstart_eq node (decreeOf node.pax inst)
  exact ⟨congrArg (fun node => node.pax.selfId) same, congrArg (fun node => node.pax.reqId) same,
    congrArg (fun node => node.pax.idefer) same⟩

/-- A request that is deferred waits behind those that do. -/
theorem Sums.defer {mid : Node} {inst : Instance}
    (sums : Sums known start.pax start.out event node sum) (prior : Outer start event node mid)
    (wish : Wish start event node mid inst.val)
    (discloses : Frank node (mid.setIdefer (mid.pax.idefer ++ [inst]))) :
    Sums known start.pax start.out event (mid.setIdefer (mid.pax.idefer ++ [inst])) sum := by
  -- The log is not touched, so only the list of waiting requests needs a word.
  have self : mid.pax.selfId = node.pax.selfId := congrArg Core.selfId prior.core
  have idefer : mid.pax.idefer = node.pax.idefer := congrArg Core.idefer prior.core
  have stock : ∀ decree, mid.pax.ilist.Stocks decree → sum decree := by
    rw [prior.ilist]
    exact sums.stock
  refine ⟨sums.before, sums.nulls, self.trans sums.self, stock,
    sums.tell (fun _ => id) stock discloses, sums.single, ?_, ?_⟩
  · intro decree known reqid asks uncounted
    exact sums.counted decree known reqid asks (uncounted.earlier self prior.counted)
  · intro completes
    obtain ⟨unheard, apart⟩ := sums.waiting completes
    cases wish with
    | brought _ _ _ asked opcode =>
      -- A request completes no prepare.
      obtain ⟨_, -, -, _, _, _, other, promise, -⟩ := completes
      rw [asked] at other
      cases other
      rw [opcode] at promise
      contradiction
    -- The last number that was given is above the number of every request that waits.
    | own step mine _ =>
      have fresh := sums.own step mine
      show (∀ other ∈ mid.pax.idefer ++ [inst], Unheard sum mid.pax other.val) ∧
        (mid.pax.idefer ++ [inst]).Pairwise _
      rw [idefer]
      constructor
      · intro other mem
        rcases List.mem_append.mp mem with mem | mem
        · exact (unheard other mem).later self prior.counted
        · obtain rfl := List.mem_singleton.mp mem
          exact fresh
      · refine List.pairwise_append.mpr ⟨apart, List.pairwise_singleton _ _, ?_⟩
        intro other mem last memLast
        obtain rfl := List.mem_singleton.mp memLast
        exact Sums.own_apart step mine (unheard other mem)

/-- A request that an event brings in is decreed by a proposer, who was asked for it just once. -/
theorem Sums.brought {mid : Node} {inst : Instance} {source : PeerId} {hdr : Header} {req : Request}
    (unasked : Unasked known start.pax event)
    (held : ∀ decree, start.pax.ilist.Stocks decree → known decree) (single : Single known)
    (wf : start.pax.ilist.WellFormed) (prior : Outer start event start mid)
    (prepared : mid.pax.prep = none)
    (rightful : isProposer mid.pax = true ∨ mid.pax.core = start.pax.core ∧
      ∃ acc, Continues start.pax event .welcome acc none)
    (asked : event = .message source ⟨hdr, .request req⟩) (opcode : hdr.opcode = .request)
    (val : inst.val = req.val) (idle : mid.pax.reqId = start.pax.reqId)
    (discloses : Frank start (announceDecree mid inst)) :
    ∃ sum, Sums known start.pax start.out event (announceDecree mid inst) sum := by
  have self : mid.pax.selfId = start.pax.selfId := congrArg Core.selfId prior.core
  obtain ⟨same, counts, -⟩ := announceDecree_counts mid inst
  -- Nothing has happened yet, so the account is that of the beginning.
  have begun := Sums.init unasked held single
  -- Only a proposer gets to decree a request, and a connection brings none.
  have leads : Prepared start.pax := by
    rcases rightful with leads | ⟨-, _, _, _, completed, -⟩
    · refine ⟨?_, ?_⟩
      · rw [← isProposer_congr prior.core]
        exact leads
      · exact (congrArg Core.prep prior.core).symm.trans prepared
    · rw [asked] at completed
      contradiction
  have fresh := unasked.asked source hdr req asked opcode leads
  have stock : ∀ decree, (announceDecree mid inst).pax.ilist.Stocks decree →
      decree = ⟨nextInstance mid.pax, inst.val⟩ ∨ start.pax.ilist.Stocks decree := by
    intro decree stocks
    rw [← prior.ilist]
    exact announceDecree_stock (prior.wellFormed wf) stocks
  refine ⟨_, begun.add (same.trans self) (Nat.le_trans prior.counted (Nat.le_of_eq counts.symm))
    ?_ stock discloses ?_⟩
  · -- What the client asked for is in no decree and in no null.
    intro reqid asks
    obtain ⟨none, ours⟩ := fresh reqid (val ▸ asks)
    refine ⟨?_, fun uncounted => ours (uncounted.earlier (same.trans self) ?_)⟩
    · rintro decree (known | null)
      · exact none decree known
      · exact Value.null_asks null
    · exact Nat.le_of_eq (idle.symm.trans counts.symm)
  · -- A request completes no prepare.
    rintro ⟨_, -, -, _, _, _, other, promise, -⟩
    rw [asked] at other
    cases other
    rw [opcode] at promise
    contradiction

/-- A request of the session's own is decreed with the number that it has just been given. -/
theorem Sums.decree {mid : Node} {inst : Instance}
    (sums : Sums known start.pax start.out event node sum) (prior : Outer start event node mid)
    (wf : node.pax.ilist.WellFormed) (step : mid.pax.reqId = node.pax.reqId + 1)
    (mine : inst.val.reqid = ⟨node.pax.selfId, mid.pax.reqId⟩)
    (discloses : Frank node (announceDecree mid inst)) :
    ∃ sum, Sums known start.pax start.out event (announceDecree mid inst) sum := by
  -- The number has just been given, so nobody has heard of the request.
  have self : mid.pax.selfId = node.pax.selfId := congrArg Core.selfId prior.core
  have idefer : mid.pax.idefer = node.pax.idefer := congrArg Core.idefer prior.core
  obtain ⟨same, counts, defers⟩ := announceDecree_counts mid inst
  have fresh := sums.own step mine
  have stock : ∀ decree, (announceDecree mid inst).pax.ilist.Stocks decree →
      decree = ⟨nextInstance mid.pax, inst.val⟩ ∨ node.pax.ilist.Stocks decree := by
    intro decree stocks
    rw [← prior.ilist]
    exact announceDecree_stock (prior.wellFormed wf) stocks
  refine ⟨_, sums.add (same.trans self) (Nat.le_trans prior.counted (Nat.le_of_eq counts.symm))
    ?_ stock discloses ?_⟩
  · exact fun reqid asks => fresh.later same (Nat.le_of_eq counts.symm) reqid asks
  · intro completes
    rw [defers, idefer]
    exact ⟨List.Sublist.refl _, fun other mem =>
      Sums.own_apart step mine ((sums.waiting completes).1 other mem)⟩

/-- The first of the requests that wait is decreed when the prepare completes. -/
theorem Sums.undefer {inst : Instance} {rest : List Instance}
    (sums : Sums known start.pax start.out event node sum) (wf : node.pax.ilist.WellFormed)
    (deferred : node.pax.idefer = inst :: rest) (completes : ∃ prep, Completes start.pax event prep)
    (discloses : Frank node (announceDecree (node.setIdefer rest) inst)) :
    ∃ sum, Sums known start.pax start.out event (announceDecree (node.setIdefer rest) inst) sum := by
  -- The first of them differs from those behind it, which go on waiting.
  obtain ⟨unheard, apart⟩ := sums.waiting completes
  rw [deferred] at unheard apart
  obtain ⟨same, counts, defers⟩ := announceDecree_counts (node.setIdefer rest) inst
  refine ⟨_, sums.add same (Nat.le_of_eq counts.symm) ?_
    (fun decree stocks => @announceDecree_stock (node.setIdefer rest) decree inst wf stocks)
    discloses ?_⟩
  · intro reqid asks
    exact (unheard inst List.mem_cons_self).later same (Nat.le_of_eq counts.symm) reqid asks
  · intro
    rw [defers, deferred]
    refine ⟨List.sublist_cons_self _ _, fun other mem reqid asks asks' => ?_⟩
    exact (List.pairwise_cons.mp apart).1 other mem reqid asks' asks

/-- Whatever a move asks for, no request is decreed twice. -/
theorem Asks.sums (asks : Asks start event node next)
    (unasked : Unasked known start.pax event)
    (sums : Sums known start.pax start.out event node sum)
    (held : ∀ decree, start.pax.ilist.Stocks decree → known decree) (single : Single known)
    (arrives : ∀ source msg, event = .message source msg → ∀ decree, msg.Carries decree →
      known decree) (wf : node.pax.ilist.WellFormed) (discloses : Frank node next) :
    ∃ sum, Sums known start.pax start.out event next sum := by
  cases asks with
  -- One case for each way in which a request is decreed, put off or let be.
  | idle idle => exact ⟨sum, sums.idle idle arrives discloses⟩
  | deferred prior _ wish => exact ⟨sum, sums.defer prior wish discloses⟩
  | decreed prior prepared rightful wish =>
    cases wish with
    | brought source hdr req asked opcode _ val idle first =>
      subst first
      exact Sums.brought unasked held single wf prior prepared rightful asked opcode val idle
        discloses
    | own step mine _ => exact sums.decree prior wf step mine discloses
  | undeferred deferred completes => exact sums.undefer wf deferred completes discloses

/-- A handler that is asked for nothing twice accounts for all that it decrees and tells. -/
theorem Handles.sums {result : Result} (handles : Handles node event result)
    (wf : node.pax.ilist.WellFormed) (unasked : Unasked known node.pax event)
    (held : ∀ decree, node.pax.ilist.Stocks decree → known decree) (single : Single known)
    (arrives : ∀ source msg, event = .message source msg → ∀ decree, msg.Carries decree →
      known decree) :
    ∃ sum, Single sum ∧ (∀ decree, known decree → sum decree) ∧
      (∀ next, result = .ok next → ∀ decree, next.pax.ilist.Stocks decree → sum decree) ∧
        ∀ effect ∈ fresh node result, ∀ decree, effect.Discloses decree → sum decree := by
  -- Every move keeps the account, and what a halting handler tells last is of the log.
  have account := @Handles.invariant node event result
    (fun config => ∃ sum, Sums known node.pax node.out event config.node sum) handles wf
      (fun script =>
        ⟨_, @Sums.init known { node with script := script } event unasked held single⟩) ?_
  · cases result with
    | ok next =>
      obtain ⟨sum, sums⟩ := account.1 next rfl
      refine ⟨sum, sums.single, sums.before, ?_, ?_⟩
      · rintro other same
        cases same
        exact sums.stock
      · obtain ⟨effects, out, known⟩ := sums.told
        intro effect mem
        rw [fresh, show (Outcome.ok next : Result).state = next from rfl, out,
          List.drop_left] at mem
        exact known effect mem
    -- The handler halts in a state that its moves reached.
    | stop reason halted =>
      obtain ⟨reached, ⟨sum, sums⟩, -, halts⟩ := account.2 reason halted rfl
      refine ⟨sum, sums.single, sums.before, by intro next same; contradiction, ?_⟩
      obtain ⟨effects, out, known⟩ := sums.told
      obtain ⟨last, more, teaches⟩ := halts.told
      intro effect mem
      rw [fresh, show (Outcome.stop reason halted : Result).state = halted from rfl, more, out,
        List.append_assoc, List.drop_left] at mem
      rcases List.mem_append.mp mem with mem | mem
      · exact known effect mem
      · exact fun decree discloses => sums.stock decree ((teaches effect mem).discloses discloses)
  · rintro script config after move wf ⟨sum, sums⟩
    exact @Asks.sums known { node with script := script } config.node after.node event sum
      (move.asks wf) unasked sums held single arrives wf (move.discloses wf)

end Motmot
