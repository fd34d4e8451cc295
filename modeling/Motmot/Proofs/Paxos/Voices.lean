import Motmot.Proofs.Paxos.Books

/-! Where the values come from that a session holds, sends and learns. -/

namespace Motmot

/-- A message mentions a value, whatever it says of it. -/
def Body.Mentions : Body → Value → Prop
  | .value stated, val => stated = val
  | .votes _ packs, val => ∃ packed ∈ packs, packed.val = val
  | .welcome _ _ _ ilist, val => ∃ packed ∈ ilist, packed.val = val
  | .request req, val => req.val = val
  | .refuse _ refused, val => refused = val
  | _, _ => False

/-- An effect mentions a value: it is learned, or sent. -/
def Effect.Mentions : Effect → Value → Prop
  | .learn _ learned, val => learned = val
  | .send _ msg, val => msg.body.Mentions val
  | _, _ => False

/-- The values that a session holds, be it in its log or in what waits. -/
inductive Session.Holds (pax : Session) : Value → Prop where
  | stock {decree} (stocks : pax.ilist.Stocks decree) : pax.Holds decree.val
  | deferred {inst} (mem : inst ∈ pax.idefer) : pax.Holds inst.val
  | cached {req} (mem : req ∈ pax.rcache) : pax.Holds req.val
  | refused {k val} (mem : k ∈ pax.clist) (purpose : k.purpose = .ackRefuse val) : pax.Holds val

/-- A value that was known before a handler, or that has been counted in it. -/
inductive Vouched (known : Value → Prop) (start : Node) (event : Event) (reqId : Nat)
    (val : Value) : Prop where
  | known (before : known val)
  | own (mine : val.reqid.id = start.pax.selfId) (fresh : start.pax.reqId < val.reqid.gen)
      (counted : val.reqid.gen ≤ reqId) (origin : Origin start event val)

/-- What is known at the beginning of a handler: nulls, what is held and what comes in. -/
structure Knows (known : Value → Prop) (pax : Session) (event : Event) : Prop where
  null : ∀ val, val.dkind = .null → known val
  holds : ∀ val, pax.Holds val → known val
  arrives : ∀ source msg, event = .message source msg → ∀ val, msg.body.Mentions val → known val

/-- All values of a session in the middle of a handler were known before, or counted since. -/
structure Vouches (known : Value → Prop) (start : Node) (event : Event) (node : Node) : Prop where
  self : node.pax.selfId = start.pax.selfId
  counted : start.pax.reqId ≤ node.pax.reqId
  holds : ∀ val, node.pax.Holds val → Vouched known start event node.pax.reqId val
  told : ∃ effects, node.out = start.out ++ effects ∧ ∀ effect ∈ effects, ∀ val,
    effect.Mentions val → Vouched known start event node.pax.reqId val

variable {known : Value → Prop} {start node next before after mid : Node} {event : Event}
  {val : Value} {decree : Decree}

/-- What was counted by then is counted later on. -/
theorem Vouched.later {early late : Nat} (vouched : Vouched known start event early val)
    (less : early ≤ late) : Vouched known start event late val := by
  cases vouched with
  | known before => exact .known before
  | own mine fresh counted origin => exact .own mine fresh (Nat.le_trans counted less) origin

/-- A decree that a message carries is of a value that it mentions. -/
theorem Msg.Carries.mentions {msg : Msg} (carries : msg.Carries decree) :
    msg.body.Mentions decree.val := by
  -- One case per kind of message that carries decrees: a value, votes and a welcome.
  rcases carries with ⟨val, body, -, rfl⟩ | ⟨count, votes, body, -, vote, mem, rfl⟩ |
    ⟨session, ibase, alist, ilist, body, -, packed, mem, rfl⟩
  · rw [body]
    rfl
  · rw [body]
    exact ⟨vote, mem, rfl⟩
  · rw [body]
    exact ⟨packed, mem, rfl⟩

/-- A decree does not change what else is deferred. -/
theorem announceDecree_idefer {inst : Instance} :
    (announceDecree node inst).pax.idefer = node.pax.idefer := by
  obtain ⟨_, _, same⟩ := instanceInsertAndUpstart_eq node (decreeOf node.pax inst)
  exact congrArg (fun node => node.pax.idefer) same

/-- A handler begins with what is known. -/
theorem Vouches.init (knows : Knows known start.pax event) :
    Vouches known start event start where
  self := rfl
  counted := Nat.le_refl _
  holds := fun val holds => .known (knows.holds val holds)
  told := ⟨[], (List.append_nil _).symm, fun _ mem => absurd mem List.not_mem_nil⟩

namespace Vouches

variable (vouches : Vouches known start event before) (knows : Knows known start.pax event)

include vouches knows

/-- A value that enters the log was brought in, or has just been counted. -/
theorem wish (wish : Wish start event before mid val) :
    Vouched known start event mid.pax.reqId val := by
  -- A value comes with the message, or under a number that was counted for it.
  cases wish with
  | brought source hdr req asked _ _ same =>
    exact .known (knows.arrives source _ asked val same.symm)
  | own step mine origin =>
    refine .own ?_ ?_ ?_ origin
    · rw [mine]
      exact vouches.self
    · rw [mine]
      have counted := vouches.counted
      show start.pax.reqId < mid.pax.reqId
      omega
    · rw [mine]

/-- A request that a move caches or sends was known, or the client has just called for it. -/
theorem source {made : List Request} {req : Request} (issued : Issued start event before after made)
    (counted : before.pax.reqId ≤ after.pax.reqId)
    (source : Source start event before made req) :
    Vouched known start event after.pax.reqId req.val := by
  -- A request is at hand, waits with a continuation, has come in, or is made for the client.
  cases source with
  | cached mem => exact (vouches.holds _ (.cached mem)).later counted
  | rebuilt rebuilds =>
    -- What is rebuilt has waited with a continuation since before the handler.
    obtain ⟨⟨_, _, _, ⟨_, k, -, found, purpose, -⟩, -⟩, -⟩ := rebuilds
    exact .known (knows.holds _ (.refused (List.mem_of_find?_eq_some found) purpose))
  | brought brings =>
    obtain ⟨source, hdr, asked⟩ := brings
    exact .known (knows.arrives source _ asked _ rfl)
  -- What is made for the client has the first number that is not counted.
  | own mem =>
    obtain ⟨newer, older⟩ := issued.counted req mem
    obtain ⟨call, called, same⟩ := issued.asked req mem
    refine .own ?_ (Nat.lt_of_le_of_lt vouches.counted newer) older
      (.call called (congrArg Request.val same))
    rw [same]
    exact vouches.self

/-- A decree that is not new was known, or says nothing. -/
theorem recalled (recalled : Known start event before decree) :
    Vouched known start event before.pax.reqId decree.val := by
  rcases recalled with stocks | ⟨source, msg, asked, carries⟩ | ⟨null, -⟩
  · exact vouches.holds _ (.stock stocks)
  · exact .known (knows.arrives source msg asked _ carries.mentions)
  · exact .known (knows.null _ null)

/-- What a move decrees or defers was known, or has just been counted. -/
theorem asked (asks : Asks start event before after) (wf : before.pax.ilist.WellFormed) :
    (∀ decree, after.pax.ilist.Stocks decree →
      Vouched known start event after.pax.reqId decree.val) ∧
      ∀ inst ∈ after.pax.idefer, Vouched known start event after.pax.reqId inst.val := by
  -- A decree adds its own value, a deferral keeps it waiting, and the rest adds nothing.
  cases asks with
  | idle idle =>
    constructor
    · intro decree stocks
      exact (vouches.recalled knows (idle.stock decree stocks)).later idle.counted
    · intro inst mem
      rcases idle.waiting with same | none
      · rw [same] at mem
        exact (vouches.holds _ (.deferred mem)).later idle.counted
      · rw [none] at mem
        contradiction
  -- What is deferred is the wish itself.
  | @deferred mid inst prior _ wish =>
    have idefer : mid.pax.idefer = before.pax.idefer := congrArg Core.idefer prior.core
    constructor
    · intro decree stocks
      have stocks : mid.pax.ilist.Stocks decree := stocks
      rw [prior.ilist] at stocks
      exact (vouches.holds _ (.stock stocks)).later prior.counted
    · intro other mem
      have mem : other ∈ mid.pax.idefer ++ [inst] := mem
      rcases List.mem_append.mp mem with mem | mem
      · rw [idefer] at mem
        exact (vouches.holds _ (.deferred mem)).later prior.counted
      · obtain rfl := List.mem_singleton.mp mem
        show Vouched known start event mid.pax.reqId other.val
        exact vouches.wish knows wish
  | @decreed mid inst prior _ _ wish =>
    have idefer : mid.pax.idefer = before.pax.idefer := congrArg Core.idefer prior.core
    rw [announceDecree_reqId]
    constructor
    · intro decree stocks
      rcases announceDecree_stock (prior.wellFormed wf) stocks with rfl | stocks
      · exact vouches.wish knows wish
      · rw [prior.ilist] at stocks
        exact (vouches.holds _ (.stock stocks)).later prior.counted
    · intro other mem
      rw [announceDecree_idefer, idefer] at mem
      exact (vouches.holds _ (.deferred mem)).later prior.counted
  -- What was deferred moves from the queue into the log.
  | @undeferred inst rest deferred _ =>
    have mem : inst ∈ before.pax.idefer := deferred ▸ List.mem_cons_self
    rw [announceDecree_reqId]
    constructor
    · intro decree stocks
      rcases @announceDecree_stock (before.setIdefer rest) decree inst wf stocks with rfl | stocks
      · exact vouches.holds _ (.deferred mem)
      · exact vouches.holds _ (.stock stocks)
    · intro other mem
      rw [announceDecree_idefer] at mem
      exact vouches.holds _ (.deferred (deferred ▸ List.mem_cons_of_mem _ mem))

/-- What a move tells mentions values of the log, or those of requests that it has at hand. -/
theorem tells {made : List Request} {effect : Effect}
    (issued : Issued start event before after made) (counted : before.pax.reqId ≤ after.pax.reqId)
    (stocked : ∀ decree, after.pax.ilist.Stocks decree →
      Vouched known start event after.pax.reqId decree.val)
    (tells : Tells start event made before after effect) (mentions : effect.Mentions val) :
    Vouched known start event after.pax.reqId val := by
  -- What a cell of the log says was in the log before.
  have listed : ∀ cell ∈ before.pax.ilist.cells,
      Vouched known start event after.pax.reqId cell.inst.val := fun cell mem =>
    (vouches.holds _ (.stock ⟨cell.inst, Ilist.allots_of_mem mem, rfl⟩)).later counted
  -- Side messages mention a request or a refused value; the others repeat the log.
  cases tells with
  | side side =>
    cases side with
    | send peer msg side sourced =>
      obtain ⟨hdr, body⟩ := msg
      cases body with
      | request req =>
        obtain rfl : req.val = val := mentions
        exact vouches.source knows issued counted sourced
      | refuse orig refused =>
        obtain rfl : refused = val := mentions
        obtain ⟨data, source, hdr, asked⟩ := sourced
        exact .known (knows.arrives source _ asked _ rfl)
      -- Messages with these payloads are not sent on the side.
      | value | votes | welcome =>
        rw [Msg.side] at side
        cases opcode : hdr.opcode <;> rw [opcode] at side <;> contradiction
      | _ => exact mentions.elim
    | hello | connect | watch | close | join | part | leave => exact mentions.elim
  | @inst _ addr inst held =>
    obtain rfl : inst.val = val := mentions
    exact stocked inst.decree ⟨inst, Ilist.allots_of_inst? held, rfl⟩
  | prepare => exact mentions.elim
  | @promise _ hdr _ count votes _ _ _ _ first packed =>
    obtain ⟨vote, mem, rfl⟩ := mentions
    obtain ⟨cell, voted, rfl⟩ := List.mem_map.mp mem
    have suffix := promiseVotes_suffix start.pax.ilist hdr.inum
    rw [packed] at suffix
    exact listed cell (first ▸ suffix.subset voted)
  | accept => exact mentions.elim
  | @recommit _ hdr _ cell _ _ _ _ mem =>
    obtain rfl : cell.inst.val = val := mentions
    exact stocked cell.inst.decree ⟨cell.inst, Ilist.allots_of_mem mem, rfl⟩
  | welcome =>
    obtain ⟨packed, mem, rfl⟩ := mentions
    obtain ⟨cell, held, rfl⟩ := List.mem_map.mp mem
    exact listed cell held
  | commit => exact mentions.elim

end Vouches

/-- What is learned is in the log. -/
theorem Vouches.teaches {effect : Effect} (vouches : Vouches known start event before)
    (teaches : Teaches before effect) (mentions : effect.Mentions val) :
    Vouched known start event before.pax.reqId val := by
  cases teaches with
  | @learn addr inst held =>
    obtain rfl : inst.val = val := mentions
    exact vouches.holds _ (.stock ⟨inst, Ilist.allots_of_inst? held, rfl⟩)
  | chat => exact mentions.elim

/-- Every move has values that were known, or that were counted by then. -/
theorem Vouches.move {config next : Config} (vouches : Vouches known start event config.node)
    (knows : Knows known start.pax event) (move : Move start event config next)
    (wf : config.node.pax.ilist.WellFormed) : Vouches known start event next.node := by
  -- What enters the log, what is deferred, cached or told: each is traced to where it came from.
  have asks := move.asks wf
  have counted := asks.counted
  obtain ⟨stocked, deferred⟩ := vouches.asked knows asks wf
  obtain ⟨made, late, tale, told⟩ := move.tells wf
  obtain ⟨early, out, first⟩ := vouches.told
  refine ⟨move.selfId vouches.self, Nat.le_trans vouches.counted counted, ?_, early ++ late,
    by rw [tale.out, out, List.append_assoc], ?_⟩
  · intro val holds
    cases holds with
    | stock stocks => exact stocked _ stocks
    | deferred mem => exact deferred _ mem
    | cached mem => exact vouches.source knows tale.issued counted (tale.cached _ mem)
    | refused mem purpose =>
      rcases tale.pending _ mem with before | expects
      · exact (vouches.holds _ (.refused before purpose)).later counted
      · -- A continuation is made as the refusal comes in.
        obtain ⟨source, hdr, orig, asked⟩ := expects.refused _ purpose
        exact .known (knows.arrives source _ asked _ rfl)
  · -- What was told before the move is still vouched for.
    intro effect mem val mentions
    rcases List.mem_append.mp mem with mem | mem
    · exact (first effect mem val mentions).later counted
    · rcases told effect mem with tells | teaches
      · exact vouches.tells knows tale.issued counted stocked tells mentions
      · exact (vouches.teaches teaches mentions).later counted

/-- A handler holds and tells what was known before, or what has been counted in it. -/
theorem handle_vouches {fuel : Nat} (wf : start.pax.ilist.WellFormed)
    (knows : Knows known start.pax event) :
    ∃ last, start.pax.reqId ≤ last.pax.reqId ∧
      (∀ next, handle fuel start event = .ok next → last = next) ∧
      (∀ val, last.pax.Holds val → Vouched known start event last.pax.reqId val) ∧
        ∀ effect ∈ fresh start (handle fuel start event), ∀ val, effect.Mentions val →
          Vouched known start event last.pax.reqId val := by
  -- The moves keep the account, whether the handler returns or stops.
  have account := @handle_invariant start fuel event
    (fun config => Vouches known start event config.node) wf (.init knows)
      fun move wf vouches => vouches.move knows move wf
  unfold fresh
  cases result : handle fuel start event with
  | ok next =>
    have vouches := account.1 next result
    obtain ⟨effects, out, told⟩ := vouches.told
    refine ⟨next, vouches.counted, by simp, vouches.holds, ?_⟩
    show ∀ effect ∈ next.out.drop _, _
    rw [out, List.drop_left]
    exact told
  -- A handler that stops may still have told something on its way out.
  | stop reason halted =>
    obtain ⟨reached, vouches, -, halts⟩ := account.2 reason halted result
    obtain ⟨effects, out, told⟩ := vouches.told
    obtain ⟨last, more, teaches⟩ := halts.told
    refine ⟨reached.node, vouches.counted, by simp, vouches.holds, ?_⟩
    show ∀ effect ∈ halted.out.drop _, _
    rw [more, out, List.append_assoc, List.drop_left]
    intro effect mem val mentions
    rcases List.mem_append.mp mem with mem | mem
    · exact told effect mem val mentions
    · exact vouches.teaches (teaches effect mem) mentions

end Motmot
