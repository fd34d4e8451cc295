import Motmot.Proofs.Paxos.Log

/-! What handlers do beside the log composes, and each part of it is an outer move. -/

namespace Motmot

variable {start : Node} {event : Event}

/-- No request is made where nothing is counted. -/
theorem Issued.none {node next : Node} : Issued start event node next [] where
  ascending := .nil
  counted := fun _ mem => absurd mem List.not_mem_nil
  asked := fun _ mem => absurd mem List.not_mem_nil

/-- Requests are made one after the other. -/
theorem Issued.append {node mid next : Node} {early late : List Request}
    (first : Issued start event node mid early) (second : Issued start event mid next late)
    (selfId : mid.pax.selfId = node.pax.selfId) (before : node.pax.reqId ≤ mid.pax.reqId)
    (after : mid.pax.reqId ≤ next.pax.reqId) :
    Issued start event node next (early ++ late) where
  ascending := by
    -- The counts of the first requests lie below those of the second ones.
    refine List.pairwise_append.mpr ⟨first.ascending, second.ascending, fun x memX y memY => ?_⟩
    have := (first.counted x memX).2
    have := (second.counted y memY).1
    omega
  counted := by
    intro req mem
    rcases List.mem_append.mp mem with mem | mem
    · have := first.counted req mem
      omega
    · have := second.counted req mem
      omega
  asked := by
    intro req mem
    rcases List.mem_append.mp mem with mem | mem
    · exact first.asked req mem
    · obtain ⟨call, called, same⟩ := second.asked req mem
      exact ⟨call, called, selfId ▸ same⟩

/-- Requests stay made when more of them are counted afterwards. -/
theorem Issued.later {node mid next : Node} {made : List Request}
    (issued : Issued start event node mid made) (counted : mid.pax.reqId ≤ next.pax.reqId) :
    Issued start event node next made where
  ascending := issued.ascending
  counted := fun req mem =>
    ⟨(issued.counted req mem).1, Nat.le_trans (issued.counted req mem).2 counted⟩
  asked := issued.asked

/-- A request keeps its source when more requests are made. -/
theorem Source.more {node : Node} {made more : List Request} {req : Request}
    (source : Source start event node made req) (subset : ∀ req ∈ made, req ∈ more) :
    Source start event node more req := by
  cases source with
  | cached mem => exact .cached mem
  | rebuilt rebuilds bare => exact .rebuilt rebuilds bare
  | brought brings => exact .brought brings
  | own mem => exact .own (subset _ mem)

/-- A request keeps its source when it is traced back to an earlier state. -/
theorem Source.back {node mid : Node} {made late : List Request} {req : Request}
    (cached : ∀ req ∈ mid.pax.rcache, Source start event node made req)
    (source : Source start event mid late req) : Source start event node (made ++ late) req := by
  cases source with
  | cached mem => exact (cached req mem).more fun _ => List.mem_append_left _
  | rebuilt rebuilds bare => exact .rebuilt rebuilds bare
  | brought brings => exact .brought brings
  | own mem => exact .own (List.mem_append_right _ mem)

/-- What a message carries keeps its source when all requests do. -/
theorem Sourced.map {node before : Node} {made more : List Request} {body : Body}
    (keep : ∀ req, Source start event node made req → Source start event before more req)
    (sourced : Sourced start event node made body) : Sourced start event before more body := by
  unfold Sourced at sourced ⊢
  split
  · exact keep _ sourced
  · exact sourced
  · trivial

/-- Side effects stay side effects when their requests keep their sources. -/
theorem Side.map {node before : Node} {made more : List Request} {effect : Effect}
    (keep : ∀ req, Source start event node made req → Source start event before more req)
    (side : Side start event node made effect) : Side start event before more effect := by
  -- Only a message that is sent carries a request, whose source is kept.
  cases side with
  | send peer msg side known => exact .send peer msg side (known.map keep)
  | hello continues attaches opcode self ballot =>
    exact .hello continues attaches opcode self ballot
  | connect => exact .connect _ _
  | watch => exact .watch _
  | close => exact .close _
  | join => exact .join _ _
  | part => exact .part _
  | leave => exact .leave

namespace Traced

variable {node mid next : Node} {made : List Request} {effects : List Effect}

/-- Nothing comes from anywhere where nothing happens. -/
theorem none (rcache : next.pax.rcache = node.pax.rcache) (out : next.out = node.out) :
    Traced start event node next [] [] where
  issued := .none
  cached := fun _ mem => .cached (rcache ▸ mem)
  out := by simp [out]
  sides := fun _ mem => absurd mem List.not_mem_nil

/-- What is traced twice is traced back. -/
theorem append {late : List Request} {more : List Effect}
    (first : Traced start event node mid made effects)
    (second : Traced start event mid next late more)
    (selfId : mid.pax.selfId = node.pax.selfId) (before : node.pax.reqId ≤ mid.pax.reqId)
    (after : mid.pax.reqId ≤ next.pax.reqId) :
    Traced start event node next (made ++ late) (effects ++ more) where
  issued := first.issued.append second.issued selfId before after
  cached := fun req mem => (second.cached req mem).back first.cached
  out := by rw [second.out, first.out, List.append_assoc]
  sides := by
    intro effect mem
    -- An effect of the first part may draw on all requests, one of the second on what was cached.
    rcases List.mem_append.mp mem with mem | mem
    · exact (first.sides effect mem).map fun _ source =>
        source.more fun _ => List.mem_append_left _
    · exact (second.sides effect mem).map fun _ source => source.back first.cached

/-- Side effects may follow that carry nothing new. -/
theorem tell (traced : Traced start event node mid made effects) (more : List Effect)
    (sides : ∀ effect ∈ more, Side start event node [] effect) :
    Traced start event node { mid with out := mid.out ++ more } made (effects ++ more) where
  issued := traced.issued.later (Nat.le_refl _)
  cached := traced.cached
  out := by rw [traced.out, List.append_assoc]
  sides := by
    intro effect mem
    -- The effects that follow have no requests of their own to draw on.
    rcases List.mem_append.mp mem with mem | mem
    · exact traced.sides effect mem
    · exact (sides effect mem).map fun _ source => source.more fun _ mem =>
        absurd mem List.not_mem_nil

end Traced

/-- What a session may come to wait with rests on its core. -/
theorem Expects.congr {pax next : Session} {k : Continuation} (expects : Expects pax event k)
    (core : next.core = pax.core) : Expects next event k where
  refused := expects.refused
  joined := by
    -- Whether a join may wait is read off the proposer, the name and the hole.
    have proposer : next.proposer = pax.proposer := congrArg Core.proposer core
    have self : next.selfId = pax.selfId := congrArg Core.selfId core
    have hole : next.ihole = pax.ihole := congrArg Core.ihole core
    rw [isProposer, proposer, self, hole]
    exact expects.joined
  redirected := by
    rw [show next.prep = pax.prep from congrArg Core.prep core]
    exact expects.redirected

namespace Beside

/-- The effects of what happens beside the log. -/
theorem told {node next : Node} (beside : Beside start event node next) :
    ∃ made effects, next.out = node.out ++ effects ∧
      ∀ effect ∈ effects, Side start event node made effect := by
  obtain ⟨made, effects, traced⟩ := beside.traced
  exact ⟨made, effects, traced.out, traced.sides⟩

/-- Doing nothing happens beside the log. -/
theorem refl (node : Node) : Beside start event node node where
  core := rfl
  members := rfl
  counted := Nat.le_refl _
  stored := fun _ => id
  ordered := id
  pending := fun _ mem => Or.inl mem
  script := fun _ => id
  -- Nothing is cached, made or told.
  traced := ⟨[], [], .none rfl rfl⟩

/-- What happens beside the log composes. -/
theorem trans {node mid next : Node} (first : Beside start event node mid)
    (second : Beside start event mid next) : Beside start event node next where
  core := second.core.trans first.core
  members := second.members.trans first.members
  counted := Nat.le_trans first.counted second.counted
  stored := fun req mem => second.stored req (first.stored req mem)
  ordered := fun order => second.ordered (first.ordered order)
  pending := by
    -- What waits at the end waited in the middle, or has been added since.
    intro k mem
    rcases second.pending k mem with old | fresh
    · exact first.pending k old
    · exact Or.inr (fresh.congr first.core.symm)
  script := fun visit mem => first.script visit (second.script visit mem)
  traced := by
    obtain ⟨early, told, traced⟩ := first.traced
    obtain ⟨late, more, later⟩ := second.traced
    exact ⟨_, _, traced.append later (congrArg Core.selfId first.core) first.counted second.counted⟩

/-- Effects of the side kind may follow. -/
theorem tell {node mid : Node} (outer : Beside start event node mid) (effects : List Effect)
    (sides : ∀ effect ∈ effects, Side start event node [] effect) :
    Beside start event node { mid with out := mid.out ++ effects } where
  core := outer.core
  members := outer.members
  counted := outer.counted
  stored := outer.stored
  ordered := outer.ordered
  pending := outer.pending
  script := outer.script
  -- Only the effects grow.
  traced := by
    obtain ⟨made, early, traced⟩ := outer.traced
    exact ⟨_, _, traced.tell effects sides⟩

/-- One effect of the side kind may follow. -/
theorem emit {node mid : Node} {effect : Effect} (outer : Beside start event node mid)
    (side : Side start event node [] effect) : Beside start event node (mid.emit effect) :=
  outer.tell [effect] (by simpa using side)

/-- A write to the fields beside the core invents no request. -/
theorem write {node next : Node} (core : next.pax.core = node.pax.core)
    (members : next.pax.members = node.pax.members) (reqId : next.pax.reqId = node.pax.reqId)
    (rcache : next.pax.rcache = node.pax.rcache)
    (clist : ∀ k ∈ next.pax.clist, k ∈ node.pax.clist)
    (script : ∀ visit ∈ next.script, visit ∈ node.script) (out : next.out = node.out) :
    Beside start event node next where
  core := core
  members := members
  counted := Nat.le_of_eq reqId.symm
  stored := fun _ mem => rcache ▸ mem
  ordered := fun order => rcache ▸ order
  pending := fun k mem => Or.inl (clist k mem)
  script := script
  -- No request is made, cached or told.
  traced := ⟨[], [], .none rcache out⟩

/-- Channels come and go beside the log. -/
theorem setPeer (node : Node) (paxid : Nat) (peer : Option PeerId) :
    Beside start event node (node.setPeer paxid peer) := by
  refine write rfl ?_ rfl rfl (fun _ => id) (fun _ => id) rfl
  -- An acceptor keeps its identity whatever channel it has.
  simp only [Session.members, Node.setPeer, List.map_map]
  refine List.map_congr_left fun acc _ => ?_
  simp only [Function.comp_apply]
  split <;> rfl

theorem setLiveCount (node : Node) (count : Nat) : Beside start event node
    (node.setLiveCount count) :=
  write rfl rfl rfl rfl (fun _ => id) (fun _ => id) rfl

theorem setAdefer (node : Node) (adefer : List Acceptor) :
    Beside start event node (node.setAdefer adefer) :=
  write rfl rfl rfl rfl (fun _ => id) (fun _ => id) rfl

/-- Attaching a channel happens beside the log. -/
theorem attachChannel (node : Node) (paxid : Nat) (chan : Option PeerId) :
    Beside start event node (attachChannel node paxid chan) := by
  cases chan with
  | none => exact setPeer node paxid none
  | some peer =>
    exact (((refl node).emit (.watch peer)).trans (setPeer _ _ _)).trans (setLiveCount _ _)

end Beside

namespace Outer

/-- Doing nothing is an outer move. -/
theorem refl (node : Node) : Outer start event node node := ⟨.refl node, rfl⟩

/-- Outer moves compose. -/
theorem trans {node mid next : Node} (first : Outer start event node mid)
    (second : Outer start event mid next) : Outer start event node next :=
  ⟨first.toBeside.trans second.toBeside, second.roster.trans first.roster⟩

/-- Effects of the side kind may follow an outer move. -/
theorem tell {node mid : Node} (outer : Outer start event node mid) (effects : List Effect)
    (sides : ∀ effect ∈ effects, Side start event node [] effect) :
    Outer start event node { mid with out := mid.out ++ effects } :=
  ⟨outer.toBeside.tell effects sides, outer.roster⟩

/-- One effect of the side kind may follow an outer move. -/
theorem emit {node mid : Node} {effect : Effect} (outer : Outer start event node mid)
    (side : Side start event node [] effect) : Outer start event node (mid.emit effect) :=
  outer.tell [effect] (by simpa using side)

/-- A broadcast of a side message may follow an outer move. -/
theorem broadcast {node mid : Node} {msg : Msg} (outer : Outer start event node mid)
    (side : msg.side = true)
    (known : Sourced start event node [] msg.body) :
    Outer start event node (paxosBroadcast mid msg) := by
  refine outer.tell _ ?_
  intro effect mem
  obtain ⟨acc, -, sent⟩ := List.mem_filterMap.mp mem
  obtain ⟨peer, -, rfl⟩ := Option.map_eq_some_iff.mp sent
  exact .send peer msg side known

/-- A write to the fields beside the core is an outer move when it invents no request. -/
theorem write {node next : Node} (core : next.pax.core = node.pax.core)
    (roster : next.pax.roster = node.pax.roster) (reqId : next.pax.reqId = node.pax.reqId)
    (rcache : next.pax.rcache = node.pax.rcache)
    (clist : ∀ k ∈ next.pax.clist, k ∈ node.pax.clist)
    (script : ∀ visit ∈ next.script, visit ∈ node.script) (out : next.out = node.out) :
    Outer start event node next where
  toBeside := by
    have same : next.pax.alist = node.pax.alist := congrArg Roster.alist roster
    exact .write core (congrArg (List.map Acceptor.identity) same) reqId rcache clist script out
  roster := roster

theorem setSync (node : Node) (sync : Option Sync) : Outer start event node (node.setSync sync) :=
  write rfl rfl rfl rfl (fun _ => id) (fun _ => id) rfl

/-- A visit of the client is over once its calls are taken. -/
theorem popScript {node : Node} {visit : Visit} {rest : List Visit}
    (script : node.script = visit :: rest) :
    Outer start event node { node with script := rest } :=
  write rfl rfl rfl rfl (fun _ => id)
    (fun _ mem => by rw [script]; exact List.mem_cons_of_mem _ mem) rfl

/-- Counting a request is an outer move. -/
theorem bumpReqId (node : Node) : Outer start event node node.bumpReqId where
  roster := rfl
  core := rfl
  members := rfl
  counted := Nat.le_succ _
  stored := fun _ => id
  ordered := id
  pending := fun _ mem => Or.inl mem
  script := fun _ => id
  traced := ⟨[], [], .none rfl rfl⟩

/-- An insertion into a cache leaves what is there, and adds at most the request itself. -/
theorem requestInsert_split (cache : List Request) (req : Request) :
    requestInsert cache req = cache ∨ ∃ lower upper, cache = lower ++ upper ∧
      requestInsert cache req = lower ++ req :: upper := by
  unfold requestInsert SortedList.insertRev
  -- The scan backwards splits the reversed cache where the request belongs.
  cases made : SortedList.insertDown reqidCompare (fun req => req.val.reqid) req
      cache.reverse with
  | none => exact Or.inl rfl
  | some down =>
    obtain ⟨upper, lower, split, rfl, -⟩ := SortedList.insertDown_split made
    refine Or.inr ⟨lower.reverse, upper.reverse, ?_, ?_⟩
    · rw [← List.reverse_append, ← split, List.reverse_reverse]
    · simp

/-- Whatever is cached after an insertion was cached before, or is the request itself. -/
theorem mem_requestInsert {cache : List Request} {req other : Request}
    (mem : other ∈ requestInsert cache req) : other ∈ cache ∨ other = req := by
  -- The cache is the same, or is split around the request.
  rcases requestInsert_split cache req with same | ⟨lower, upper, whole, split⟩
  · rw [same] at mem
    exact Or.inl mem
  · rw [split, List.mem_append, List.mem_cons] at mem
    rw [whole, List.mem_append]
    tauto

/-- An insertion loses nothing. -/
theorem mem_requestInsert_of_mem {cache : List Request} {other : Request} (req : Request)
    (mem : other ∈ cache) : other ∈ requestInsert cache req := by
  -- The cache is the same, or is split around the request.
  rcases requestInsert_split cache req with same | ⟨lower, upper, whole, split⟩
  · rw [same]
    exact mem
  · rw [whole, List.mem_append] at mem
    rw [split, List.mem_append, List.mem_cons]
    tauto

/-- An insertion keeps the order of a cache. -/
theorem requestInsert_catalogued {cache : List Request} (req : Request)
    (order : Catalogued cache) : Catalogued (requestInsert cache req) := by
  unfold requestInsert
  cases made : SortedList.insertRev reqidCompare (fun req => req.val.reqid) req cache with
  | none => exact order
  | some inserted => exact SortedList.insertRev_ascending order made

/-- Caching a request of a known source may follow an outer move. -/
theorem cacheRequest {node mid : Node} {req : Request} (outer : Outer start event node mid)
    (source : Source start event node [] req) :
    Outer start event node (mid.setRcache (requestInsert mid.pax.rcache req)) where
  roster := outer.roster
  core := outer.core
  members := outer.members
  counted := outer.counted
  stored := fun other mem => mem_requestInsert_of_mem req (outer.stored other mem)
  ordered := fun order => requestInsert_catalogued req (outer.ordered order)
  pending := outer.pending
  script := outer.script
  traced := by
    obtain ⟨made, effects, traced⟩ := outer.traced
    refine ⟨made, effects, traced.issued.later (Nat.le_refl _),
      fun other mem => ?_, traced.out, traced.sides⟩
    -- A request that is new to the cache has the source that is given.
    rcases mem_requestInsert mem with old | rfl
    · exact traced.cached other old
    · exact source.more fun _ mem => absurd mem List.not_mem_nil

/-- Making a request of a call is an outer move, which may cache it and send it around. -/
theorem issue {node : Node} {call : ClientCall} {req : Request} {cache : List Request}
    (called : Calls start event call)
    (made : req = requestOf node.pax.selfId (node.pax.reqId + 1) call)
    (kept : cache = node.pax.rcache ∨ cache = requestInsert node.pax.rcache req)
    (hdr : Header) (opcode : hdr.opcode = .request) (peers : List PeerId) :
    Outer start event node
      { node.bumpReqId with
        pax.rcache := cache
        out := node.out ++ peers.map fun peer => .send peer ⟨hdr, .request req⟩ } where
  roster := rfl
  core := rfl
  members := rfl
  counted := Nat.le_succ _
  stored := by
    -- The request is new, so it can only be added to what is cached.
    intro other mem
    rcases kept with rfl | rfl
    · exact mem
    · exact mem_requestInsert_of_mem req mem
  ordered := by
    intro order
    rcases kept with rfl | rfl
    · exact order
    · exact requestInsert_catalogued req order
  pending := fun _ mem => Or.inl mem
  script := fun _ => id
  traced := by
    have gen : req.val.reqid.gen = node.pax.reqId + 1 := by rw [made]; rfl
    have own : Source start event node [req] req := .own (List.mem_singleton_self _)
    refine ⟨[req], _, ⟨List.pairwise_singleton _ _, ?_, ?_⟩, ?_, rfl, ?_⟩
    · rintro other mem
      obtain rfl := List.mem_singleton.mp mem
      rw [gen]
      exact ⟨Nat.lt_succ_self _, Nat.le_refl _⟩
    · rintro other mem
      obtain rfl := List.mem_singleton.mp mem
      exact ⟨call, called, by rw [gen]; exact made⟩
    · intro other mem
      rcases kept with rfl | rfl
      · exact .cached mem
      · rcases mem_requestInsert mem with old | rfl
        · exact .cached old
        · exact own
    · intro effect mem
      obtain ⟨peer, -, rfl⟩ := List.mem_map.mp mem
      refine .send peer _ ?_ own
      simp [Msg.side, opcode, Opcode.side, shaped]

/-- Asking the client for a connection is an outer move. -/
theorem connect {node : Node} {purpose : Purpose} {acc : Acceptor}
    (expects : Expects node.pax event
      { handle := node.pax.nextHandle, purpose := purpose, paxid := acc.paxid }) :
    Outer start event node (node.connect purpose acc) where
  roster := rfl
  core := rfl
  members := rfl
  counted := Nat.le_refl _
  stored := fun _ => id
  ordered := id
  pending := by
    -- What waits is an older attempt, or the one that was just made.
    intro k mem
    rcases List.mem_append.mp mem with old | fresh
    · exact Or.inl old
    · right
      obtain rfl := List.mem_singleton.mp fresh
      exact expects
  script := fun _ => id
  traced := ⟨[], _, .none, fun _ mem => .cached mem, rfl, by simpa using .connect _ _⟩

/-- Destroying a peer is an outer move. -/
theorem peerDestroy (node : Node) (peer : Option PeerId) :
    Outer start event node (peerDestroy node peer) := by
  cases peer with
  | none => exact refl node
  | some peer => exact (refl node).emit (.close peer)

end Outer

namespace Prior

variable {start node mid : Node}

/-- What leaves the channels alone is a beginning too. -/
theorem of_outer (outer : Outer start event start node) : Prior start event node :=
  ⟨outer.toBeside, outer.roster ▸ .same⟩

/-- A handler that has done nothing yet. -/
theorem refl (start : Node) : Prior start event start := of_outer (.refl start)

/-- A beginning may go on with an outer move. -/
theorem outer (prior : Prior start event node) (outer : Outer start event node mid) :
    Prior start event mid :=
  ⟨prior.toBeside.trans outer.toBeside, outer.roster ▸ prior.opened⟩

/-- Attaching a channel is how a continuation begins. -/
theorem attachChannel {purpose : Purpose} {acc : Acceptor} {chan : Option PeerId}
    (continues : Continues start.pax event purpose acc chan)
    (attaches : Attaches start.pax acc purpose) :
    Prior start event (attachChannel start acc.paxid chan) :=
  ⟨.attachChannel start acc.paxid chan, .attach continues attaches⟩

end Prior

end Motmot
