import Motmot.Proofs.Paxos.Stock
import Motmot.Proofs.Paxos.Welcome
import Motmot.System.Schedule

/-! What is marked as cached stays in the cache until it is learned or truncated. -/

namespace Motmot

variable {start : Node} {event : Event}

/-- A lookup in a catalogued cache finds exactly what is there. -/
theorem Catalogued.find_isSome {cache : List Request} (order : Catalogued cache) {reqid : ReqId} :
    (requestFind cache reqid).isSome = true ↔ ∃ req ∈ cache, req.val.reqid = reqid := by
  -- The cache is sorted, so a search for what is there does not stop early.
  constructor
  · intro found
    obtain ⟨req, found⟩ := Option.isSome_iff_exists.mp found
    exact ⟨req, SortedList.findFwd_mem found⟩
  · rintro ⟨req, mem, rfl⟩
    have found : requestFind cache req.val.reqid = some req :=
      SortedList.findFwd_of_mem order mem
    rw [found]
    rfl

/-- Requests that stay are found as before. -/
theorem Supplied.mono {pax next : Session} {val : Value} (supplied : Supplied pax val)
    (order : Catalogued pax.rcache) (stored : ∀ req ∈ pax.rcache, req ∈ next.rcache)
    (ordered : Catalogued next.rcache) : Supplied next val := by
  intro needs
  obtain ⟨req, mem, same⟩ := order.find_isSome.mp (supplied needs)
  exact ordered.find_isSome.mpr ⟨req, stored req mem, same⟩

/-- What is cached is committed, and has its request as long as it is not learned. -/
structure Provided (pax : Session) : Prop where
  committed : ∀ inst, pax.ilist.Allots inst → inst.cached = true → inst.committed = true
  supplied : ∀ inst, pax.ilist.Allots inst → inst.cached = true → inst.learned = false →
    Supplied pax inst.val
  ordered : Catalogued pax.rcache

/-- An instance is cached only if another one was, from which it keeps its value and its marks. -/
structure Instance.Tracks (old inst : Instance) : Prop where
  cached : old.cached = true
  committed : old.committed = true → inst.committed = true
  value : inst.val = old.val
  learned : inst.learned = false → old.learned = false

/-- Nothing is cached anew. -/
def Ilist.Withholds (old new : Ilist) : Prop :=
  ∀ inst, new.Allots inst → inst.cached = true → ∃ prior, old.Allots prior ∧ prior.Tracks inst

namespace Ilist.Withholds

variable {list mid new : Ilist}

/-- What comes is not cached, and the rest stays. -/
theorem of_fresh (comes : ∀ inst, new.Allots inst → list.Allots inst ∨ inst.cached = false) :
    list.Withholds new := by
  intro inst keeps cached
  rcases comes inst keeps with before | uncached
  · exact ⟨inst, before, cached, id, rfl, id⟩
  · rw [uncached] at cached
    contradiction

theorem refl (list : Ilist) : list.Withholds list := of_fresh fun _ => Or.inl

theorem trans (first : list.Withholds mid) (second : mid.Withholds new) : list.Withholds new := by
  intro inst keeps cached
  obtain ⟨prior, held, tracks⟩ := second inst keeps cached
  obtain ⟨old, heldOld, before⟩ := first prior held tracks.cached
  exact ⟨old, heldOld, before.cached, fun done => tracks.committed (before.committed done),
    tracks.value.trans before.value, fun fresh => before.learned (tracks.learned fresh)⟩

/-- A write that keeps the value and the marks of what is cached. -/
theorem modify {addr : Addr} {f : Instance → Instance}
    (tracks : ∀ inst, (f inst).cached = true → inst.Tracks (f inst)) :
    list.Withholds (list.modify addr f) := by
  intro inst keeps cached
  obtain ⟨old, held, rfl | rfl⟩ := allots_modify keeps
  · exact ⟨inst, held, cached, id, rfl, id⟩
  · exact ⟨old, held, tracks old cached⟩

/-- A write to an element that is not cached, and does not become so. -/
theorem modify_open (wf : list.WellFormed) {cell : Cell} (mem : cell ∈ list.cells)
    {f : Instance → Instance} (uncached : (f cell.inst).cached = false) :
    list.Withholds (list.modify cell.addr f) := by
  refine of_fresh fun inst keeps => ?_
  rcases wf.allots_modify mem keeps with rfl | before
  · exact Or.inr uncached
  · exact Or.inl before

end Ilist.Withholds

/-- Unpacking a vote caches nothing. -/
theorem Unpacks.withholds {vote : PackedInstance} {node mid : Node} {addr : Addr}
    (unpacks : Unpacks vote node mid addr) : node.pax.ilist.Withholds mid.pax.ilist := by
  -- A fresh scratch is not cached, and one that is written over loses the mark.
  cases unpacks with
  | fresh =>
    refine .of_fresh fun inst keeps => ?_
    rcases Ilist.allots_alloc keeps with rfl | before
    · exact Or.inr rfl
    · exact Or.inl before
  | reused => exact .modify fun _ cached => absurd cached (by simp [voteInstance])

/-- A vote caches nothing: it is unpacked as uncached. -/
theorem VoteStep.withholds {vote : PackedInstance} {node next : Node}
    (step : VoteStep vote node next) : node.pax.ilist.Withholds next.pax.ilist := by
  -- A vote that loses changes nothing; one that is linked or swapped in is not cached.
  cases step with
  | keep unpacks => exact unpacks.withholds
  | link unpacks =>
    rw [linkScratch_ilist]
    refine unpacks.withholds.trans (.of_fresh fun inst keeps => ?_)
    rcases Ilist.allots_insertAfter keeps with rfl | before
    · exact Or.inr rfl
    · exact Or.inl before
  | swap unpacks mem =>
    refine unpacks.withholds.trans (.of_fresh fun inst keeps => ?_)
    rcases Ilist.allots_swap mem keeps with rfl | before
    · exact Or.inr rfl
    · exact Or.inl before

/-- The votes of a promise cache nothing. -/
theorem Merges.withholds {node next : Node} {votes : List PackedInstance}
    (merges : Merges node votes next) : node.pax.ilist.Withholds next.pax.ilist := by
  induction merges with
  | nil => exact .refl _
  | cons step _ ih => exact step.withholds.trans ih

/-- An insertion of a free number caches nothing. -/
theorem Ilist.WellFormed.withholds_insert {list : Ilist} (wf : list.WellFormed) {fresh : Instance}
    (free : ∀ cell ∈ list.cells, cell.inum ≠ fresh.hdr.inum) (uncached : fresh.cached = false) :
    list.Withholds (list.insert fresh) := by
  refine .of_fresh fun inst keeps => ?_
  rcases wf.allots_insert free keeps with rfl | before
  · exact Or.inr uncached
  · exact Or.inl before

/-- A decree is not cached when it is made. -/
theorem announceDecree_withholds {node : Node} (inst : Instance) (wf : node.pax.ilist.WellFormed) :
    node.pax.ilist.Withholds (announceDecree node inst).pax.ilist := by
  show node.pax.ilist.Withholds
    (instanceInsertAndUpstart node (decreeOf node.pax inst)).pax.ilist
  rw [instanceInsertAndUpstart_ilist]
  exact wf.withholds_insert (decreeOf_free wf inst) rfl

@[simp] theorem announceDecree_rcache (node : Node) (inst : Instance) :
    (announceDecree node inst).pax.rcache = node.pax.rcache := by
  obtain ⟨_, _, same⟩ := instanceInsertAndUpstart_eq node (decreeOf node.pax inst)
  exact congrArg (fun node => node.pax.rcache) same

@[simp] theorem enlist_rcache (node : Node) (inum : Nat) (req : Request) :
    (enlist node inum req).pax.rcache = node.pax.rcache := by
  unfold enlist
  cases acceptorFind node.pax.adefer inum <;> rfl

@[simp] theorem learnt_rcache (node : Node) (addr : Addr) (inst : Instance)
    (req : Option Request) : (learnt node addr inst req).pax.rcache = node.pax.rcache := by
  unfold learnt
  split
  · exact enlist_rcache _ _ _
  · rfl

@[simp] theorem delist_rcache (node : Node) (paxid : Nat) :
    (delist node paxid).pax.rcache = node.pax.rcache := by
  -- The part touches no request.
  have kept : ∀ (node : Node) (count : Nat),
      (node.setLiveCount count).pax.rcache = node.pax.rcache := fun _ _ => rfl
  unfold delist
  split
  · rw [kept]
    rfl
  · rfl

namespace Provided

variable {pax next : Session}

/-- What caches nothing and frees nothing. -/
theorem withhold (provided : Provided pax) (ilist : pax.ilist.Withholds next.ilist)
    (stored : ∀ req ∈ pax.rcache, req ∈ next.rcache) (ordered : Catalogued next.rcache) :
    Provided next := by
  constructor
  · -- What is cached afterwards was cached before, with the same value.
    intro inst keeps cached
    obtain ⟨old, held, tracks⟩ := ilist inst keeps cached
    exact tracks.committed (provided.committed old held tracks.cached)
  · intro inst keeps cached unlearned
    obtain ⟨old, held, tracks⟩ := ilist inst keeps cached
    rw [tracks.value]
    exact (provided.supplied old held tracks.cached (tracks.learned unlearned)).mono
      provided.ordered stored ordered
  · exact ordered

/-- What leaves the cache alone. -/
theorem keep (provided : Provided pax) (rcache : next.rcache = pax.rcache)
    (ilist : pax.ilist.Withholds next.ilist) : Provided next := by
  refine provided.withhold ilist ?_ ?_
  · rw [rcache]
    exact fun _ => id
  · rw [rcache]
    exact provided.ordered

/-- What happens beside the log. -/
theorem beside {node mid : Node} (provided : Provided node.pax)
    (beside : Beside start event node mid) :
    Provided mid.pax :=
  provided.withhold (beside.ilist ▸ .refl _) beside.stored (beside.ordered provided.ordered)

/-- An instance that is marked cached once its request is there. -/
theorem finishCommit {node : Node} {cell : Cell} (provided : Provided node.pax)
    (wf : node.pax.ilist.WellFormed) (mem : cell ∈ node.pax.ilist.cells)
    (known : Supplied node.pax cell.inst.val) : Provided (finishCommit node cell.addr).pax := by
  -- The one instance that is marked has its request, as the commit has found.
  have wfNext := finishCommit_wellFormed wf mem
  have marks : ∀ inst, (Motmot.finishCommit node cell.addr).pax.ilist.Allots inst →
      inst = markCached (markCommitted cell.inst) ∨ node.pax.ilist.Allots inst := by
    intro inst keeps
    rcases keeps with ⟨other, memOther, rfl⟩ | ⟨gone, memGone, rfl⟩
    · rcases (mem_finishCommit wf mem).mp memOther with rfl | ⟨before, -⟩
      · exact Or.inl rfl
      · exact Or.inr (Ilist.allots_of_mem before)
    · -- What is off the list is not written.
      have off : ∀ gone ∈ node.pax.ilist.limbo, gone.cell.addr ≠ cell.addr :=
        fun gone memGone => (wf.apart cell mem gone memGone).symm
      have still := Ilist.modify_limbo markCommitted off
      have same : (Motmot.finishCommit node cell.addr).pax.ilist.limbo =
          node.pax.ilist.limbo := by
        rw [finishCommit_ilist, Ilist.modify_limbo markCached, still]
        rw [still]
        exact off
      rw [same] at memGone
      exact Or.inr (Or.inr ⟨gone, memGone, rfl⟩)
  constructor
  · -- What is cached is the one that was marked, or it was cached before.
    intro inst keeps cached
    rcases marks inst keeps with rfl | before
    · rfl
    · exact provided.committed inst before cached
  · intro inst keeps cached unlearned
    rcases marks inst keeps with rfl | before
    · exact known
    · exact provided.supplied inst before cached unlearned
  · exact provided.ordered

end Provided

/-- Moves from within a learn mark as cached what has its request. -/
theorem Nest.provided {node next : Node} (act : Nest start event node next)
    (wf : node.pax.ilist.WellFormed) (provided : Provided node.pax) : Provided next.pax := by
  -- Only the end of a commit marks anything as cached.
  cases act with
  | outer outer => exact provided.beside outer.toBeside
  | defer prior =>
    have before := provided.beside prior.toBeside
    exact before.keep rfl (.refl _)
  | decree prior =>
    exact (provided.beside prior.toBeside).keep (announceDecree_rcache _ _)
      (announceDecree_withholds _ (prior.wellFormed wf))
  | announce => exact provided.keep rfl (.modify fun _ cached => ⟨cached, id, rfl, id⟩)
  | commit => exact provided.keep rfl (.modify fun _ cached => ⟨cached, fun _ => rfl, rfl, id⟩)
  | cache mem _ known => exact provided.finishCommit wf mem known
  | aim mem _ known =>
    have marked := provided.finishCommit wf mem known
    exact marked.keep rfl (.refl _)
  | prepare => exact provided.keep rfl (.refl _)

/-- Events whose truncations leave the requests of what is cached and not learned. -/
def Lasting (pax : Session) (event : Event) : Prop :=
  ∀ bound, Truncates pax event bound → ∀ freed ∈ pax.ilist.below bound,
    ∀ cell ∈ (pax.ilist.dropBelow bound).cells, cell.inst.cached = true →
      cell.inst.learned = false → requestNeedsCached cell.inst.val.dkind = true →
        cell.inst.val.reqid ≠ freed.inst.val.reqid

/-- A truncation keeps the order of the cache. -/
theorem Catalogued.dropRequests {cache : List Request} (order : Catalogued cache)
    (cells : List Cell) : Catalogued (dropRequests cache cells) := by
  unfold Motmot.dropRequests
  induction cells generalizing cache with
  | nil => exact order
  | cons cell rest ih => exact ih (List.Pairwise.filter _ order)

/-- A lasting truncation leaves what is cached provided. -/
theorem Provided.truncate {node : Node} {bound : Nat} (provided : Provided node.pax)
    (wf : node.pax.ilist.WellFormed) (same : node.pax.ilist = start.pax.ilist)
    (lasting : Lasting start.pax event) (truncates : Truncates start.pax event bound) :
    Provided (ilistTruncatePrefix { node with pax.ibase := bound } bound).pax := by
  -- A truncation keeps the requests of what is cached and not learned: that makes it lasting.
  have order : Catalogued (dropRequests node.pax.rcache (node.pax.ilist.below bound)) :=
    provided.ordered.dropRequests _
  constructor
  · intro inst keeps cached
    exact provided.committed inst (Ilist.allots_dropBelow keeps) cached
  · intro inst keeps cached unlearned needs
    have before := Ilist.allots_dropBelow keeps
    -- What is off the list was never committed, let alone cached.
    obtain ⟨cell, mem, rfl⟩ : ∃ cell ∈ (node.pax.ilist.dropBelow bound).cells,
        cell.inst = inst := by
      rcases keeps with listed | ⟨gone, mem, rfl⟩
      · exact listed
      · have committed := provided.committed _ before cached
        rw [wf.idle gone mem] at committed
        contradiction
    obtain ⟨req, memReq, named⟩ :=
      provided.ordered.find_isSome.mp (provided.supplied cell.inst before cached unlearned needs)
    refine order.find_isSome.mpr ⟨req, mem_dropRequests.mpr ⟨memReq, ?_⟩, named⟩
    intro freed memFreed
    rw [named]
    rw [same] at mem memFreed
    exact lasting bound truncates freed memFreed cell mem cached unlearned needs
  · exact order

/-- What is not committed is not cached either. -/
theorem Provided.uncached {pax : Session} (provided : Provided pax) {cell : Cell}
    (mem : cell ∈ pax.ilist.cells) (uncommitted : cell.inst.committed = false) :
    cell.inst.cached = false := by
  have done := provided.committed cell.inst (Ilist.allots_of_mem mem)
  rw [uncommitted] at done
  simpa using done

/-- An accepted decree is not cached. -/
theorem Stores.provided {hdr : Header} {val : Value} {node next : Node}
    (stores : Stores hdr val node next) (wf : node.pax.ilist.WellFormed)
    (provided : Provided node.pax) : Provided next.pax := by
  -- By how the decree is stored; what is taken over was not committed, so not cached.
  cases stores with
  | fresh absent =>
    obtain ⟨_, _, same⟩ := instanceInsertAndUpstart_eq node (freshInstance hdr val)
    refine provided.keep (by rw [same]) ?_
    rw [instanceInsertAndUpstart_ilist]
    exact wf.withholds_insert (wf.find_eq_none.mp absent) rfl
  | held => exact provided
  | adopted found uncommitted =>
    obtain ⟨mem, -⟩ := wf.find_eq_some.mp found
    exact provided.keep rfl (.modify_open wf mem (provided.uncached mem uncommitted))

/-- Moves of the handler of a lasting event leave what is cached provided. -/
theorem Top.provided {node next : Node} (act : Top start event node next)
    (lasting : Lasting start.pax event) (wf : node.pax.ilist.WellFormed)
    (init : Provided start.pax) (provided : Provided node.pax) : Provided next.pax := by
  -- Most moves cache nothing and free nothing; the truncation is what the event is lasting for.
  cases act with
  | beside prior => exact provided.beside prior.toBeside
  | depose _ prior _ _ replaces =>
    obtain ⟨_, _, _, same⟩ := replaces.eq
    have before := init.beside prior.toBeside
    rw [same]
    exact before.keep rfl (.refl _)
  | promise =>
    rw [acceptorPromise_pax]
    exact provided.keep rfl (.refl _)
  | store _ _ _ _ stores => exact stores.provided wf provided
  | accept _ _ _ _ stores => exact stores.provided wf provided
  | commitFresh _ _ _ absent => exact (Stores.fresh absent).provided wf provided
  | commitOver _ _ _ found uncommitted =>
    obtain ⟨mem, -⟩ := wf.find_eq_some.mp found
    exact provided.keep rfl (.modify_open wf mem (provided.uncached mem uncommitted))
  | recommitOver _ _ _ found uncommitted =>
    obtain ⟨mem, -⟩ := wf.find_eq_some.mp found
    exact provided.keep rfl (.modify_open wf mem (provided.uncached mem uncommitted))
  | vote => exact provided.keep rfl (.modify fun _ cached => ⟨cached, id, rfl, id⟩)
  | reject => exact provided.keep rfl (.modify fun _ cached => ⟨cached, id, rfl, id⟩)
  | rebroadcast => exact provided.keep rfl (.refl _)
  | rewrite =>
    refine provided.keep rfl (.modify fun _ cached => ?_)
    simp [redecreeRejected, instanceInitMetadata] at cached
  | merge _ _ _ _ _ _ merges =>
    obtain ⟨_, _, same⟩ := merges.eq
    exact provided.keep (by rw [same]) merges.withholds
  | ack => exact provided.keep rfl (.refl _)
  | win => exact provided.keep rfl (.refl _)
  -- The null that fills a gap is not cached.
  | @fill _ _ _ place _ inum =>
    obtain ⟨_, same⟩ := linkScratch_eq (node.bumpReqId.setIlist (node.bumpReqId.pax.ilist.alloc
      (nullInstance node.bumpReqId.pax inum))) place.addr
        ⟨nextAddr node.bumpReqId, nullInstance node.bumpReqId.pax inum⟩
    have filled : fillNull node place.addr inum = _ := same
    have linked : node.pax.ilist.Withholds (fillNull node place.addr inum).pax.ilist := by
      rw [filled]
      refine .of_fresh fun inst keeps => ?_
      rcases Ilist.allots_insertAfter keeps with rfl | keeps
      · exact Or.inr rfl
      · rcases Ilist.allots_alloc keeps with rfl | before
        · exact Or.inr rfl
        · exact Or.inl before
    refine provided.keep (congrArg (fun node => node.pax.rcache) filled)
      (linked.trans (.modify fun _ cached => ?_))
    simp [redecreed, instanceInitMetadata] at cached
  -- A decree made again starts uncached.
  | redecree =>
    refine provided.keep rfl (.modify fun _ cached => ?_)
    simp [redecreed, instanceInitMetadata] at cached
  | settle => exact provided.keep rfl (.refl _)
  | @undefer _ inst rest =>
    exact provided.keep (announceDecree_rcache (node.setIdefer rest) inst)
      (@announceDecree_withholds (node.setIdefer rest) inst wf)
  | redirect => exact provided.keep rfl (.refl _)
  | rebegin => exact provided.keep rfl (.refl _)
  | @yieldRedirect mid acc _ prior =>
    obtain ⟨_, same⟩ := yieldTo_writes mid acc
    have before := provided.beside prior.toBeside
    rw [same]
    exact before.keep rfl (.refl _)
  | @yieldRefuse mid _ acc _ prior =>
    obtain ⟨_, same⟩ := yieldTo_writes mid acc
    have before := provided.beside prior.toBeside
    rw [same]
    exact before.keep rfl (.refl _)
  | helloYield prior =>
    have before := provided.beside prior.toBeside
    split
    · exact before.keep rfl (.refl _)
    · exact before.keep rfl (.refl _)
  | helloBallot => exact provided.keep rfl (.refl _)
  | truncate prior truncates => exact provided.truncate wf prior.ilist lasting truncates
  | recommit => exact provided.keep rfl (.refl _)
  | welcome => exact provided.keep rfl (.refl _)

/-- Every move of the handler of a lasting event leaves what is cached provided. -/
theorem Move.provided {config after : Config} (move : Move start event config after)
    (lasting : Lasting start.pax event) (wf : config.node.pax.ilist.WellFormed)
    (init : Provided start.pax) (provided : Provided config.node.pax) :
    Provided after.node.pax := by
  -- Learning marks an instance as learned and needs its request no more.
  cases move with
  | top act => exact act.provided lasting wf init provided
  | inner move =>
    cases move with
    | nest _ act => exact act.provided wf provided
    | learn =>
      refine provided.keep (learnt_rcache _ _ _ _) ?_
      rw [learnt_ilist]
      exact .modify fun _ cached => ⟨cached, id, rfl, fun unlearned => by contradiction⟩
    | delist => exact provided.keep (delist_rcache _ _) (by rw [delist_ilist]; exact .refl _)
    | @depose node _ _ paxid _ _ _ replaces =>
      obtain ⟨_, _, _, same⟩ := replaces.eq
      have before : Provided (delist node paxid).pax :=
        provided.keep (delist_rcache _ _) (by rw [delist_ilist]; exact .refl _)
      rw [same]
      exact before.keep rfl (.refl _)
    | enter => exact provided
    | next => exact provided.keep rfl (.refl _)
    | last => exact provided.keep rfl (.refl _)
    | gap => exact provided.keep rfl (.refl _)
    | rest => exact provided.keep rfl (.refl _)

/-- A handler of a lasting event keeps what is cached provided, and never finds it missing. -/
theorem Handles.provided {node : Node} {result : Result} (handles : Handles node event result)
    (lasting : Lasting node.pax event) (wf : node.pax.ilist.WellFormed)
    (provided : Provided node.pax) :
    (∀ next, result = .ok next → Provided next.pax) ∧
      ∀ halted, result ≠ .stop (.failed .learnCached) halted := by
  -- Every move of a lasting event keeps the cache provided.
  have kept := @Handles.invariant _ _ _ (fun config => Provided config.node.pax) handles wf
    (fun _ => provided) fun {script config after} move wf before =>
      @Move.provided { node with script := script } event config after move lasting wf provided
        before
  refine ⟨kept.1, ?_⟩
  intro halted failed
  -- A handler that starves has found a cached instance without its request.
  obtain ⟨reached, before, -, halts⟩ := kept.2 _ halted failed
  obtain ⟨addr, inst, held, cached, unlearned, missing⟩ := halts.starved rfl
  exact missing (before.supplied inst (Ilist.allots_of_inst? held) cached unlearned)

/-- The acceptors of a welcome come without requests. -/
theorem welcomeAcceptors_rcache {source : PeerId} {hdr : Header} {alist : List PackedAcceptor}
    {node : Node} : (welcomeAcceptors source hdr node alist).pax.rcache = node.pax.rcache := by
  -- By induction on the acceptors of the welcome.
  induction alist generalizing node with
  | nil => rfl
  | cons packed rest ih =>
    unfold welcomeAcceptors
    simp only
    split
    · exact ih
    · split
      · exact ih
      · exact ih

/-- A session begins with nothing that is cached and not learned. -/
theorem Begins.provided {fits : Welcome → Prop} {node : Node} {first : Nat}
    (begins : Begins fits node first) : Provided node.pax := by
  -- The founder's join needs no request.
  cases begins with
  | start =>
    refine ⟨?_, ?_, List.pairwise_singleton _ _⟩
    · rintro inst (⟨cell, mem, rfl⟩ | ⟨_, mem, -⟩) _
      · obtain rfl := List.mem_singleton.mp mem
        rfl
      · contradiction
    · rintro inst (⟨cell, mem, rfl⟩ | ⟨_, mem, -⟩) _ unlearned
      · obtain rfl := List.mem_singleton.mp mem
        contradiction
      · contradiction
  | welcome welcome =>
    obtain ⟨run, rest, whole, contiguous, cells, -⟩ := welcome.scan
    -- The prefix is taken as learned, and what is behind it comes without a request.
    have marks : ∀ inst, welcome.node.pax.ilist.Allots inst → inst.cached = true →
        inst.committed = true ∧ inst.learned = true := by
      rintro inst (⟨cell, mem, rfl⟩ | ⟨_, mem, -⟩) cached
      · rw [cells] at mem
        rcases List.mem_append.mp mem with mem | mem
        · obtain ⟨prior, memRun, rfl⟩ := List.mem_map.mp mem
          exact ⟨(contiguous.inum prior memRun).2.2, rfl⟩
        · obtain ⟨-, -, packed, -, same⟩ :=
            mem_welcomeCells (whole ▸ List.mem_append_right run mem)
          rw [same] at cached
          contradiction
      · contradiction
    have empty : welcome.node.pax.rcache = [] := welcomeAcceptors_rcache
    refine ⟨fun inst keeps cached => (marks inst keeps cached).1, ?_, ?_⟩
    · intro inst keeps cached unlearned
      rw [(marks inst keeps cached).2] at unlearned
      contradiction
    · rw [empty]
      exact List.Pairwise.nil

/--
In a run of lasting events every instance that is cached and not learned has its request, which the
learning loop therefore never misses.
-/
theorem cached_available {begun node : Node} {first : Nat}
    (begins : Begins (fun _ => True) begun first) (run : Runs Lasting begun node) :
    (∀ cell ∈ node.pax.ilist.cells, cell.inst.learned = false → cell.inst.cached = true →
      requestNeedsCached cell.inst.val.dkind = true →
        ∃ req ∈ node.pax.rcache, req.val.reqid = cell.inst.val.reqid) ∧
      ∀ event result, Lasting node.pax event → Handles node event result →
        ∀ halted, result ≠ .stop (.failed .learnCached) halted := by
  -- Both are invariant along the run.
  obtain ⟨wf, provided⟩ : node.pax.ilist.WellFormed ∧ Provided node.pax := by
    refine @Runs.invariant _ _ _ (fun node => node.pax.ilist.WellFormed ∧ Provided node.pax) run
      ⟨begins.wellFormed, begins.provided⟩ ?_
    rintro node event next lasting handles ⟨wf, provided⟩
    exact ⟨handles.wellFormed wf, (handles.provided lasting wf provided).1 next rfl⟩
  constructor
  · -- A request that an instance needs is found under its name.
    intro cell mem unlearned cached needs
    have supplied := provided.supplied cell.inst (Ilist.allots_of_mem mem) cached unlearned
    exact provided.ordered.find_isSome.mp (supplied needs)
  · intro event result lasting handles
    exact (handles.provided lasting wf provided).2

/-- Logs are truncated by what a proposer says, and by the last answers to it. -/
theorem Lasting.quiet {pax : Session} {event : Event}
    (quiet : ∀ source hdr body, event = .message source ⟨hdr, body⟩ →
      hdr.opcode ≠ .truncate ∧ hdr.opcode ≠ .last) : Lasting pax event := by
  rintro bound (⟨source, hdr, asked, opcode, -⟩ | ⟨source, hdr, _, _, asked, opcode, -⟩)
  · exact absurd opcode (quiet source hdr _ asked).1
  · exact absurd opcode (quiet source hdr _ asked).2

/--
The second member has the chat cached behind a decree that is not committed, and has its data.

The accept of that decree makes it learn the chat, for which the data are there.
-/
theorem cached_available_successor :
    (∃ cell ∈ successor.waiting.pax.ilist.cells, cell.inst.cached = true ∧
      cell.inst.learned = false ∧ cell.inst.val.reqid = ⟨1, 4⟩ ∧
        ∃ req ∈ successor.waiting.pax.rcache, req.val.reqid = cell.inst.val.reqid) ∧
      ∀ result halted, Handles successor.waiting (successor.accept 4) result →
        result ≠ .stop (.failed .learnCached) halted := by
  -- Neither the messages up to here nor the accept truncate, so the run is lasting.
  have begins : Begins (fun _ => True) successor.node _ := .welcome successor trivial
  have run : Runs Lasting successor.node successor.waiting :=
    successor.decides (.quiet (by simp)) (.quiet (by simp)) (.quiet (by simp [successor.promise]))
      (.quiet (by simp [successor.accept])) (.quiet (by simp [successor.resend]))
  obtain ⟨supplied, safe⟩ := cached_available begins run
  constructor
  · have chat : ∃ cell ∈ successor.waiting.pax.ilist.cells, cell.inst.cached = true ∧
        cell.inst.learned = false ∧ cell.inst.val.reqid = ⟨1, 4⟩ ∧
          requestNeedsCached cell.inst.val.dkind = true := by decide +kernel
    obtain ⟨cell, mem, cached, unlearned, asked, needs⟩ := chat
    exact ⟨cell, mem, cached, unlearned, asked, supplied cell mem unlearned cached needs⟩
  · intro result halted handles
    exact safe _ result (.quiet (by simp [successor.accept])) handles halted

/--
A chat is decreed twice, and the truncation of the first instance frees the data of the second.

The third acceptor has committed and cached the second one, and waits for another chat in front of
it, whose data it has not got yet.
-/
theorem cached_freed : ∃ sys, System.Reachable sys ∧
    ∃ node ∈ (sys.process [3]).node, ∃ next ∈ sys.step System.quiet (.deliver 5 true),
      (∃ cell ∈ node.pax.ilist.cells, cell.inst.learned = false ∧ cell.inst.cached = true ∧
        cell.inst.val.dkind = .chat ∧
          ∀ req ∈ node.pax.rcache, req.val.reqid ≠ cell.inst.val.reqid) ∧
        (sys.process [3]).crashed = false ∧ (next.process [3]).crashed = true :=
  System.exists_played
    (System.assemble [[1], [2], [3], [4]] ++
      -- The third sends a chat, which everyone but the second learns as instance 5.
      [.steps [.client [3] { dkind := .chat, data := [9] }, .deliver 1 false, .deliver 5 false,
          .deliver 0 true, .deliver 1 true, .deliver 3 true, .deliver 1 false, .deliver 3 false,
          .deliver 1 true, .deliver 3 true],
        -- The first is lost, and the second defers a chat of the fourth and then the old one.
        .steps [.cut 0, .eof 0 true, .cut 1, .eof 1 true, .cut 3, .eof 3 true,
          .client [4] { dkind := .chat, data := [8] }, .deliver 4 true, .deliver 2 true,
          .deliver 2 false, .deliver 4 false, .deliver 2 true, .deliver 4 true],
        -- Its decrees are accepted and committed, and the third asks for the data of the fourth.
        .steps (List.replicate 4 (.deliver 2 false) ++ List.replicate 4 (.deliver 4 false) ++
          List.replicate 4 (.deliver 2 true) ++ List.replicate 4 (.deliver 4 true) ++
          List.replicate 4 (.deliver 2 false) ++ List.replicate 4 (.deliver 4 false)),
        -- A sync truncates the first instance of the old chat, and then the data arrives.
        .steps [.tick [2], .deliver 2 false, .deliver 4 false, .deliver 2 true, .deliver 4 true,
          .deliver 2 false, .deliver 5 true, .deliver 5 false]])
    (by decide +kernel)

end Motmot
