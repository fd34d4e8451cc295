import Motmot.Proofs.Paxos.Bids
import Motmot.Proofs.Paxos.Roster
import Motmot.System.Schedule

/-! The acceptor list is the roll that the learned values make, one after the other. -/

namespace Motmot

/-- The identifiers of the acceptors on the list. -/
def Session.paxids (pax : Session) : List Nat := pax.alist.map Acceptor.paxid

/-- The roll after an effect: a learned join enters its number, a part or kill strikes one. -/
def enrol (members : List Nat) : Effect → List Nat
  | .learn inum val =>
    match val.dkind with
    | .join => inum :: members
    | .part | .kill => members.filter fun paxid => paxid ≠ val.extra
    | .null | .chat => members
  | _ => members

/-- The roll after all that a session has learned. -/
def roll (members : List Nat) (effects : List Effect) : List Nat := effects.foldl enrol members

/-- The author of every chat that is learned is on the roll of what was learned before it. -/
def Authored : List Nat → List Effect → Prop
  | _, [] => True
  | members, effect :: rest =>
    (∀ inum val, effect = .learn inum val → val.dkind = .chat → val.reqid.id ∈ members) ∧
      Authored (enrol members effect) rest

variable {start : Node} {event : Event} {who : List Nat}

@[simp] theorem roll_append (first second : List Effect) :
    roll who (first ++ second) = roll (roll who first) second :=
  List.foldl_append

theorem Authored.append {first second : List Effect} : Authored who (first ++ second) ↔
    Authored who first ∧ Authored (roll who first) second := by
  induction first generalizing who with
  | nil => simp [Authored, roll]
  | cons effect rest ih =>
    rw [List.cons_append, Authored, Authored, ih, and_assoc]
    rfl

/-- Only what is learned changes the roll. -/
theorem enrol_silent {effect : Effect} (silent : effect.learned = none) :
    enrol who effect = who := by
  cases effect with
  | learn => contradiction
  | _ => rfl

/-- Effects that learn nothing leave the roll alone, and have no chats. -/
theorem roll_silent {effects : List Effect} (silent : ∀ effect ∈ effects, effect.learned = none) :
    roll who effects = who ∧ Authored who effects := by
  -- What is no learn neither enrols nor strikes anybody.
  induction effects with
  | nil => exact ⟨rfl, trivial⟩
  | cons effect rest ih =>
    have first := silent effect List.mem_cons_self
    obtain ⟨same, authored⟩ := ih fun effect mem => silent effect (List.mem_cons_of_mem _ mem)
    have still : enrol who effect = who := enrol_silent first
    constructor
    · rw [roll, List.foldl_cons, still]
      exact same
    · refine ⟨?_, by rw [still]; exact authored⟩
      intro inum val learns
      rw [learns] at first
      contradiction

/-- The author of a chat that was learned is on the roll of what came before it. -/
theorem Authored.member {effects before after : List Effect} {inum : Nat} {val : Value}
    (authored : Authored who effects) (split : effects = before ++ .learn inum val :: after)
    (kind : val.dkind = .chat) : val.reqid.id ∈ roll who before := by
  rw [split, Authored.append] at authored
  exact authored.2.1 inum val rfl kind

/-- Moves other than a learn leave the roll alone. -/
theorem Adds.enrols {before after : Node} (adds : Adds start event before after) :
    roll who after.out = roll who before.out ∧
      (Authored who before.out → Authored who after.out) := by
  obtain ⟨_, effects, ⟨-, -, -, out⟩, tells⟩ := adds
  obtain ⟨same, authored⟩ := @roll_silent (roll who before.out) effects
    fun effect mem => (tells effect mem).learned
  rw [out, roll_append, Authored.append]
  exact ⟨same, fun before => ⟨before, authored⟩⟩

theorem paxids_eq (pax : Session) : pax.paxids = pax.members.map Prod.fst := by
  rw [Session.paxids, Session.members, List.map_map]
  rfl

/-- Members are what they were as long as nobody is enlisted or delisted. -/
theorem paxids_congr {pax next : Session} (members : next.members = pax.members) :
    next.paxids = pax.paxids := by
  rw [paxids_eq, paxids_eq, members]

/-- The replacement of a proposer leaves the members alone. -/
theorem Replaces.members {node next : Node} (replaces : Replaces node next) :
    next.pax.members = node.pax.members :=
  congrArg (fun roster => roster.alist.map Acceptor.identity) replaces.roster

/-- Moves from within a learn leave the members alone. -/
theorem Nest.members {node next : Node} (act : Nest start event node next) :
    next.pax.members = node.pax.members :=
  congrArg (fun polity => polity.roster.alist.map Acceptor.identity) act.polity

/-- Giving up a prepare leaves the members alone. -/
theorem yieldTo_members (node : Node) (acc : Acceptor) :
    (yieldTo node acc).pax.members = node.pax.members := by
  obtain ⟨_, same⟩ := yieldTo_writes node acc
  rw [same]
  rfl

/-- Moves of the handler itself leave the members alone. -/
theorem Top.members {node next : Node} (act : Top start event node next) :
    next.pax.members = node.pax.members := by
  -- No move of the handler itself joins or parts anybody.
  cases act with
  | beside prior => exact prior.members
  | depose closed prior _ _ replaces =>
    exact replaces.members.trans (prior.members.trans closed.members.symm)
  | promise => rw [acceptorPromise_pax]; rfl
  | store _ _ _ _ stores =>
    obtain ⟨_, _, same⟩ := stores.eq
    rw [same]
    rfl
  | accept _ _ _ _ stores =>
    obtain ⟨_, _, same⟩ := stores.eq
    rw [same]
    rfl
  | @commitFresh _ hdr val =>
    obtain ⟨_, _, same⟩ := instanceInsertAndUpstart_eq start (freshInstance hdr val)
    rw [same]
    rfl
  | merge _ _ _ _ _ _ merges =>
    obtain ⟨_, _, same⟩ := merges.eq
    rw [same]
    rfl
  | @fill _ _ _ place _ inum =>
    obtain ⟨_, same⟩ := linkScratch_eq (node.bumpReqId.setIlist (node.bumpReqId.pax.ilist.alloc
      (nullInstance node.bumpReqId.pax inum))) place.addr
        ⟨nextAddr node.bumpReqId, nullInstance node.bumpReqId.pax inum⟩
    exact (congrArg (fun node => node.pax.members) same :
      (fillNull node place.addr inum).pax.members = _)
  | @undefer _ inst rest =>
    obtain ⟨_, _, same⟩ := instanceInsertAndUpstart_eq (node.setIdefer rest)
      (decreeOf node.pax inst)
    exact congrArg (fun node => node.pax.members) same
  | yieldRedirect prior => exact (yieldTo_members _ _).trans prior.members
  | yieldRefuse prior => exact (yieldTo_members _ _).trans prior.members
  | helloYield prior =>
    refine Eq.trans ?_ prior.members
    show Session.members (Node.pax (if _ then _ else _)) = _
    split <;> rfl
  | _ => rfl

/-- An insertion adds one identifier, which may be there already. -/
theorem Ranked.paxids_insert {list : List Acceptor} (ranked : Ranked list) (acc : Acceptor)
    (paxid : Nat) : paxid ∈ (acceptorInsert list acc).map Acceptor.paxid ↔
      paxid = acc.paxid ∨ paxid ∈ list.map Acceptor.paxid := by
  by_cases taken : ∃ x ∈ list, x.paxid = acc.paxid
  · -- The identifier is taken, so nothing is inserted.
    obtain ⟨x, mem, same⟩ := taken
    rw [ranked.insert_taken mem same]
    have listed : acc.paxid ∈ list.map Acceptor.paxid := same ▸ List.mem_map_of_mem mem
    constructor
    · exact Or.inr
    · rintro (rfl | mem)
      · exact listed
      · exact mem
  · -- Else the insertion splits the list around it.
    obtain ⟨lower, upper, rfl, inserted, -, -⟩ :=
      @Ranked.insert_split list acc ranked fun x mem same => taken ⟨x, mem, same⟩
    rw [inserted]
    simp only [List.map_append, List.map_cons, List.mem_append, List.mem_cons]
    tauto

/-- A part strikes one identifier off the list. -/
theorem delist_paxids (node : Node) (paxid : Nat) : (delist node paxid).pax.paxids =
    node.pax.paxids.filter fun other => other ≠ paxid := by
  -- The part filters the list by the identifier, in both branches.
  have alist : (delist node paxid).pax.alist =
      node.pax.alist.filter fun acc => acc.paxid ≠ paxid := by
    unfold delist
    split
    · rfl
    · rfl
  rw [Session.paxids, alist, Session.paxids, List.filter_map]
  rfl

/-- An acceptor is found on a list in order exactly if its identifier is there. -/
theorem Ranked.find_isSome {list : List Acceptor} (ranked : Ranked list) {paxid : Nat} :
    (acceptorFind list paxid).isSome = true ↔ paxid ∈ list.map Acceptor.paxid := by
  -- The search fails exactly if the identifier is on no element.
  cases found : acceptorFind list paxid with
  | none =>
    have absent := ranked.find_eq_none.mp found
    simpa using absent
  | some acc =>
    obtain ⟨mem, same⟩ := ranked.find_eq_some.mp found
    simpa using ⟨acc, mem, same⟩

/-- A loop is inside the learn that strikes a participant, who is still on the list. -/
def Leaves (loops : List Loop) (paxid : Nat) : Prop :=
  ∃ loop ∈ loops, loop.stage = .learning (some paxid)

theorem leaves_cons {it : Option Addr} {stage : Stage} {loops : List Loop} {paxid : Nat} :
    Leaves (⟨it, stage⟩ :: loops) paxid ↔ stage = .learning (some paxid) ∨ Leaves loops paxid := by
  simp [Leaves]

@[simp] theorem leaves_nil {paxid : Nat} : ¬ Leaves [] paxid := by
  simp [Leaves]

/--
The list between two moves: whoever is on the roll, and whoever a learn has still to strike.

The client hears of a part before the list changes, so the roll is ahead of the list meanwhile.
-/
structure Enrolled (first : List Nat) (config : Config) : Prop where
  listed : ∀ paxid, paxid ∈ config.node.pax.paxids ↔
    paxid ∈ roll first config.node.out ∨ Leaves config.loops paxid
  struck : ∀ paxid, Leaves config.loops paxid → paxid ∉ roll first config.node.out
  authored : Authored first config.node.out

namespace Enrolled

variable {node next : Node} {loops after : List Loop} {first : List Nat}

/-- What changes neither the list nor the roll, nor who is to be struck. -/
theorem frame (enrolled : Enrolled first ⟨node, loops⟩)
    (paxids : next.pax.paxids = node.pax.paxids)
    (same : roll first next.out = roll first node.out)
    (authored : Authored first node.out → Authored first next.out)
    (leaves : ∀ paxid, Leaves after paxid ↔ Leaves loops paxid) : Enrolled first ⟨next, after⟩ := by
  -- Nothing has changed for the three parts of the invariant.
  constructor
  · intro paxid
    show paxid ∈ next.pax.paxids ↔ paxid ∈ roll first next.out ∨ Leaves after paxid
    rw [paxids, same, leaves]
    exact enrolled.listed paxid
  · intro paxid leaving
    show paxid ∉ roll first next.out
    rw [same]
    exact enrolled.struck paxid ((leaves paxid).mp leaving)
  · exact authored enrolled.authored

/-- A learn strikes a participant from the list once the client was told. -/
theorem strike {it : Option Addr} {paxid : Nat}
    (enrolled : Enrolled first ⟨node, ⟨it, .learning (some paxid)⟩ :: loops⟩)
    (others : loops = []) (paxids : next.pax.paxids = node.pax.paxids.filter fun x => x ≠ paxid)
    (out : next.out = node.out) : Enrolled first ⟨next, ⟨it, .learning none⟩ :: loops⟩ := by
  have none_ : ∀ other, ¬ Leaves (⟨it, .learning none⟩ :: loops) other := by
    intro other
    rw [others, leaves_cons]
    simp
  have struck : paxid ∉ roll first node.out := by
    apply enrolled.struck
    rw [leaves_cons]
    exact Or.inl rfl
  -- Whoever is struck was off the roll already, and is now off the list as well.
  constructor
  · intro other
    have listed := enrolled.listed other
    simp only [leaves_cons, Stage.learning.injEq, Option.some.injEq] at listed
    show other ∈ next.pax.paxids ↔ other ∈ roll first next.out ∨ _
    rw [paxids, out, List.mem_filter, listed, others]
    simp only [leaves_nil, or_false, leaves_cons, reduceCtorEq, Stage.learning.injEq]
    constructor
    · rintro ⟨mem | rfl, differs⟩
      · exact mem
      · simp at differs
    · intro mem
      refine ⟨Or.inl mem, ?_⟩
      -- Who is on the roll is not the one to be struck.
      have differs : other ≠ paxid := fun same => struck (same ▸ mem)
      simpa using differs
  · exact fun other leaving => absurd leaving (none_ other)
  · show Authored first next.out
    rw [out]
    exact enrolled.authored

/-- A learn changes the roll by what it learns, and the client hears it behind that. -/
theorem learnt_roll (node : Node) (addr : Addr) (inst : Instance) (req : Option Request) :
    roll first (learnt node addr inst req).out =
        enrol (roll first node.out) (.learn inst.hdr.inum inst.val) ∧
      (Authored first node.out →
        (inst.val.dkind = .chat → inst.val.reqid.id ∈ roll first node.out) →
          Authored first (learnt node addr inst req).out) := by
  -- What the client hears enrols nobody, so the learn itself is the last word.
  have silent : ∀ effect ∈ heard node.pax inst.val req, effect.learned = none :=
    List.filterMap_eq_nil_iff.mp (heard_learned node.pax inst.val req)
  obtain ⟨same, authored⟩ := @roll_silent
    (enrol (roll first node.out) (.learn inst.hdr.inum inst.val)) _ silent
  rw [learnt_out, roll_append, Authored.append]
  refine ⟨same, fun before sent => ⟨before, ?_, authored⟩⟩
  intro inum val learns kind
  obtain ⟨-, rfl⟩ := Effect.learn.inj learns
  exact sent kind

@[simp] theorem noteLearn_paxids (node : Node) (addr : Addr) (inst : Instance) :
    (noteLearn node addr inst).pax.paxids = node.pax.paxids := rfl

/-- Whoever is struck off the roll is on the list until the learn comes back to it. -/
theorem mem_struck {members list paxids : List Nat} {leaving : Option Nat}
    (ranked : Ranked node.pax.alist)
    (listed : ∀ paxid, paxid ∈ node.pax.paxids ↔ paxid ∈ members) (extra : Nat) {paxid : Nat}
    (still : paxids = node.pax.paxids) (filtered : list = members.filter fun x => x ≠ extra)
    (leaves : leaving = (acceptorFind node.pax.alist extra).map Acceptor.paxid) :
    paxid ∈ paxids ↔ paxid ∈ list ∨ leaving = some paxid := by
  -- Whoever is to be struck is listed as long as the learn lasts.
  have found : leaving = some paxid ↔ paxid = extra ∧ extra ∈ node.pax.paxids := by
    rw [leaves]
    cases found : acceptorFind node.pax.alist extra with
    | none =>
      have absent : extra ∉ node.pax.paxids := by
        intro mem
        rw [Session.paxids, ← ranked.find_isSome, found] at mem
        contradiction
      simp [absent]
    | some acc =>
      obtain ⟨mem, same⟩ := ranked.find_eq_some.mp found
      have present : extra ∈ node.pax.paxids := same ▸ List.mem_map_of_mem mem
      simp only [Option.map_some, Option.some.injEq, same, present, and_true]
      exact eq_comm
  rw [still, filtered, found, listed, listed]
  simp only [ne_eq, decide_not, List.mem_filter, Bool.not_eq_eq_eq_not, Bool.not_true,
    decide_eq_false_iff_not]
  -- The roll loses the one whose part it is, and the list still has it.
  by_cases same : paxid = extra
  · simp [same]
  · simp [same]

/-- Who is on the list once an instance is learned. -/
theorem learnt_listed {addr : Addr} {inst : Instance} {members : List Nat}
    (ranked : Ranked node.pax.alist)
    (known : requestNeedsCached inst.val.dkind = true →
      (learnRequest node.pax inst.val).isSome = true)
    (listed : ∀ paxid, paxid ∈ node.pax.paxids ↔ paxid ∈ members) (paxid : Nat) :
    paxid ∈ (learnt node addr inst (learnRequest node.pax inst.val)).pax.paxids ↔
      paxid ∈ enrol members (.learn inst.hdr.inum inst.val) ∨
        leavingOf node.pax inst.val = some paxid := by
  cases kind : inst.val.dkind with
  -- A join adds its number to both, and a part or a kill marks whom it is about.
  | null => simpa [learnt, enrol, leavingOf, kind] using listed paxid
  | chat => simpa [learnt, enrol, leavingOf, kind] using listed paxid
  | join =>
    obtain ⟨req, asked⟩ := Option.isSome_iff_exists.mp (known (by rw [kind]; rfl))
    have joined : (learnt node addr inst (learnRequest node.pax inst.val)).pax.alist =
        acceptorInsert node.pax.alist (joinedAcceptor node.pax inst.hdr.inum req) := by
      simp only [learnt, kind, asked]
      exact enlist_alist _ _ _
    rw [Session.paxids, joined, ranked.paxids_insert]
    have named : (joinedAcceptor node.pax inst.hdr.inum req).paxid = inst.hdr.inum := rfl
    have before : paxid ∈ node.pax.alist.map Acceptor.paxid ↔ paxid ∈ members := listed paxid
    simp [enrol, leavingOf, kind, named, before]
  | part =>
    exact mem_struck ranked listed inst.val.extra (by simp [learnt, kind]) (by simp [enrol, kind])
      (by simp [leavingOf, kind])
  | kill =>
    exact mem_struck ranked listed inst.val.extra (by simp [learnt, kind]) (by simp [enrol, kind])
      (by simp [leavingOf, kind])

/-- A learn changes the roll, and the list as well unless it strikes somebody. -/
theorem learn {it : Option Addr} {addr : Addr} {inst : Instance}
    (enrolled : Enrolled first ⟨node, [⟨it, .scanning⟩]⟩) (ranked : Ranked node.pax.alist)
    (known : requestNeedsCached inst.val.dkind = true →
      (learnRequest node.pax inst.val).isSome = true)
    (sent : inst.val.dkind = .chat →
      (acceptorFind node.pax.alist inst.val.reqid.id).isSome = true) :
    Enrolled first ⟨learnt node addr inst (learnRequest node.pax inst.val),
      [⟨some addr, .learning (leavingOf node.pax inst.val)⟩]⟩ := by
  -- Nobody is being struck when a learn begins, so the list is the roll.
  have listed : ∀ paxid, paxid ∈ node.pax.paxids ↔ paxid ∈ roll first node.out := by
    intro paxid
    have listed := enrolled.listed paxid
    simpa [leaves_cons] using listed
  obtain ⟨same, authored⟩ := @learnt_roll first node addr inst (learnRequest node.pax inst.val)
  constructor
  · intro paxid
    show _ ∈ (learnt _ _ _ _).pax.paxids ↔ _ ∈ roll first (learnt _ _ _ _).out ∨ _
    rw [same, learnt_listed ranked known listed]
    simp [leaves_cons]
  · intro paxid leaving
    show paxid ∉ roll first (learnt _ _ _ _).out
    rw [same]
    simp only [leaves_cons, leaves_nil, or_false, Stage.learning.injEq] at leaving
    -- Only a part or a kill has somebody to strike.
    unfold leavingOf at leaving
    split at leaving
    · rename_i parts
      obtain ⟨acc, found, rfl⟩ := Option.map_eq_some_iff.mp leaving
      obtain ⟨-, extra⟩ := ranked.find_eq_some.mp found
      rcases parts with kind | kind <;> simp [enrol, kind, extra]
    · contradiction
  · refine authored enrolled.authored ?_
    intro kind
    rw [← listed, Session.paxids, ← ranked.find_isSome]
    exact sent kind

end Enrolled

/-- A loop that finds something to learn is the only one. -/
theorem Stands.only {first : Nat} {node : Node} {it : Option Addr} {loops : List Loop} {addr : Addr}
    {inst : Instance} (stands : Stands first ⟨node, ⟨it, .scanning⟩ :: loops⟩)
    (wf : node.pax.ilist.WellFormed) (held : node.inst? addr = some inst)
    (hole : inst.hdr.inum = node.pax.ihole) (committed : inst.committed = true)
    (unlearned : inst.learned = false) : loops = [] := by
  cases stands with
  | scanning => rfl
  | nested learned busy =>
    rw [busy.only wf held hole committed] at unlearned
    contradiction

/-- A loop that is inside a learn is the outermost one. -/
theorem Stands.outermost {first : Nat} {node : Node} {it : Option Addr} {leaving : Option Nat}
    {loops : List Loop} (stands : Stands first ⟨node, ⟨it, .learning leaving⟩ :: loops⟩) :
    loops = [] := by
  cases stands with
  | learning => rfl

/-- Every move keeps the list the roll of what was learned. -/
theorem Enrolled.move {config after : Config} {first : Nat} {who : List Nat}
    (enrolled : Enrolled who config) (move : Move start event config after)
    (stands : Stands first config) (wf : config.node.pax.ilist.WellFormed)
    (ranked : Ranked config.node.pax.alist) : Enrolled who after := by
  -- The list changes by a learn, and by the striking that follows the callback.
  cases move with
  | top act =>
    obtain ⟨same, authored⟩ := @Adds.enrols _ _ who _ _ (act.adds wf)
    exact enrolled.frame (paxids_congr act.members) same authored fun _ => Iff.rfl
  | inner move =>
    cases move with
    | nest _ act =>
      obtain ⟨same, authored⟩ := @Adds.enrols _ _ who _ _ (act.adds wf)
      exact enrolled.frame (paxids_congr act.members) same authored fun _ => Iff.rfl
    | enter => exact enrolled.frame rfl rfl id fun _ => by simp [leaves_cons]
    | learn held hole committed cached unlearned known sent =>
      obtain rfl := stands.only wf held hole committed unlearned
      exact enrolled.learn ranked known sent
    | delist => exact enrolled.strike stands.outermost (delist_paxids _ _) (delist_out _ _)
    | depose other led replaces =>
      refine enrolled.strike stands.outermost ?_ (replaces.out.trans (delist_out _ _))
      rw [paxids_congr replaces.members]
      exact delist_paxids _ _
    | next => exact enrolled.frame rfl rfl id fun _ => by simp [leaves_cons]
    | last => exact enrolled.frame rfl rfl id fun _ => by simp [leaves_cons]
    | gap => exact enrolled.frame rfl rfl id fun _ => by simp [leaves_cons]
    | rest => exact enrolled.frame rfl rfl id fun _ => by simp [leaves_cons]

/-- Where a handler of a session stands between two moves, with its list and its roll. -/
structure Rolled (start : Node) (first : Nat) (who : List Nat) (config : Config) : Prop where
  stands : Stands first config
  manned : Manned start config
  enrolled : Enrolled who config

/-- Whatever a handler makes of the roll, the list follows. -/
theorem Handles.rolled {node : Node} {result : Result} {first : Nat} {who : List Nat}
    (handles : Handles node event result) (wf : node.pax.ilist.WellFormed)
    (learned : Learned first node.pax.ihole node)
    (kept : node.pax.roster.Kept node.pax.selfId) (enrolled : Enrolled who ⟨node, []⟩) :
    (∀ next, result = .ok next → Rolled node first who ⟨next, []⟩) ∧
      ∀ reason halted, result = .stop reason halted → ∃ reached, Rolled node first who reached ∧
        reached.node.pax.ilist.WellFormed ∧ Halts reason reached.node halted := by
  -- The invariant has the place of the loop and the order of the list besides the roll.
  refine @Handles.invariant _ _ _ (Rolled node first who) handles wf (fun script => ?_) ?_
  · exact ⟨.idle (learned.frame rfl), ⟨rfl, kept⟩, enrolled.frame rfl rfl id fun _ => Iff.rfl⟩
  · intro script config after move wf rolled
    have manned := @Manned.move { node with script := script } event config after
      ⟨rolled.manned.self, rolled.manned.kept⟩ move kept
    exact ⟨rolled.stands.move move wf, ⟨manned.self, manned.kept⟩,
      rolled.enrolled.move move rolled.stands wf rolled.manned.kept.ranked⟩

/-- A session begins with the roll of those that it lists. -/
theorem Begins.enrolled {fits : Welcome → Prop} {node : Node} {first : Nat}
    (begins : Begins fits node first) : Enrolled node.pax.paxids ⟨node, []⟩ := by
  -- Nothing that a session begins with enrols anybody.
  obtain ⟨same, authored⟩ := @roll_silent node.pax.paxids node.out fun effect mem => by
    rcases begins.out effect mem with rfl | ⟨_, _, rfl⟩ <;> rfl
  refine ⟨fun paxid => ?_, fun paxid leaving => absurd leaving leaves_nil, authored⟩
  show _ ↔ paxid ∈ roll node.pax.paxids node.out ∨ _
  rw [same]
  simp

/-- What holds of a session between two handlers. -/
structure Rolls (first : Nat) (who : List Nat) (node : Node) : Prop where
  wellFormed : node.pax.ilist.WellFormed
  learned : Learned first node.pax.ihole node
  kept : node.pax.roster.Kept node.pax.selfId
  enrolled : Enrolled who ⟨node, []⟩

/-- Between handlers the list is the roll of what was learned. -/
theorem Runs.rolls {allowed : Session → Event → Prop} {begun node : Node} {first : Nat}
    (begins : Begins Welcome.Peopled begun first) (run : Runs allowed begun node) :
    Rolls first begun.pax.paxids node := by
  -- Over the run, each handler hands the roll to the next.
  refine @Runs.invariant _ _ _ (Rolls first begun.pax.paxids) run
    ⟨begins.wellFormed, begins.learned, begins.kept fun _ => id, begins.enrolled⟩ ?_
  intro node event next _ handles rolls
  obtain ⟨stands, manned, enrolled⟩ :=
    (handles.rolled rolls.wellFormed rolls.learned rolls.kept rolls.enrolled).1 next rfl
  refine ⟨handles.wellFormed rolls.wellFormed, ?_, manned.self.symm ▸ manned.kept, enrolled⟩
  cases stands with
  | idle learned => exact learned

/-- A handler fails for want of the author of a chat in the very call of `paxos_learn`. -/
def Unauthored (result : Result) (after : List Effect) : Prop :=
  after = [] ∧ ∃ halted, result = .stop (.failed .learnSender) halted

/-- Whatever was learned when a learn fails, its author is not on the roll. -/
theorem Rolled.unsent {first : Nat} {who : List Nat} {config : Config} {halted : Node}
    (rolled : Rolled start first who config) (unsent : Unsent config.node halted) : ∃ inum val,
      halted.out = config.node.out ++ [.learn inum val] ∧
        val.reqid.id ∉ roll who config.node.out := by
  cases unsent with
  | @learn _ inst _ _ _ _ _ _ gone =>
    refine ⟨inst.hdr.inum, inst.val, rfl, ?_⟩
    intro mem
    -- Nobody is to be struck, so whoever is on the roll is on the list.
    have ranked : Ranked config.node.pax.alist := rolled.manned.kept.ranked
    have present := (rolled.enrolled.listed inst.val.reqid.id).mpr (Or.inl mem)
    rw [Session.paxids, ← ranked.find_isSome, gone] at present
    contradiction

/--
In every run the assertion of a chat that is learned holds exactly if its author is on the roll.

The roll is what the values that were learned before make of the first acceptor list: a join enters
its number, and a part or a kill strikes one.
-/
theorem chat_authored {begun node : Node} {first : Nat} {event : Event} {result : Result}
    (begins : Begins Welcome.Peopled begun first) (run : Runs (fun _ _ => True) begun node)
    (handles : Handles node event result) {before after : List Effect} {inum : Nat} {val : Value}
    (learns : result.state.out = before ++ .learn inum val :: after) (kind : val.dkind = .chat) :
    ¬ Unauthored result after ↔ val.reqid.id ∈ roll begun.pax.paxids before := by
  have rolls := run.rolls begins
  obtain ⟨returns, stops⟩ :=
    handles.rolled rolls.wellFormed rolls.learned rolls.kept rolls.enrolled
  cases result with
  | ok next =>
    have member := (returns next rfl).enrolled.authored.member learns kind
    refine ⟨fun _ => member, ?_⟩
    rintro - ⟨-, _, failed⟩
    contradiction
  | stop reason halted =>
    obtain ⟨reached, rolled, -, halts⟩ := stops reason halted rfl
    by_cases failed : reason = .failed .learnSender
    · -- The last thing that was learned is the chat without an author.
      obtain ⟨last, chat, out, absent⟩ := rolled.unsent (halts.unsent failed)
      have learns : reached.node.out ++ [.learn last chat] = before ++ .learn inum val :: after :=
        out.symm.trans learns
      rcases List.eq_nil_or_concat after with rfl | ⟨others, effect, rfl⟩
      · obtain ⟨rfl, same⟩ := List.append_inj' learns rfl
        obtain ⟨-, rfl⟩ := Effect.learn.inj (List.singleton_inj.mp same)
        constructor
        · exact fun holds => absurd ⟨rfl, halted, by rw [failed]⟩ holds
        · exact fun mem => absurd mem absent
      · rw [List.concat_eq_append, ← List.cons_append, ← List.append_assoc] at learns
        obtain ⟨earlier, -⟩ := List.append_inj' learns rfl
        refine ⟨fun _ => rolled.enrolled.authored.member earlier kind, ?_⟩
        rintro - ⟨nothing, -⟩
        simp at nothing
    · have out := halts.out.resolve_right failed
      have member := rolled.enrolled.authored.member (out.symm.trans learns) kind
      refine ⟨fun _ => member, ?_⟩
      rintro - ⟨-, _, same⟩
      exact failed (Outcome.stop.inj same).1

/-- The second member learns a chat of the first, which it was welcomed with and has lost since. -/
theorem chat_authored_successor : ∃ before after,
    successor.hearing.out = before ++ .learn 5 ⟨.chat, ⟨1, 4⟩, 0⟩ :: after ∧
      1 ∈ roll successor.node.pax.paxids before := by
  -- The chat is decreed to the second by the first, and is learned behind its own join.
  have peopled : successor.Peopled := ⟨by decide, ⟨2, [2]⟩, by decide, rfl⟩
  have run : Runs (fun _ _ => True) successor.node successor.waiting :=
    successor.decides trivial trivial trivial trivial trivial
  have learns : successor.hearing.out =
      successor.hearing.out.take 15 ++ .learn 5 ⟨.chat, ⟨1, 4⟩, 0⟩ :: [.chat [9] [1]] := by
    decide +kernel
  refine ⟨_, _, learns, ?_⟩
  refine (chat_authored (.welcome successor peopled) run successor.learns learns rfl).mp ?_
  rintro ⟨nothing, -⟩
  contradiction

/--
A part is decreed to somebody who reconnects and sends a chat, and the chat is decreed behind it.

Two of three accept the part, which is enough, and the learn of the chat finds no author.
-/
theorem chat_orphaned : ∃ sys, System.Reachable sys ∧
    ∃ next ∈ sys.step System.quiet (.deliver 0 false), ∃ node ∈ (next.process [1]).node,
      node.out.getLast? = some (.learn 5 ⟨.chat, ⟨3, 1⟩, 0⟩) ∧
        acceptorFind node.pax.alist 3 = none ∧
        (sys.process [1]).crashed = false ∧ (next.process [1]).crashed = true :=
  System.exists_played
    (System.assemble [[1], [2], [3]] ++
      -- The first and the third lose each other, and the first decrees a part.
      [.steps [.cut 1, .eof 1 false, .eof 1 true],
        -- The third asks the second for a chat and is refused, and then those two lose each other.
        .steps [.client [3] { dkind := .chat, data := [9] }, .deliver 2 true, .deliver 2 false,
          .cut 2, .eof 2 true],
        -- The second accepts the part, and the third reaches the first with its chat before that.
        .steps [.deliver 0 true, .complete 0 true, .deliver 3 true, .deliver 3 true],
        .steps [.deliver 0 false, .deliver 0 true, .deliver 0 true]])
    (by decide +kernel)

end Motmot
