import Motmot.Proofs.Paxos.Retain

/-! A session learns consecutive numbers. -/

namespace Motmot

/-- The number that an effect learns. -/
def Effect.learned : Effect → Option Nat
  | .learn inum _ => some inum
  | _ => none

/-- The numbers for which a session has called `paxos_learn`, in order. -/
def Node.learns (node : Node) : List Nat := node.out.filterMap Effect.learned

variable {start : Node} {event : Event}

/-- Only a learn learns. -/
theorem Tells.learned {before after : Node} {effect : Effect}
    {made : List Request} (tells : Tells start event made before after effect) :
      effect.learned = none := by
  cases tells with
  | side side => cases side <;> rfl
  | _ => rfl

/-- Moves other than a learn leave what was learned alone. -/
theorem Adds.learns {before after : Node} (adds : Adds start event before after) :
    after.learns = before.learns := by
  obtain ⟨_, effects, ⟨-, -, -, out⟩, tells⟩ := adds
  have silent : effects.filterMap Effect.learned = [] :=
    List.filterMap_eq_nil_iff.mpr fun effect mem => (tells effect mem).learned
  simp [Node.learns, out, silent]

@[simp] theorem instanceInsertAndUpstart_ihole (node : Node) (inst : Instance) :
    (instanceInsertAndUpstart node inst).pax.ihole = node.pax.ihole := by
  unfold instanceInsertAndUpstart
  split <;> rfl

@[simp] theorem yieldTo_ihole (node : Node) (acc : Acceptor) :
    (yieldTo node acc).pax.ihole = node.pax.ihole := by
  obtain ⟨_, same⟩ := yieldTo_writes node acc
  rw [same]

/-- Moves from within a learn do not move the hole. -/
theorem Nest.ihole {node next : Node} (act : Nest start event node next) :
    next.pax.ihole = node.pax.ihole := by
  -- Only a decree touches the log, and the insertion leaves the hole alone.
  cases act with
  | outer outer => exact congrArg Core.ihole outer.core
  | defer prior => exact congrArg Core.ihole prior.core
  | @decree mid inst prior =>
    exact (instanceInsertAndUpstart_ihole mid _).trans (congrArg Core.ihole prior.core)
  | announce => rfl
  | commit => rfl
  | cache => rfl
  | aim => rfl
  | prepare => rfl

/-- Moves of the handler itself do not move the hole. -/
theorem Top.ihole {node next : Node} (act : Top start event node next) :
    next.pax.ihole = node.pax.ihole := by
  -- The hole is moved by a learn alone.
  cases act with
  | beside prior => exact congrArg Core.ihole prior.core
  | depose closed prior _ _ replaces =>
    have before : _ = start.pax.ihole := congrArg Core.ihole prior.core
    have closed : _ = start.pax.ihole := congrArg Core.ihole closed.core
    exact replaces.ihole.trans (before.trans closed.symm)
  | promise => rw [acceptorPromise_pax]
  | store _ _ _ _ stores =>
    obtain ⟨_, _, same⟩ := stores.eq
    rw [same]
  | accept _ _ _ _ stores =>
    obtain ⟨_, _, same⟩ := stores.eq
    rw [same]
    rfl
  | commitFresh => exact instanceInsertAndUpstart_ihole _ _
  | merge _ _ _ _ _ _ merges =>
    obtain ⟨_, _, same⟩ := merges.eq
    rw [same]
  | @fill _ _ _ place _ inum =>
    obtain ⟨_, same⟩ := linkScratch_eq (node.bumpReqId.setIlist (node.bumpReqId.pax.ilist.alloc
      (nullInstance node.bumpReqId.pax inum))) place.addr
        ⟨nextAddr node.bumpReqId, nullInstance node.bumpReqId.pax inum⟩
    exact (congrArg (fun node => node.pax.ihole) same :
      (fillNull node place.addr inum).pax.ihole = _)
  | @undefer _ _ rest => exact instanceInsertAndUpstart_ihole (node.setIdefer rest) _
  | @yieldRedirect mid acc _ prior =>
    exact (yieldTo_ihole mid acc).trans (congrArg Core.ihole prior.core)
  | @yieldRefuse mid _ acc _ prior =>
    exact (yieldTo_ihole mid acc).trans (congrArg Core.ihole prior.core)
  | helloYield prior =>
    refine Eq.trans ?_ (congrArg Core.ihole prior.core)
    show (Node.pax (if _ then _ else _)).ihole = _
    split <;> rfl
  | _ => rfl

/-- An element that fills the hole and was learned. -/
def Busy (node : Node) (addr : Addr) : Prop :=
  ∃ inst, ⟨addr, inst⟩ ∈ node.pax.ilist.cells ∧ inst.hdr.inum = node.pax.ihole ∧
    inst.learned = true

/-- What is being learned is told by the list and the hole. -/
theorem Busy.congr {node next : Node} {addr : Addr} (busy : Busy node addr)
    (ilist : next.pax.ilist = node.pax.ilist) (hole : next.pax.ihole = node.pax.ihole) :
    Busy next addr := by
  obtain ⟨inst, mem, number, learned⟩ := busy
  exact ⟨inst, ilist ▸ mem, number.trans hole.symm, learned⟩

/-- Taking an acceptor off the list does not move the hole. -/
theorem delist_ihole (node : Node) (paxid : Nat) :
    (delist node paxid).pax.ihole = node.pax.ihole :=
  congrArg Core.ihole (delist_core node paxid)

/-- Nothing that a learn leads to undoes it or moves the hole from under it. -/
theorem Nest.busy {node next : Node} {addr : Addr} (act : Nest start event node next)
    (wf : node.pax.ilist.WellFormed) (busy : Busy node addr) : Busy next addr := by
  obtain ⟨inst, mem, hole, learned⟩ := busy
  obtain ⟨last, memNext, retained⟩ := act.retains wf _ mem (wf.sound _ mem learned).1
  exact ⟨last, memNext, by rw [act.ihole, retained.inum, hole], retained.learned learned⟩

/-- The commit at the hole that is being learned is the only one. -/
theorem Busy.only {node : Node} {addr other : Addr} {inst : Instance} (busy : Busy node addr)
    (wf : node.pax.ilist.WellFormed) (held : node.inst? other = some inst)
    (hole : inst.hdr.inum = node.pax.ihole) (committed : inst.committed = true) :
    inst.learned = true := by
  -- The committed cell and the one that is learned have the same number.
  obtain ⟨first, mem, number, learned⟩ := busy
  have listed := wf.mem_of_inst? held (wf.onList_of_committed held committed)
  have same := wf.inum_inj listed mem (hole.trans number.symm)
  rw [Cell.mk.injEq] at same
  rw [same.2]
  exact learned

/-- Every number from the first on and below a bound was learned, in order and once. -/
structure Learned (first bound : Nat) (node : Node) : Prop where
  past : first ≤ bound
  numbers : node.learns = List.range' first (bound - first)

/-- Learning the next number. -/
theorem Learned.next {first bound : Nat} {node next : Node} (learned : Learned first bound node)
    (learns : next.learns = node.learns ++ [bound]) : Learned first (bound + 1) next where
  past := Nat.le_succ_of_le learned.past
  -- One more number, at the end of the range.
  numbers := by
    have past := learned.past
    have count : bound + 1 - first = bound - first + 1 := by omega
    have last : first + 1 * (bound - first) = bound := by omega
    rw [learns, learned.numbers, count, List.range'_concat, last]

/--
Where a session stands between two moves.

At most one learning loop is inside a learn, and the hole is not advanced before it comes back.
A loop that was entered from within that learn finds nothing to learn.
-/
inductive Stands (first : Nat) : Config → Prop where
  | idle {node} (learned : Learned first node.pax.ihole node) : Stands first ⟨node, []⟩
  | scanning {node it} (learned : Learned first node.pax.ihole node) :
      Stands first ⟨node, [⟨it, .scanning⟩]⟩
  | learning {node addr leaving} (learned : Learned first (node.pax.ihole + 1) node)
      (busy : Busy node addr) : Stands first ⟨node, [⟨some addr, .learning leaving⟩]⟩
  | nested {node addr leaving it} (learned : Learned first (node.pax.ihole + 1) node)
      (busy : Busy node addr) :
      Stands first ⟨node, [⟨it, .scanning⟩, ⟨some addr, .learning leaving⟩]⟩

/-- Moves that learn nothing keep what was learned. -/
theorem Learned.frame {first bound : Nat} {node next : Node} (learned : Learned first bound node)
    (learns : next.learns = node.learns) : Learned first bound next :=
  ⟨learned.past, learns.trans learned.numbers⟩

@[simp] theorem learnt_ihole (node : Node) (addr : Addr) (inst : Instance)
    (req : Option Request) : (learnt node addr inst req).pax.ihole = node.pax.ihole := by
  unfold learnt
  split
  · rename_i req _
    exact congrArg Core.ihole (enlist_core (noteLearn node addr inst) inst.hdr.inum req)
  · rfl

/-- What the client hears of a chat learns nothing. -/
@[simp] theorem heard_learned (pax : Session) (val : Value) (req : Option Request) :
    (heard pax val req).filterMap Effect.learned = [] := by
  unfold heard
  split <;> rfl

/-- A learn enters the number at the hole into what was learned. -/
theorem learnt_learned {first : Nat} {node : Node} {addr : Addr} {inst : Instance}
    {req : Option Request} (learned : Learned first node.pax.ihole node)
    (hole : inst.hdr.inum = node.pax.ihole) :
    Learned first ((learnt node addr inst req).pax.ihole + 1) (learnt node addr inst req) := by
  rw [learnt_ihole]
  refine learned.next ?_
  rw [Node.learns, learnt_out, List.filterMap_append, List.filterMap_cons, heard_learned]
  simp [Effect.learned, Node.learns, hole]

/-- What is learned fills the hole until the loop goes on. -/
theorem learnt_busy {node : Node} {addr : Addr} {inst : Instance} {req : Option Request}
    (wf : node.pax.ilist.WellFormed) (held : node.inst? addr = some inst)
    (hole : inst.hdr.inum = node.pax.ihole) (committed : inst.committed = true) :
    Busy (learnt node addr inst req) addr := by
  have mem := wf.mem_of_inst? held (wf.onList_of_committed held committed)
  refine ⟨markLearned inst, ?_, by rw [learnt_ihole]; exact hole, rfl⟩
  rw [learnt_ilist]
  exact (wf.mem_modify_linked mem markLearned).mpr (Or.inl rfl)

/-- Every move leaves the session standing. -/
theorem Stands.move {first : Nat} {config after : Config} (stands : Stands first config)
    (move : Move start event config after) (wf : config.node.pax.ilist.WellFormed) :
    Stands first after := by
  -- One case for each move, and in it the positions of a loop that allow the move.
  cases move with
  | top act =>
    cases stands with
    | idle learned =>
      refine .idle ?_
      rw [act.ihole]
      exact learned.frame (act.adds wf).learns
  | inner move =>
    cases move with
    | nest lets act =>
      have frame := (act.adds wf).learns
      have hole := act.ihole
      cases stands with
      | idle learned => exact .idle (hole ▸ learned.frame frame)
      | scanning => simp [Lets] at lets
      | learning learned busy => exact .learning (hole ▸ learned.frame frame) (act.busy wf busy)
      | nested => simp [Lets] at lets
    | enter lets =>
      cases stands with
      | idle learned => exact .scanning learned
      | scanning => simp [Lets] at lets
      | learning learned busy => exact .nested learned busy
      | nested => simp [Lets] at lets
    | learn held hole committed cached unlearned =>
      cases stands with
      | scanning learned =>
        exact .learning (learnt_learned learned hole) (learnt_busy wf held hole committed)
      | nested learned busy =>
        -- The number at the hole is already being learned.
        rw [busy.only wf held hole committed] at unlearned
        contradiction
    | @delist node _ _ paxid =>
      cases stands with
      | learning learned busy =>
        have same := delist_ihole node paxid
        exact .learning (same ▸ learned.frame (by simp [Node.learns]))
          (busy.congr (delist_ilist node paxid) same)
    | @depose node _ _ paxid _ _ _ replaces =>
      cases stands with
      | learning learned busy =>
        have same := replaces.ihole.trans (delist_ihole node paxid)
        exact .learning (same ▸ learned.frame (by simp [Node.learns, replaces.out]))
          (busy.congr (replaces.ilist.trans (delist_ilist node paxid)) same)
    | next =>
      cases stands with
      | learning learned => exact .scanning (learned.frame rfl)
    | last =>
      cases stands with
      | scanning learned => exact .idle (learned.frame rfl)
      | nested learned busy => exact .learning (learned.frame rfl) busy
    | gap =>
      cases stands with
      | scanning learned => exact .idle (learned.frame rfl)
      | nested learned busy => exact .learning (learned.frame rfl) busy
    | rest =>
      cases stands with
      | scanning learned => exact .idle (learned.frame rfl)
      | nested learned busy => exact .learning (learned.frame rfl) busy

/-- Wherever a session stands, it has learned consecutive numbers. -/
theorem Stands.learned {first : Nat} {config : Config} (stands : Stands first config) :
    ∃ bound, Learned first bound config.node := by
  cases stands with
  | idle learned => exact ⟨_, learned⟩
  | scanning learned => exact ⟨_, learned⟩
  | learning learned => exact ⟨_, learned⟩
  | nested learned => exact ⟨_, learned⟩

/-- A session that is stopped by the learn of a chat has learned its number as well. -/
theorem Stands.halted {first : Nat} {config : Config} {halted : Node} {reason : Stop}
    (stands : Stands first config) (wf : config.node.pax.ilist.WellFormed)
    (halts : Halts reason config.node halted) : ∃ bound, Learned first bound halted := by
  -- It stopped in its last state, or on a chat without its sender.
  rcases halts.out with out | failed
  · obtain ⟨bound, learned⟩ := stands.learned
    exact ⟨bound, learned.frame (by rw [Node.learns, out]; rfl)⟩
  · cases halts.unsent failed with
    | @learn addr inst held hole committed cached unlearned =>
      have learns : (noteLearn config.node addr inst).learns =
          config.node.learns ++ [config.node.pax.ihole] := by
        simp [Node.learns, noteLearn, Node.emit, Node.modify, Node.setIlist, Effect.learned, hole]
      -- Inside a learn, the number at the hole is already learned.
      cases stands with
      | idle learned => exact ⟨_, learned.next learns⟩
      | scanning learned => exact ⟨_, learned.next learns⟩
      | learning learned busy =>
        rw [busy.only wf held hole committed] at unlearned
        contradiction
      | nested learned busy =>
        rw [busy.only wf held hole committed] at unlearned
        contradiction

/-- A session begins with nothing learned. -/
theorem Begins.learned {fits : Welcome → Prop} {node : Node} {first : Nat}
    (begins : Begins fits node first) : Learned first node.pax.ihole node := by
  -- At first the client hears that the session is entered, and is asked for connections.
  have silent : node.learns = [] := by
    refine List.filterMap_eq_nil_iff.mpr fun effect mem => ?_
    rcases begins.out effect mem with rfl | ⟨_, _, rfl⟩ <;> rfl
  cases begins with
  | start => exact ⟨Nat.le_refl 2, silent⟩
  | welcome =>
    refine ⟨Nat.le_refl _, ?_⟩
    rw [Nat.sub_self]
    exact silent

/-- A handler that returns has learned every number below the hole that it leaves. -/
theorem Handles.learned {node next : Node} {first : Nat} (handles : Handles node event (.ok next))
    (wf : node.pax.ilist.WellFormed) (learned : Learned first node.pax.ihole node) :
    Learned first next.pax.ihole next := by
  have stands : Stands first ⟨next, []⟩ := (handles.invariant wf
    (fun _ => .idle (learned.frame rfl)) fun move wf stands => stands.move move wf).1 next rfl
  cases stands with
  | idle learned => exact learned

/-- However a handler ends, it has learned the next numbers, up to the hole if it returns. -/
theorem Handles.learns {node : Node} {first : Nat} {result : Result}
    (handles : Handles node event result) (wf : node.pax.ilist.WellFormed)
    (learned : Learned first node.pax.ihole node) : ∃ count,
      (fresh node result).filterMap Effect.learned = List.range' node.pax.ihole count ∧
        ∀ next, result = .ok next → next.pax.ihole = node.pax.ihole + count := by
  -- The numbers learned in the handler follow those that were learned before it.
  obtain ⟨bound, later, hole⟩ : ∃ bound, Learned first bound result.state ∧
      ∀ next, result = .ok next → next.pax.ihole = bound := by
    cases result with
    | ok next =>
      refine ⟨_, handles.learned wf learned, ?_⟩
      rintro other same
      cases same
      rfl
    | stop reason halted =>
      obtain ⟨reached, stands, whole, halts⟩ := (@Handles.invariant _ _ _ (Stands first) handles wf
        (fun _ => .idle (learned.frame rfl)) fun move wf stands => stands.move move wf).2 _ _ rfl
      obtain ⟨bound, later⟩ := stands.halted whole halts
      exact ⟨bound, later, by simp⟩
  -- The numbers that were learned before are the front of all that were.
  have numbers := later.numbers
  rw [Node.learns, handles.out wf, List.filterMap_append,
    show node.out.filterMap Effect.learned = node.learns from rfl, learned.numbers] at numbers
  have past := learned.past
  have beyond := later.past
  have size := congrArg List.length numbers
  simp only [List.length_append, List.length_range'] at size
  have further : node.pax.ihole ≤ bound := by omega
  refine ⟨bound - node.pax.ihole, ?_, fun next same => by rw [hole next same]; omega⟩
  have whole : List.range' first (bound - first) =
      List.range' first (node.pax.ihole - first) ++
        List.range' node.pax.ihole (bound - node.pax.ihole) := by
    have place : node.pax.ihole = first + 1 * (node.pax.ihole - first) := by omega
    have count : bound - first = node.pax.ihole - first + (bound - node.pax.ihole) := by omega
    rw [count, ← List.range'_append, ← place]
  rw [whole] at numbers
  exact List.append_cancel_left numbers

/-- Between handlers a session has learned exactly the numbers below the hole. -/
theorem Runs.learned {fits : Welcome → Prop} {allowed : Session → Event → Prop}
    {begun node : Node} {first : Nat} (begins : Begins fits begun first)
    (run : Runs allowed begun node) :
    node.pax.ilist.WellFormed ∧ Learned first node.pax.ihole node := by
  refine @Runs.invariant _ _ _ (fun node => node.pax.ilist.WellFormed ∧
    Learned first node.pax.ihole node) run ⟨begins.wellFormed, begins.learned⟩ ?_
  rintro node event next - handles ⟨wf, learned⟩
  exact ⟨handles.wellFormed wf, handles.learned wf learned⟩

/--
A session learns consecutive numbers, from the first one that it has to learn on.

It does so between handlers, and also in a handler that stops it or that is stopped.
-/
theorem learns_consecutive {begun node : Node} {first : Nat} {event : Event} {result : Result}
    (begins : Begins (fun _ => True) begun first) (run : Unwrapped (fun _ _ => True) begun node)
    (handles : Handles node event result) :
    node.learns = List.range' first (node.pax.ihole - first) ∧
      ∃ count, result.state.learns = List.range' first count := by
  obtain ⟨wf, learned⟩ := run.runs.learned begins
  -- Between handlers the numbers go up to the hole.
  refine ⟨learned.numbers, ?_⟩
  obtain ⟨returns, stops⟩ := @Handles.invariant _ _ _ (Stands first) handles wf
    (fun _ => .idle (learned.frame rfl)) fun move wf stands => stands.move move wf
  cases result with
  | ok next =>
    obtain ⟨bound, learned⟩ := (returns next rfl).learned
    exact ⟨_, learned.numbers⟩
  | stop reason halted =>
    obtain ⟨reached, stands, whole, halts⟩ := stops reason halted rfl
    obtain ⟨bound, learned⟩ := stands.halted whole halts
    exact ⟨bound - first, learned.numbers⟩

/-- The second member learns the null and the chat in one handler, and the kill in the next one. -/
theorem learns_consecutive_successor :
    successor.hearing.learns = [4, 5] ∧ successor.remaining.learns ≠ successor.hearing.learns ∧
      ∃ count, successor.remaining.learns = List.range' 4 count := by
  -- The chat is decreed to it, and the first one unlocks the null in front.
  have run : Unwrapped (fun _ _ => True) successor.node successor.hearing := by
    refine ⟨(successor.decides ?_ ?_ ?_ ?_ ?_).step ?_ successor.learns, by decide +kernel⟩
    all_goals exact ⟨trivial, by decide +kernel⟩
  obtain ⟨between, during⟩ :=
    learns_consecutive (.welcome successor trivial) run successor.settles
  -- The hole moves from 4 to 6, so two values are learned.
  have hole : successor.node.pax.ihole = 4 := by decide +kernel
  have next : successor.hearing.pax.ihole = 6 := by decide +kernel
  rw [hole] at during
  rw [hole, next] at between
  exact ⟨between, by decide +kernel, during⟩

end Motmot
