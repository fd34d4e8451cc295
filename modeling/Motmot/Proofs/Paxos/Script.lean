import Motmot.Proofs.Paxos.Outer

/-! A handler uses up what the client does from callbacks, and never adds to it. -/

namespace Motmot

variable {start : Node} {event : Event}

/-- All that the client is still to do from callbacks was to be done from the start. -/
def Scripted (start node : Node) : Prop := ∀ visit ∈ node.script, visit ∈ start.script

/-- What a handler is given to begin with. -/
theorem Scripted.refl (start : Node) : Scripted start start := fun _ => id

/-- A write that leaves the script alone. -/
theorem Scripted.keep {node next : Node} (scripted : Scripted start node)
    (same : next.script = node.script) : Scripted start next := by
  rw [Scripted, same]
  exact scripted

/-- What happens beside the log uses up the script. -/
theorem Beside.scripted {node next : Node} (beside : Beside start event node next)
    (scripted : Scripted start node) : Scripted start next :=
  fun visit mem => scripted visit (beside.script visit mem)

@[simp] theorem instanceInsertAndUpstart_script (node : Node) (inst : Instance) :
    (instanceInsertAndUpstart node inst).script = node.script := by
  obtain ⟨_, _, same⟩ := instanceInsertAndUpstart_eq node inst
  rw [same]

@[simp] theorem announceDecree_script (node : Node) (inst : Instance) :
    (announceDecree node inst).script = node.script :=
  instanceInsertAndUpstart_script node _

@[simp] theorem setLiveCount_script (node : Node) (count : Nat) :
    (node.setLiveCount count).script = node.script := rfl

@[simp] theorem delist_script (node : Node) (paxid : Nat) :
    (delist node paxid).script = node.script := by
  unfold delist
  split
  · rw [setLiveCount_script]
    rfl
  · rfl

@[simp] theorem learnt_script (node : Node) (addr : Addr) (inst : Instance)
    (req : Option Request) : (learnt node addr inst req).script = node.script := by
  unfold learnt enlist
  split
  · split <;> rfl
  · rfl

@[simp] theorem yieldTo_script (node : Node) (acc : Acceptor) :
    (yieldTo node acc).script = node.script := by
  obtain ⟨_, same⟩ := yieldTo_writes node acc
  rw [same]

@[simp] theorem acceptorPromise_script (node : Node) (hdr : Header) :
    (acceptorPromise node hdr).state.script = node.script := by
  unfold acceptorPromise paxosSendToProposer paxosSend
  -- Whatever is sent, the script stays.
  simp only
  split
  · rfl
  · split
    · split <;> rfl
    · rfl

/-- The replacement of a proposer leaves the script alone. -/
theorem Replaces.script {node next : Node} (replaces : Replaces node next) :
    next.script = node.script := by
  -- Neither the choice of a proposer nor a prepare comes back to the client.
  obtain ⟨_, same⟩ := resetProposer_eq node
  cases replaces with
  | elect => rw [same]
  | begin =>
    show (resetProposer node).script = _
    rw [same]

/-- Moves from within a learn use up the script. -/
theorem Nest.scripted {node next : Node} (act : Nest start event node next)
    (scripted : Scripted start node) : Scripted start next := by
  -- Only an outer move pops a visit.
  cases act with
  | outer outer => exact outer.scripted scripted
  | defer prior => exact prior.scripted scripted
  | decree prior => exact (prior.scripted scripted).keep (announceDecree_script _ _)
  | announce => exact scripted
  | commit => exact scripted
  | cache => exact scripted
  | aim => exact scripted
  | prepare => exact scripted

/-- Moves of learning loops use up the script. -/
theorem Inner.scripted {config after : Config} (move : Inner start event config after)
    (scripted : Scripted start config.node) : Scripted start after.node := by
  -- A learn has its visit popped by what it nests.
  cases move with
  | nest _ act => exact act.scripted scripted
  | enter => exact scripted
  | learn => exact scripted.keep (learnt_script _ _ _ _)
  | delist => exact scripted.keep (delist_script _ _)
  | depose _ _ replaces => exact scripted.keep (replaces.script.trans (delist_script _ _))
  | next => exact scripted
  | last => exact scripted
  | gap => exact scripted
  | rest => exact scripted

/-- Moves of the handler itself use up the script. -/
theorem Top.scripted {node next : Node} (act : Top start event node next)
    (scripted : Scripted start node) : Scripted start next := by
  -- Only the callbacks of a learn take a visit off, and these moves call none.
  cases act with
  | beside prior => exact prior.scripted (.refl start)
  | depose _ prior _ _ replaces => exact (prior.scripted (.refl start)).keep replaces.script
  | promise => exact scripted.keep (acceptorPromise_script _ _)
  | store _ _ _ _ stores =>
    obtain ⟨_, _, same⟩ := stores.eq
    exact scripted.keep (by rw [same])
  | accept _ _ _ _ stores =>
    obtain ⟨_, _, same⟩ := stores.eq
    exact scripted.keep (by rw [same]; rfl)
  | commitFresh => exact scripted.keep (instanceInsertAndUpstart_script _ _)
  | rewrite prior => exact prior.scripted (.refl start)
  | merge _ _ _ _ _ _ merges =>
    obtain ⟨_, _, same⟩ := merges.eq
    exact scripted.keep (by rw [same])
  | @fill _ _ _ place _ inum =>
    obtain ⟨_, same⟩ := linkScratch_eq (node.bumpReqId.setIlist (node.bumpReqId.pax.ilist.alloc
      (nullInstance node.bumpReqId.pax inum))) place.addr
        ⟨nextAddr node.bumpReqId, nullInstance node.bumpReqId.pax inum⟩
    exact scripted.keep (congrArg Node.script same : (fillNull node place.addr inum).script = _)
  | @undefer _ _ rest => exact scripted.keep (announceDecree_script (node.setIdefer rest) _)
  | yieldRedirect prior => exact (prior.scripted (.refl start)).keep (yieldTo_script _ _)
  | yieldRefuse prior => exact (prior.scripted (.refl start)).keep (yieldTo_script _ _)
  | helloYield prior =>
    refine (prior.scripted (.refl start)).keep ?_
    show Node.script (if _ then _ else _) = _
    split <;> rfl
  | helloBallot prior => exact prior.scripted (.refl start)
  | truncate prior => exact prior.scripted (.refl start)
  | welcome prior => exact prior.scripted (.refl start)
  | _ => exact scripted

/-- A sequence of inner moves uses up the script. -/
theorem inner_scripted {config after : Config}
    (path : Relation.ReflTransGen (Inner start event) config after)
    (scripted : Scripted start config.node) : Scripted start after.node := by
  induction path with
  | refl => exact scripted
  | tail _ move ih => exact move.scripted ih

/-- A sequence of moves uses up the script. -/
theorem move_scripted {config after : Config}
    (path : Relation.ReflTransGen (Move start event) config after)
    (scripted : Scripted start config.node) : Scripted start after.node := by
  -- By induction on the path.
  induction path with
  | refl => exact scripted
  | tail _ move ih =>
    cases move with
    | inner inner => exact inner.scripted ih
    | top act => exact act.scripted ih

end Motmot
