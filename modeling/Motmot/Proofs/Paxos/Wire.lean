import Motmot.Types.Wire
import Motmot.Proofs.Paxos.Opcodes

/-! What is packed is read back. -/

namespace Motmot.Wire

open Msgpack

/-- Tokens from which an unpacker reads a given value wherever they occur. -/
def Carries {β : Type} (tokens : List Token) (unpack : Object → Option β) (y : β) : Prop :=
  ∃ object, Packs tokens object ∧ unpack object = some y

/-- The fields of a header are values of their types. -/
structure FitsHeader (hdr : Header) : Prop where
  session : hdr.session < 2 ^ 64
  id : hdr.ballot.id < 2 ^ 32
  gen : hdr.ballot.gen < 2 ^ 32
  inum : hdr.inum < 2 ^ 32

instance (hdr : Header) : Decidable (FitsHeader hdr) :=
  decidable_of_iff (hdr.session < 2 ^ 64 ∧ hdr.ballot.id < 2 ^ 32 ∧ hdr.ballot.gen < 2 ^ 32 ∧
    hdr.inum < 2 ^ 32) ⟨fun ⟨session, id, gen, inum⟩ => ⟨session, id, gen, inum⟩,
      fun fits => ⟨fits.session, fits.id, fits.gen, fits.inum⟩⟩

/-- The fields of a value are values of their types. -/
structure FitsValue (val : Value) : Prop where
  id : val.reqid.id < 2 ^ 32
  gen : val.reqid.gen < 2 ^ 32
  extra : val.extra < 2 ^ 32

instance (val : Value) : Decidable (FitsValue val) :=
  decidable_of_iff (val.reqid.id < 2 ^ 32 ∧ val.reqid.gen < 2 ^ 32 ∧ val.extra < 2 ^ 32)
    ⟨fun ⟨id, gen, extra⟩ => ⟨id, gen, extra⟩, fun fits => ⟨fits.id, fits.gen, fits.extra⟩⟩

/-- The fields of an instance that are packed are values of their types. -/
structure FitsInstance (inst : Instance) : Prop where
  hdr : FitsHeader inst.hdr
  val : FitsValue inst.val

instance (inst : Instance) : Decidable (FitsInstance inst) :=
  decidable_of_iff (FitsHeader inst.hdr ∧ FitsValue inst.val)
    ⟨fun ⟨hdr, val⟩ => ⟨hdr, val⟩, fun fits => ⟨fits.hdr, fits.val⟩⟩

/-- The fields of a payload are values of their types. -/
def FitsBody : Body → Prop
  | .empty => True
  | .votes _ votes => ∀ vote ∈ votes, FitsInstance (Motmot.instanceUnpack vote)
  | .value val => FitsValue val
  | .welcome session ibase alist ilist =>
    session < 2 ^ 64 ∧ ibase < 2 ^ 32 ∧ (∀ acc ∈ alist, acc.paxid < 2 ^ 32) ∧
      ∀ inst ∈ ilist, FitsInstance (Motmot.instanceUnpack inst)
  | .request req => FitsValue req.val
  | .retrieve paxid val => paxid < 2 ^ 32 ∧ FitsValue val
  | .header hdr => FitsHeader hdr
  | .refuse hdr val => FitsHeader hdr ∧ FitsValue val
  | .paxid paxid => paxid < 2 ^ 32

instance : (body : Body) → Decidable (FitsBody body)
  | .empty => .isTrue trivial
  | .votes _ votes =>
    inferInstanceAs (Decidable (∀ vote ∈ votes, FitsInstance (Motmot.instanceUnpack vote)))
  | .value val => inferInstanceAs (Decidable (FitsValue val))
  | .welcome session ibase alist ilist =>
    inferInstanceAs (Decidable (session < 2 ^ 64 ∧ ibase < 2 ^ 32 ∧
      (∀ acc ∈ alist, acc.paxid < 2 ^ 32) ∧
        ∀ inst ∈ ilist, FitsInstance (Motmot.instanceUnpack inst)))
  | .request req => inferInstanceAs (Decidable (FitsValue req.val))
  | .retrieve paxid val => inferInstanceAs (Decidable (paxid < 2 ^ 32 ∧ FitsValue val))
  | .header hdr => inferInstanceAs (Decidable (FitsHeader hdr))
  | .refuse hdr val => inferInstanceAs (Decidable (FitsHeader hdr ∧ FitsValue val))
  | .paxid paxid => inferInstanceAs (Decidable (paxid < 2 ^ 32))

/-- The fields of a message are values of their types. -/
structure FitsMsg (msg : Msg) : Prop where
  hdr : FitsHeader msg.hdr
  body : FitsBody msg.body

instance (msg : Msg) : Decidable (FitsMsg msg) :=
  decidable_of_iff (FitsHeader msg.hdr ∧ FitsBody msg.body)
    ⟨fun ⟨hdr, body⟩ => ⟨hdr, body⟩, fun fits => ⟨fits.hdr, fits.body⟩⟩

theorem narrow_of_lt {bits n : Nat} (small : n < 2 ^ bits) : narrow bits n = n :=
  Nat.mod_eq_of_lt small

theorem carries_paxid {n : Nat} (small : n < 2 ^ 32) : Carries (paxidPack n) paxidUnpack n := by
  refine ⟨.uint n, packs_uint n, ?_⟩
  simp [paxidUnpack, positive, narrow_of_lt small]

theorem carries_uuid {n : Nat} (small : n < 2 ^ 64) : Carries (uuidPack n) uuidUnpack n := by
  refine ⟨.uint n, packs_uint n, ?_⟩
  simp [uuidUnpack, positive, narrow_of_lt small]

theorem carries_raw (data : Bytes) : Carries (rawPack data) bytes data :=
  ⟨.raw data, packs_raw data, rfl⟩

/-- The number of an opcode finds it again. -/
theorem opcodes_number (opcode : Opcode) :
    opcodes[narrow 32 (opcodeNumber opcode)]? = some opcode := by
  cases opcode <;> rfl

/-- The number of a kind of decrees finds it again. -/
theorem dkinds_number (dkind : DKind) : dkinds[narrow 32 (dkindNumber dkind)]? = some dkind := by
  cases dkind <;> rfl

/-- A header is read back. -/
theorem carries_header {hdr : Header} (fits : FitsHeader hdr) :
    Carries (headerPack hdr) headerUnpack hdr := by
  -- The five fields are packed in their order and read back one by one.
  obtain ⟨session, packs1, reads1⟩ := carries_uuid fits.session
  obtain ⟨id, packs2, reads2⟩ := carries_paxid fits.id
  obtain ⟨gen, packs3, reads3⟩ := carries_paxid fits.gen
  obtain ⟨inum, packs5, reads5⟩ := carries_paxid fits.inum
  have packs4 := packs_uint (opcodeNumber hdr.opcode)
  refine ⟨.array [session, id, gen, .uint (opcodeNumber hdr.opcode), inum], ?_, ?_⟩
  · exact packs_array (.cons packs1 (.cons packs2 (.cons packs3 (.cons packs4
      (.cons packs5 .nil))))) rfl
  · simp [headerUnpack, elements, positive, reads1, reads2, reads3, reads5, opcodes_number]

/-- A value is read back. -/
theorem carries_value {val : Value} (fits : FitsValue val) :
    Carries (valuePack val) valueUnpack val := by
  -- The four fields are packed in their order and read back one by one.
  obtain ⟨id, packs2, reads2⟩ := carries_paxid fits.id
  obtain ⟨gen, packs3, reads3⟩ := carries_paxid fits.gen
  obtain ⟨extra, packs4, reads4⟩ := carries_paxid fits.extra
  have packs1 := packs_uint (dkindNumber val.dkind)
  refine ⟨.array [.uint (dkindNumber val.dkind), id, gen, extra], ?_, ?_⟩
  · exact packs_array (.cons packs1 (.cons packs2 (.cons packs3 (.cons packs4 .nil)))) rfl
  · simp [valueUnpack, elements, positive, reads2, reads3, reads4, dkinds_number]

/-- An acceptor is read back without a peer. -/
theorem carries_acceptor {acc : Acceptor} (fits : acc.paxid < 2 ^ 32) :
    Carries (acceptorPack acc) acceptorUnpack { acc with peer := none } := by
  obtain ⟨paxid, packs1, reads1⟩ := carries_paxid fits
  obtain ⟨desc, packs2, reads2⟩ := carries_raw acc.desc
  refine ⟨.array [paxid, desc], packs_array (.cons packs1 (.cons packs2 .nil)) rfl, ?_⟩
  simp [acceptorUnpack, elements, reads1, reads2]

/-- An instance is read back with everything that is not sent set to zero. -/
theorem carries_instance {inst : Instance} (fits : FitsInstance inst) :
    Carries (instancePack inst) instanceUnpack
      { inst with cached := false, learned := false, votes := 0, rejects := 0 } := by
  -- The header and the value are read back, with the mark of the commit between them.
  obtain ⟨hdr, packs1, reads1⟩ := carries_header fits.hdr
  obtain ⟨val, packs3, reads3⟩ := carries_value fits.val
  have packs2 := packs_bool inst.committed
  refine ⟨.array [hdr, .bool inst.committed, val], ?_, ?_⟩
  · exact packs_array (.cons packs1 (.cons packs2 (.cons packs3 .nil))) rfl
  · simp [instanceUnpack, elements, boolean, reads1, reads3]

/-- A request is read back with its data. -/
theorem carries_request {req : Request} (fits : FitsValue req.val) :
    Carries (requestPack req) requestUnpack req := by
  obtain ⟨val, packs1, reads1⟩ := carries_value fits
  obtain ⟨data, packs2, reads2⟩ := carries_raw req.data
  refine ⟨.array [val, data], packs_array (.cons packs1 (.cons packs2 .nil)) rfl, ?_⟩
  simp [requestUnpack, elements, reads1, reads2]

/-- Items that are packed one by one are read back one by one. -/
theorem carries_all {α β : Type} {pack : α → List Token} {unpack : Object → Option β}
    {result : α → β} {items : List α}
    (each : ∀ item ∈ items, Carries (pack item) unpack (result item)) :
    ∃ objects, PacksAll (items.flatMap pack) objects ∧ objects.length = items.length ∧
      objects.mapM unpack = some (items.map result) := by
  -- By induction on the items.
  induction items with
  | nil => exact ⟨[], .nil, rfl, rfl⟩
  | cons item items ih =>
    obtain ⟨object, packs, reads⟩ := each item (by simp)
    obtain ⟨objects, packsAll, length, readsAll⟩ := ih fun other mem => each other (by simp [mem])
    refine ⟨object :: objects, .cons packs packsAll, by simp [length], ?_⟩
    simp [List.mapM_cons, reads, readsAll]

/-- A list of instances behind its length is read back. -/
theorem carries_instances {votes : List PackedInstance}
    (fits : ∀ vote ∈ votes, FitsInstance (Motmot.instanceUnpack vote)) :
    ∃ objects, Packs (.array votes.length ::
      votes.flatMap fun vote => instancePack (Motmot.instanceUnpack vote)) (.array objects) ∧
      objects.mapM instanceUnpack = some (votes.map Motmot.instanceUnpack) := by
  obtain ⟨objects, packs, length, reads⟩ := @carries_all PackedInstance Instance
    (fun vote => instancePack (Motmot.instanceUnpack vote)) instanceUnpack Motmot.instanceUnpack
    votes fun vote mem => carries_instance (fits vote mem)
  exact ⟨objects, packs_array packs length.symm, reads⟩

/-- A list of acceptors behind its length is read back. -/
theorem carries_acceptors {accs : List PackedAcceptor} (fits : ∀ acc ∈ accs, acc.paxid < 2 ^ 32) :
    ∃ objects, Packs (.array accs.length ::
      accs.flatMap fun acc => acceptorPack (Motmot.acceptorUnpack acc)) (.array objects) ∧
      objects.mapM acceptorUnpack = some (accs.map Motmot.acceptorUnpack) := by
  obtain ⟨objects, packs, length, reads⟩ := @carries_all PackedAcceptor Acceptor
    (fun acc => acceptorPack (Motmot.acceptorUnpack acc)) acceptorUnpack Motmot.acceptorUnpack
    accs fun acc mem => carries_acceptor (fits acc mem)
  exact ⟨objects, packs_array packs length.symm, reads⟩

/-- A promise announces as many votes as it packs. -/
def whole : Body → Prop
  | .votes count votes => count = votes.length
  | _ => True

/-- A payload is read back by the handler of its opcode. -/
theorem carries_body {opcode : Opcode} {body : Body} (shape : shaped opcode body = true)
    (fits : FitsBody body) (complete : whole body) (filled : body ≠ .empty) :
    Carries (bodyPack body) (fun o => read opcode (some o)) (sent body) := by
  -- The payload decides how it is packed, and the opcode how it is read.
  cases body with
  | empty => exact absurd rfl filled
  | votes count votes =>
    -- An array of votes is packed under the count announced, so it must be as long.
    simp only [whole] at complete
    obtain ⟨objects, packs, reads⟩ := carries_instances fits
    refine ⟨.array objects, ?_, ?_⟩
    · simp only [bodyPack, complete]
      exact packs
    · cases opcode <;> simp_all [shaped, read, elements, sent]
  | value val =>
    obtain ⟨object, packs, reads⟩ := carries_value fits
    refine ⟨object, packs, ?_⟩
    cases opcode <;> simp_all [shaped, read, sent]
  -- A welcome is an array of three: the session, the acceptors and the log.
  | welcome session ibase alist ilist =>
    obtain ⟨small1, small2, fits3, fits4⟩ := fits
    obtain ⟨uuid, packs1, reads1⟩ := carries_uuid small1
    obtain ⟨base, packs2, reads2⟩ := carries_paxid small2
    obtain ⟨accs, packs3, reads3⟩ := carries_acceptors fits3
    obtain ⟨insts, packs4, reads4⟩ := carries_instances fits4
    have info := packs_array (.cons packs1 (.cons packs2 .nil)) rfl
    refine ⟨.array [.array [uuid, base], .array accs, .array insts], ?_, ?_⟩
    · exact packs_array (.cons info (.cons packs3 (.cons packs4 .nil))) rfl
    · cases opcode <;> simp_all [shaped, read, elements, sent]
  | request req =>
    obtain ⟨object, packs, reads⟩ := carries_request fits
    refine ⟨object, packs, ?_⟩
    cases opcode <;> simp_all [shaped, read, sent]
  | retrieve paxid val =>
    obtain ⟨id, packs1, reads1⟩ := carries_paxid fits.1
    obtain ⟨object, packs2, reads2⟩ := carries_value fits.2
    refine ⟨.array [id, object], packs_array (.cons packs1 (.cons packs2 .nil)) rfl, ?_⟩
    cases opcode <;> simp_all [shaped, read, elements, sent]
  | header hdr =>
    obtain ⟨object, packs, reads⟩ := carries_header fits
    refine ⟨object, packs, ?_⟩
    cases opcode <;> simp_all [shaped, read, sent]
  | refuse hdr val =>
    obtain ⟨orig, packs1, reads1⟩ := carries_header fits.1
    obtain ⟨object, packs2, reads2⟩ := carries_value fits.2
    refine ⟨.array [orig, object], packs_array (.cons packs1 (.cons packs2 .nil)) rfl, ?_⟩
    cases opcode <;> simp_all [shaped, read, elements, sent]
  | paxid paxid =>
    obtain ⟨object, packs, reads⟩ := carries_paxid fits
    refine ⟨object, packs, ?_⟩
    cases opcode <;> simp_all [shaped, read, sent]

/-- Nothing is read behind the header of a message that has no payload. -/
theorem read_empty {opcode : Opcode} (shape : shaped opcode .empty = true) :
    read opcode none = some .nothing := by
  cases opcode <;> first | rfl | exact absurd shape (by decide)

/-- A message is read off the front of every stream, its header and payload as they were sent. -/
def Reads (msg : Msg) : Prop :=
  ∀ rest, ∃ object, Msgpack.unpack [] (msgPack msg ++ rest) = some (object, rest) ∧
    msgUnpack object = some (msg.hdr, sent msg.body)

/-- A message whose payload is whole is read back. -/
theorem reads_of_whole {msg : Msg} (fits : FitsMsg msg)
    (shape : shaped msg.hdr.opcode msg.body = true) (complete : whole msg.body) : Reads msg := by
  -- A message is an array of its header and, unless it is empty, of its payload.
  intro rest
  obtain ⟨hdr, packs1, reads1⟩ := carries_header fits.hdr
  by_cases filled : msg.body = .empty
  · -- The header is all there is.
    have packs : Packs (msgPack msg) (.array [hdr]) := by
      simp only [msgPack, filled]
      exact packs_array (.cons packs1 .nil) rfl
    refine ⟨_, packs.unpack rest, ?_⟩
    rw [filled] at shape
    rw [filled]
    simp [msgUnpack, elements, reads1, read_empty shape, sent]
  · obtain ⟨payload, packs2, reads2⟩ := carries_body shape fits.body complete filled
    have packs : Packs (msgPack msg) (.array [hdr, payload]) := by
      unfold msgPack
      split
      · rename_i empty
        exact absurd empty filled
      · exact packs_array (.cons packs1 (.cons packs2 .nil)) rfl
    refine ⟨_, packs.unpack rest, ?_⟩
    simp [msgUnpack, elements, reads1, reads2]

/-- The promise that answers a prepare. -/
def promiseMsg (pax : Session) (hdr : Header) : Msg :=
  { hdr := { hdr with opcode := .promise }
    body := .votes (promiseVotes pax.ilist hdr.inum).1
      ((promiseVotes pax.ilist hdr.inum).2.map fun cell => Motmot.instancePack cell.inst) }

theorem acceptorPromise_msg (node : Node) (hdr : Header) :
    acceptorPromise node hdr =
      paxosSendToProposer ((node.setBallot hdr.ballot).setGenHigh hdr.ballot.gen)
        (promiseMsg node.pax hdr) := rfl

/-- The count of a promise is right exactly if the scan for its first vote ends on an instance. -/
theorem promiseVotes_whole (list : Ilist) (inum : Nat) :
    (promiseVotes list inum).1 = (promiseVotes list inum).2.length ↔
      list.cells = [] ∨ ∃ cell ∈ list.cells, cell.inum ≤ inum := by
  -- The scan stops at an instance, or runs off the list.
  rcases promiseVotes_cases list inum with
    ⟨older, cell, newer, cells, low, -, votes⟩ | ⟨past, votes⟩
  · rw [votes, cells]
    simp only [List.length_cons, true_iff]
    exact .inr ⟨cell, by simp, low⟩
  · -- Every instance lies past the number: all are counted and none is packed.
    rw [votes]
    simp only [List.length_nil, List.length_eq_zero_iff]
    constructor
    · intro none_
      exact .inl none_
    · rintro (none_ | ⟨cell, mem, low⟩)
      · exact none_
      · have above := past cell mem
        omega

/-- A promise whose count is wrong packs nothing. -/
theorem promiseVotes_torn {list : Ilist} {inum : Nat}
    (torn : (promiseVotes list inum).1 ≠ (promiseVotes list inum).2.length) :
    (promiseVotes list inum).2 = [] := by
  rcases promiseVotes_cases list inum with ⟨older, cell, newer, -, -, -, votes⟩ | ⟨-, votes⟩
  · rw [votes] at torn
    simp at torn
  · rw [votes]

/-- A promise that announces votes and packs none leaves its reader waiting. -/
theorem promise_swallows {msg : Msg} {count : Nat} (fits : FitsHeader msg.hdr)
    (body : msg.body = .votes count []) (announced : count ≠ 0) : ¬ Reads msg := by
  -- The header is whole, but an array was announced, so the unpacker waits for its items.
  intro reads
  obtain ⟨object, unpacked, -⟩ := reads []
  obtain ⟨hdr, packs, -⟩ := carries_header fits
  have waits : Msgpack.unpack [] (msgPack msg ++ []) = none := by
    simp only [msgPack, body, bodyPack, List.flatMap_nil, List.append_nil]
    simp only [Msgpack.unpack]
    rw [if_neg (by decide), packs]
    simp [complete, resume, Msgpack.unpack, announced]
  rw [waits] at unpacked
  cases unpacked

/-- A message that is told has the payload of its opcode, unless it repeats what a log holds. -/
theorem tells_shaped {start before after : Node} {event : Event} {peer : PeerId} {msg : Msg}
    {made : List Request} (tells : Tells start event made before after (.send peer msg)) :
    shaped msg.hdr.opcode msg.body = true ∨
      (∃ cell ∈ before.pax.ilist.cells, cell.inst.hdr = msg.hdr) ∧
        ∃ val, msg.body = .value val := by
  -- An instance is told under the header it has in the log, and everything else under its own
  -- opcode.
  cases tells with
  | side side =>
    cases side with
    | send _ _ side =>
      simp only [Msg.side, Bool.and_eq_true] at side
      exact .inl side.2
    | hello _ _ opcode => exact .inl (by simp [opcode, shaped])
  | inst held named =>
    obtain decree | commit | held := named
    · exact .inl (by simp [decree, shaped])
    · exact .inl (by simp [commit, shaped])
    · exact .inr ⟨held, _, rfl⟩
  | prepare => exact .inl rfl
  | promise => exact .inl rfl
  | accept => exact .inl rfl
  | recommit => exact .inl rfl
  | welcome => exact .inl rfl

/-- The opcodes that instances have while no prepare completes. -/
def written : List Opcode := [.decree, .commit, .recommit]

/--
Every message of a handler has the payload of its opcode if the log of the session, and the logs
that it is sent, are of decrees, commits and recommits.

Only in the handler that completes a prepare does the log hold anything else, and that is a null
that passes for a prepare.
-/
theorem sends_shaped {node : Node} {event : Event} {result : Result}
    (handles : Handles node event result) (wf : node.pax.ilist.WellFormed)
    (plain : ∀ never, never ∉ written → node.pax.ilist.Lacks never ∧ event.Lacks never)
    {peer : PeerId} {msg : Msg} (sends : .send peer msg ∈ fresh node result) :
    shaped msg.hdr.opcode msg.body = true ∨
      (∃ prep, Completes node.pax event prep) ∧ msg.hdr.opcode = .prepare := by
  by_cases known : msg.hdr.opcode ∈ written
  · -- Whatever repeats an instance has a value for its payload.
    obtain ⟨script, config, -, -, told⟩ :=
      @Handles.tells _ _ _ (fun _ => True) handles wf (fun _ => trivial)
        (fun _ _ _ => trivial) _ sends
    obtain ⟨_, _, -, tells⟩ | teaches := told
    · obtain shape | ⟨-, val, body⟩ := tells_shaped tells
      · exact .inl shape
      · rw [body]
        simp only [written, List.mem_cons, List.not_mem_nil, or_false] at known
        rcases known with opcode | opcode | opcode <;> exact .inl (by rw [opcode]; rfl)
    · cases teaches
  by_cases filler : (∃ prep, Completes node.pax event prep) ∧ msg.hdr.opcode = .prepare
  · exact .inr filler
  · -- No instance has such an opcode, from the beginning of the handler to its end.
    have unwritten : Unwritten node.pax event msg.hdr.opcode := by
      constructor
      · exact fun same => known (by simp [written, ← same])
      · exact fun same => known (by simp [written, ← same])
      · exact fun same => known (by simp [written, ← same])
      · exact fun completes same => filler ⟨completes, same.symm⟩
    obtain ⟨lacks, brings⟩ := plain _ known
    obtain ⟨_, before, _, _, absent, -, tells⟩ :=
      handles.tells_lacks unwritten wf lacks brings sends
    obtain shape | ⟨⟨cell, mem, same⟩, -⟩ := tells_shaped tells
    · exact .inl shape
    · exact absurd (congrArg Header.opcode same) (absent _ (Ilist.allots_of_mem mem))

/--
Everything that is packed is read back, except for a promise of a log past the requested
number.
-/
theorem wire_round_trip (pax : Session) (hdr : Header) (val : Value) (acc : Acceptor)
    (inst : Instance) (req : Request) (msg : Msg) :
    (FitsHeader hdr → Carries (headerPack hdr) headerUnpack hdr) ∧
    (FitsValue val → Carries (valuePack val) valueUnpack val) ∧
    (acc.paxid < 2 ^ 32 → Carries (acceptorPack acc) acceptorUnpack { acc with peer := none }) ∧
    (FitsInstance inst → Carries (instancePack inst) instanceUnpack
      { inst with cached := false, learned := false, votes := 0, rejects := 0 }) ∧
    (FitsValue req.val → Carries (requestPack req) requestUnpack req) ∧
    (FitsMsg msg → shaped msg.hdr.opcode msg.body = true → msg.hdr.opcode ≠ .promise →
      Reads msg) ∧
    (FitsMsg (promiseMsg pax hdr) → (Reads (promiseMsg pax hdr) ↔
      pax.ilist.cells = [] ∨ ∃ cell ∈ pax.ilist.cells, cell.inum ≤ hdr.inum)) := by
  refine ⟨carries_header, carries_value, carries_acceptor, carries_instance, carries_request,
    ?_, ?_⟩
  · intro fits shape other
    apply reads_of_whole fits shape
    -- Only promises announce votes.
    -- The count of a vote message is read by a promise alone.
    obtain ⟨hdr, body⟩ := msg
    cases body with
    | votes count votes =>
      obtain ⟨session, ballot, opcode, inum⟩ := hdr
      cases opcode <;> simp_all [shaped]
    | _ => trivial
  · intro fits
    rw [← promiseVotes_whole]
    constructor
    · -- A promise that announces votes and packs none swallows what comes behind it.
      intro reads
      by_contra torn
      have none_ := promiseVotes_torn torn
      have announced : (promiseVotes pax.ilist hdr.inum).1 ≠ 0 := by
        rw [none_] at torn
        exact torn
      refine promise_swallows fits.hdr ?_ announced reads
      simp [promiseMsg, none_]
    · intro counted
      apply reads_of_whole fits rfl
      simpa [whole, promiseMsg] using counted

/-- The welcome of the second member, with its list of three and the log of their joins. -/
def welcomeMsg : Msg :=
  ⟨successor.hdr, .welcome successor.session successor.ibase successor.alist successor.ilist⟩

/-- The header of the prepare that the third member promises to. -/
def prepareHdr : Header := ⟨7, ⟨2, 2⟩, .prepare, 4⟩

/-- The welcome of the second member is read back, and so is the promise of the third. -/
theorem wire_round_trip_welcome :
    Reads welcomeMsg ∧ Reads (promiseMsg follower.bereft.pax prepareHdr) := by
  -- The two messages fit what the theorem asks of them, which is checked by evaluation.
  have trip := wire_round_trip follower.bereft.pax prepareHdr startValue
    { paxid := 1, peer := none, desc := [1] } (startInstance 7)
    { val := startValue, data := [1] } welcomeMsg
  obtain ⟨-, -, -, -, -, plain, promise⟩ := trip
  constructor
  · exact plain (by decide) rfl (by decide)
  · exact (promise (by decide +kernel)).mpr (.inr (by decide +kernel))

/-- A log whose only instance has number five. -/
def lateLog : Ilist where
  cells := [⟨0, freshInstance ⟨7, ⟨1, 1⟩, .decree, 5⟩ ⟨.null, ⟨1, 1⟩, 0⟩⟩]
  limbo := []
  brk := 1

/-- A prepare for all instances from number three on. -/
def earlyPrepare : Header := ⟨7, ⟨1, 2⟩, .prepare, 3⟩

/-- A promise can announce a vote that it does not pack, and swallows the next message. -/
theorem wire_torn : ¬ ∀ pax hdr, FitsMsg (promiseMsg pax hdr) → Reads (promiseMsg pax hdr) := by
  intro claim
  -- The scan counts the instance and runs off the list.
  have torn : promiseMsg { (paxosStart 7 [1]).pax with ilist := lateLog } earlyPrepare =
      ⟨{ earlyPrepare with opcode := .promise }, .votes 1 []⟩ := by decide
  have fits : FitsMsg ⟨{ earlyPrepare with opcode := .promise }, .votes 1 []⟩ := by
    refine ⟨⟨by decide, by decide, by decide, by decide⟩, ?_⟩
    intro vote mem
    cases mem
  have reads := claim { (paxosStart 7 [1]).pax with ilist := lateLog } earlyPrepare
  rw [torn] at reads
  exact promise_swallows fits.hdr rfl (by decide) (reads fits)

end Motmot.Wire
