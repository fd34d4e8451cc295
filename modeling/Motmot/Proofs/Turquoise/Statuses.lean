import Motmot.Proofs.Plume.Discretion
import Motmot.Turquoise.Rpc

/-!
What the client makes of the statuses that it is sent.

The check of the opcode keeps every message away from the handlers, which could not take one
anyway.
-/

namespace Motmot.Turquoise

open Plume (Text Value Rpc Net Server Address RemoteMethod)

variable {account next : Account} {net : Net} {conn : Address} {server : Server}

/-- A status of three fields, of the types that the first three checks ask for. -/
def Triple (a : List Object) : Prop :=
  ∃ name number ip, a = [.raw name, .positiveInteger number, .raw ip]

/-- Whatever passes the check of the size lacks the fourth field. -/
theorem storeStatus_stops (account : Account) (a : List Object) :
    storeStatus account a = .stop .refused account ∨
      Triple a ∧ storeStatus account a = .stop .pastEnd account := by
  -- An array of another length is refused.
  unfold storeStatus
  split
  · exact Or.inl rfl
  · rename_i size
    simp only [ne_eq, not_not] at size
    obtain ⟨name, status, ip, rfl⟩ := List.length_eq_three.mp size
    -- The checks of the three fields come one after the other, then the read behind them.
    cases name with
    | raw name =>
      cases status with
      | positiveInteger number =>
        cases ip with
        | raw ip => exact Or.inr ⟨⟨name, number, ip, rfl⟩, rfl⟩
        | _ => exact Or.inl rfl
      | _ => exact Or.inl rfl
    | _ => exact Or.inl rfl

/-- A list of statuses is taken only if it is empty. -/
theorem storeStatuses_eq_ok {items : List Object} :
    storeStatuses account items = .ok next ↔ items = [] ∧ next = account := by
  -- The first item stops the loop, if there is one.
  cases items with
  | nil =>
    simp only [storeStatuses, Outcome.ok.injEq, true_and]
    exact eq_comm
  | cons item rest =>
    simp only [reduceCtorEq, false_and, iff_false]
    cases item with
    | array a =>
      intro stored
      have stops := storeStatus_stops account a
      simp only [storeStatuses] at stored
      rcases stops with refused | ⟨-, pastEnd⟩
      · rw [refused] at stored
        contradiction
      · rw [pastEnd] at stored
        contradiction
    | _ => simp [storeStatuses]

/-- The handler of the list could take no status, whatever its format. -/
theorem rpcAllStatuses_eq_ok {objects : List Object} :
    rpcAllStatuses account objects = .ok next ↔
      (∃ rest, objects = .array [] :: rest) ∧ next = account := by
  -- Only an array is stored, status by status.
  cases objects with
  | nil => simp [rpcAllStatuses]
  | cons object rest =>
    cases object with
    | array items => simp [rpcAllStatuses, storeStatuses_eq_ok]
    | _ => simp [rpcAllStatuses]

/-- The handler of the list is safe unless there is nothing to read, or a status of three fields. -/
theorem rpcAllStatuses_safe {objects : List Object} :
    Result.safe (rpcAllStatuses account objects) = false ↔
      objects = [] ∨ ∃ a items rest, Triple a ∧ objects = .array (.array a :: items) :: rest := by
  -- A missing object, an object of another type, and a list by its first item.
  cases objects with
  | nil => simp [rpcAllStatuses, Result.safe]
  | cons object rest =>
    cases object with
    | array items =>
      cases items with
      | nil => simp [rpcAllStatuses, storeStatuses, Result.safe]
      | cons item items =>
        cases item with
        | array a =>
          have stops := storeStatus_stops account a
          simp only [rpcAllStatuses, storeStatuses]
          -- The item is refused, or lets the read run past its end.
          rcases stops with refused | ⟨triple, pastEnd⟩
          · -- A refusal comes from a field of another type.
            have other : ¬ Triple a := by
              rintro ⟨name, number, ip, rfl⟩
              simp [storeStatus, typecheck, Object.string, Object.uint] at refused
            simp [refused, Result.safe, other]
          · simp [pastEnd, Result.safe, triple]
        | _ => simp [rpcAllStatuses, storeStatuses, Result.safe]
    | _ => simp [rpcAllStatuses, Result.safe]

/-- The handler of one status takes none either. -/
theorem rpcGetStatusResp_ne_ok (objects : List Object) :
    rpcGetStatusResp account objects ≠ .ok next := by
  -- A field that fails its check is refused, so only what comes behind the checks matters.
  have checks : ∀ {α : Type} (a : List Object) (i : Nat) (tipe : Object → Option α)
      (go : α → Result), (∀ value, go value ≠ .ok next) →
        typecheck account a i tipe go ≠ .ok next := by
    intro α a i tipe go never
    unfold typecheck
    split
    · simp
    · split
      · simp
      · exact never _
  cases objects with
  | nil => simp [rpcGetStatusResp]
  | cons object rest =>
    cases object with
    | array a =>
      simp only [rpcGetStatusResp]
      split
      · simp
      · refine checks a 0 _ _ fun name => checks a 1 _ _ fun status => ?_
        refine checks a 2 _ _ fun ip => checks a 3 _ _ fun port => ?_
        -- Where the buddy is found, the writes go wrong.
        split
        · simp
        · unfold storeFound
          split <;> simp
    | _ => simp [rpcGetStatusResp]

/-- No object gets past the check of the opcode. -/
theorem rpcDispatch_refuses (account : Account) (object : Object) :
    rpcDispatch account object = .stop .refused account := by
  -- A negative opcode leads to no handler.
  unfold rpcDispatch
  split
  · rename_i opcode negative rest
    -- The opcodes of the responses are positive.
    have statuses : opcode ≠ RemoteMethod.allStatusResponse.code := by
      simp only [RemoteMethod.code]
      omega
    have status : opcode ≠ RemoteMethod.userStatusResp.code := by
      simp only [RemoteMethod.code]
      omega
    rw [if_neg statuses, if_neg status]
  · rfl

/--
The client reads only what it has checked, but takes no response with the statuses of friends.

It returns nonzero and stores nothing, whatever the friends are.
-/
theorem statuses_refused (account : Account) :
    (∀ object, Result.safe (rpcDispatch account object) = true) ∧
      ∀ net conn server reply,
        Act.result (Plume.getAllFriendStatuses net conn) server = .ok reply →
          rpcDispatch account (unpacked reply) = .stop .refused account := by
  constructor
  · intro object
    -- The opcode of the response is refused before its body is looked at.
    rw [rpcDispatch_refuses]
    rfl
  · -- So is that of every reply that the server makes.
    intro net conn server reply _
    exact rpcDispatch_refuses account _

/-- The response to a user with one friend, who is online. -/
def friendStatuses : Value :=
  Plume.message .allStatusResponse [.array [.array
    [.array [.raw Plume.userB, Plume.Status.online.value], .raw ['i', 'p'], .int 2]]]

/-- The server builds it for that user. -/
theorem friendStatuses_built : Act.result (Plume.getAllFriendStatuses Plume.offline
    (Plume.clientConn 1))
    (Plume.office [⟨some Plume.userA, some Plume.userB, Plume.isAccepted⟩]) =
      .ok friendStatuses := by
  rfl

/-- The client of that user refuses the response. -/
theorem statuses_refused_friend :
    rpcDispatch ⟨[], []⟩ (unpacked friendStatuses) = .stop .refused ⟨[], []⟩ :=
  (statuses_refused ⟨[], []⟩).2 Plume.offline (Plume.clientConn 1)
    (Plume.office [⟨some Plume.userA, some Plume.userB, Plume.isAccepted⟩]) friendStatuses
    friendStatuses_built

/-- The status of a friend who is online is built by the server and refused by the client. -/
theorem statuses_lost : ∃ server reply,
    Act.result (Plume.getAllFriendStatuses Plume.offline (Plume.clientConn 1)) server = .ok reply ∧
      (∀ account, ¬ ∃ next, rpcDispatch account (unpacked reply) = .ok next) ∧
      Plume.Server.online server (.text Plume.userB) = some (Plume.clientConn 2) := by
  refine ⟨Plume.office [⟨some Plume.userA, some Plume.userB, Plume.isAccepted⟩], friendStatuses,
    friendStatuses_built, ?_, rfl⟩
  rintro account ⟨next, accepted⟩
  rw [rpcDispatch_refuses] at accepted
  contradiction

end Motmot.Turquoise
