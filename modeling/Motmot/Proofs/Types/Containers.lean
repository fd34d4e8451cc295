import Motmot.Containers.Ilist
import Motmot.Paxos.Util
import Motmot.Proofs.Containers.Factory
import Motmot.Proofs.Types.Compare
import Motmot.Types.Containers

/-! The containers of a session are finite maps, and the lists of the session are their contents. -/

namespace Motmot

open LinkedList (Built IsMap Sorted keyAt)

instance : Std.TransCmp acceptorContainer.compare := inferInstanceAs (Std.TransCmp paxidCompare)

instance : Std.LawfulEqCmp acceptorContainer.compare :=
  inferInstanceAs (Std.LawfulEqCmp paxidCompare)

instance : Std.TransCmp instanceContainer.compare := inferInstanceAs (Std.TransCmp paxidCompare)

instance : Std.LawfulEqCmp instanceContainer.compare :=
  inferInstanceAs (Std.LawfulEqCmp paxidCompare)

instance : Std.TransCmp requestContainer.compare := inferInstanceAs (Std.TransCmp reqidCompare)

instance : Std.LawfulEqCmp requestContainer.compare :=
  inferInstanceAs (Std.LawfulEqCmp reqidCompare)

variable {ν : Type} [DecidableEq ν]

/-- Pairs are strictly and totally ordered by their comparison. -/
theorem ppairCompare_strictTotal :
    IsStrictTotalOrder PPair fun x y => ppairCompare x y = .lt where
  trichotomous := by
    -- What is neither below nor above is equal.
    intro x y notBelow notAbove
    have : ppairCompare x y ≠ .gt := fun above => notAbove (Std.OrientedCmp.gt_iff_lt.mp above)
    cases result : ppairCompare x y with
    | lt => exact absurd result notBelow
    | eq => exact ppairCompare_eq_eq.mp result
    | gt => exact absurd result this
  irrefl := by
    intro x
    simp [ppairCompare_eq_lt]
  trans := by
    intro x y z
    simp only [ppairCompare_eq_lt]
    omega

/-- Whatever is inserted and removed, the three containers are finite maps. -/
theorem containers_are_maps :
    (∀ list : LinkedList ν Acceptor, Built acceptorContainer list →
      ∃ addrs, IsMap acceptorContainer list addrs) ∧
    (∀ list : LinkedList ν Instance, Built instanceContainer list →
      ∃ addrs, IsMap instanceContainer list addrs) ∧
    (∀ list : LinkedList ν Request, Built requestContainer list →
      ∃ addrs, IsMap requestContainer list addrs) ∧
    IsStrictTotalOrder PPair (fun x y => reqidCompare x y = .lt) ∧
    ∀ x y, reqidCompare x y = .eq ↔ x = y := by
  -- Each container stays sorted whatever is done to it, and a sorted one is a map.
  refine ⟨?_, ?_, ?_, ppairCompare_strictTotal, fun x y => ppairCompare_eq_eq⟩
  · intro list built
    obtain ⟨addrs, sorted⟩ := built.sorted
    exact ⟨addrs, sorted.isMap⟩
  · intro list built
    obtain ⟨addrs, sorted⟩ := built.sorted
    exact ⟨addrs, sorted.isMap⟩
  · intro list built
    obtain ⟨addrs, sorted⟩ := built.sorted
    exact ⟨addrs, sorted.isMap⟩

/-- Two requests are inserted out of order, and a third one carries the identifier of the first. -/
theorem containers_are_maps_requests : ∃ list : LinkedList Nat Request,
    list.count = 2 ∧ list.first = some 1 ∧ ∃ addrs, IsMap requestContainer list addrs := by
  -- The identifiers alternate with the address, so the third has that of the first.
  let request (gen : Nat) : Request :=
    { val := { dkind := .chat, reqid := { id := 1, gen := gen }, extra := 0 }, data := [] }
  let mem (addr : Nat) : Entry Nat Request :=
    { elt := request ((7 - addr) % 2), next := none, prev := none }
  have start : Built requestContainer (LinkedList.init mem) := Built.init mem
  have built := @Built.insert _ _ _ _ _ _ (@Built.insert _ _ _ _ _ _ (@Built.insert _ _ _ _ _ _
    start 0 1 _ _ rfl) 1 2 _ _ rfl) 2 3 _ _ rfl
  exact ⟨_, rfl, rfl, containers_are_maps.2.2.1 _ built⟩

/-- The requests of one participant, in the order of their generations. -/
def numbered (gen : Nat) : Request :=
  { val := { dkind := .chat, reqid := { id := 1, gen := gen }, extra := 0 }, data := [] }

/-- A participant that has made any number of requests has them all in a container. -/
theorem numbered_built (requests : Nat) : ∃ (list : LinkedList Nat Request) (addrs : List Nat),
    Built requestContainer list ∧ Sorted requestContainer list addrs ∧ addrs.length = requests ∧
      (∀ addr ∈ addrs, addr < requests) ∧ ∀ addr, list.contents addr = numbered addr := by
  -- The request of every generation lies at the address of that number.
  let mem (addr : Nat) : Entry Nat Request := { elt := numbered addr, next := none, prev := none }
  -- By induction on the number of requests: the next one has a generation of its own.
  induction requests with
  | zero =>
    exact ⟨LinkedList.init mem, [], Built.init mem, Sorted.init requestContainer mem, rfl, by simp,
      fun addr => rfl⟩
  | succ requests ih =>
    obtain ⟨list, addrs, built, sorted, length, bounded, contents⟩ := ih
    have key : ∀ addr, keyAt requestContainer list addr = { id := 1, gen := addr } := by
      intro addr
      rw [keyAt, contents]
      rfl
    have absent : ∀ it ∈ addrs,
        keyAt requestContainer list it ≠ keyAt requestContainer list requests := by
      intro it member same
      have below := bounded it member
      simp only [key, PPair.mk.injEq, true_and] at same
      omega
    -- The new request is linked in without moving any other.
    obtain ⟨grown, front, rest, made, rfl, grows, same, _⟩ :=
      sorted.insert_absent (Nat.lt_succ_self addrs.length) absent
    refine ⟨grown, front ++ requests :: rest, built.insert requests made, grows, ?_, ?_, ?_⟩
    · simp only [List.length_append, List.length_cons] at length ⊢
      omega
    · intro addr member
      have : addr = requests ∨ addr ∈ front ++ rest := by grind
      rcases this with rfl | member
      · exact Nat.lt_succ_self addr
      · exact Nat.lt_succ_of_lt (bounded addr member)
    · intro addr
      rw [same, contents]

/-- After as many requests as an `unsigned` has values the count is zero and the list is not. -/
theorem count_wraps : ¬ ∀ list : LinkedList Nat Request, Built requestContainer list →
    ∀ addrs, list.Chain addrs → list.count.toNat = addrs.length := by
  intro exact
  obtain ⟨list, addrs, built, sorted, length, -⟩ := numbered_built (2 ^ 32)
  have counted := exact list built addrs sorted.chain
  rw [sorted.counted, UInt32.toNat_ofNat', length] at counted
  simp at counted

section Contents

variable {fuel : Nat}

omit [DecidableEq ν] in
/-- An acceptor is looked up in the contents of its container. -/
theorem acceptorFind_contents {list : LinkedList ν Acceptor} {addrs : List ν}
    (sorted : Sorted acceptorContainer list addrs) (paxid : Nat) (enough : addrs.length < fuel) :
    ∃ found, LinkedList.find acceptorContainer list paxid fuel = some found ∧
      found.map list.contents = acceptorFind (addrs.map list.contents) paxid :=
  sorted.find_view list.contents Acceptor.paxid (fun _ => rfl) paxid enough

/-- An acceptor is inserted into the contents of its container. -/
theorem acceptorInsert_contents {list : LinkedList ν Acceptor} {addrs : List ν}
    (sorted : Sorted acceptorContainer list addrs) (elt : ν) (enough : addrs.length < fuel) :
    ∃ holder after afterwards,
      LinkedList.insert acceptorContainer list elt fuel = some (holder, after) ∧
      Sorted acceptorContainer after afterwards ∧ after.contents = list.contents ∧
      afterwards.map list.contents =
        acceptorInsert (addrs.map list.contents) (list.contents elt) :=
  sorted.insert_view list.contents Acceptor.paxid (fun _ => rfl) elt enough

omit [DecidableEq ν] in
/-- A request is looked up in the contents of its container. -/
theorem requestFind_contents {list : LinkedList ν Request} {addrs : List ν}
    (sorted : Sorted requestContainer list addrs) (reqid : ReqId) (enough : addrs.length < fuel) :
    ∃ found, LinkedList.find requestContainer list reqid fuel = some found ∧
      found.map list.contents = requestFind (addrs.map list.contents) reqid :=
  sorted.find_view list.contents (fun req => req.val.reqid) (fun _ => rfl) reqid enough

/-- A request is inserted into the contents of its container. -/
theorem requestInsert_contents {list : LinkedList ν Request} {addrs : List ν}
    (sorted : Sorted requestContainer list addrs) (elt : ν) (enough : addrs.length < fuel) :
    ∃ holder after afterwards,
      LinkedList.insert requestContainer list elt fuel = some (holder, after) ∧
      Sorted requestContainer after afterwards ∧ after.contents = list.contents ∧
      afterwards.map list.contents =
        requestInsert (addrs.map list.contents) (list.contents elt) :=
  sorted.insert_view list.contents (fun req => req.val.reqid) (fun _ => rfl) elt enough

/-- An instance with the address at which it was allocated. -/
def cellAt (list : LinkedList Addr Instance) (addr : Addr) : Cell :=
  { addr := addr, inst := list.contents addr }

/-- An instance is looked up among the cells of its container. -/
theorem instanceFind_cells {list : LinkedList Addr Instance} {addrs : List Addr} {ilist : Ilist}
    (sorted : Sorted instanceContainer list addrs) (cells : ilist.cells = addrs.map (cellAt list))
    (inum : Nat) (enough : addrs.length < fuel) :
    ∃ found, LinkedList.find instanceContainer list inum fuel = some found ∧
      found.map (cellAt list) = ilist.find inum := by
  rw [Ilist.find, cells]
  exact sorted.find_view (cellAt list) Cell.inum (fun _ => rfl) inum enough

/-- An instance is inserted among the cells of its container, from where it was allocated. -/
theorem instanceInsert_cells {list : LinkedList Addr Instance} {addrs : List Addr} {ilist : Ilist}
    (sorted : Sorted instanceContainer list addrs) (cells : ilist.cells = addrs.map (cellAt list))
    (enough : addrs.length < fuel) : ∃ holder after afterwards,
      LinkedList.insert instanceContainer list ilist.brk fuel = some (holder, after) ∧
      Sorted instanceContainer after afterwards ∧ after.contents = list.contents ∧
      afterwards.map (cellAt list) = (ilist.insert (list.contents ilist.brk)).cells := by
  -- The pointers do what the list of cells does, whose insertion is the model's own.
  obtain ⟨holder, after, afterwards, made, grows, same, view⟩ :=
    sorted.insert_view (cellAt list) Cell.inum (fun _ => rfl) ilist.brk enough
  refine ⟨holder, after, afterwards, made, grows, same, view.trans ?_⟩
  rw [Ilist.insert, cells]
  have shape : instanceContainer.insertDir.insert instanceContainer.compare Cell.inum
      (cellAt list ilist.brk) (addrs.map (cellAt list)) =
      SortedList.insertRev paxidCompare Cell.inum
        { addr := ilist.brk, inst := list.contents ilist.brk } (addrs.map (cellAt list)) := rfl
  rw [shape]
  cases SortedList.insertRev paxidCompare Cell.inum
    { addr := ilist.brk, inst := list.contents ilist.brk } (addrs.map (cellAt list)) with
  | some placed => rfl
  | none => exact cells.symm

end Contents

end Motmot
