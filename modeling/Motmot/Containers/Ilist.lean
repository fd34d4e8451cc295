import Motmot.Containers.SortedList
import Motmot.Types.Session

/-! The instance list and the cursors into it. -/

namespace Motmot

namespace Ilist

/-- The instance at an address, unless it was freed. -/
def inst? (list : Ilist) (addr : Addr) : Option Instance :=
  match list.cells.find? (fun cell => cell.addr = addr) with
  | some cell => some cell.inst
  | none => (list.limbo.find? (fun gone => gone.cell.addr = addr)).map (·.cell.inst)

/-- Whether an address is an element of the list. -/
def onList (list : Ilist) (addr : Addr) : Bool :=
  list.cells.any (fun cell => cell.addr = addr)

/-- Writes the instance at an address. -/
def modify (list : Ilist) (addr : Addr) (f : Instance → Instance) : Ilist :=
  { list with
    cells := list.cells.map fun cell =>
      if cell.addr = addr then { cell with inst := f cell.inst } else cell
    limbo := list.limbo.map fun gone =>
      if gone.cell.addr = addr then { gone with cell.inst := f gone.cell.inst } else gone }

/-- Looks an instance up by its number, from the tail of the list. -/
def find (list : Ilist) (inum : Nat) : Option Cell :=
  SortedList.findRev paxidCompare Cell.inum inum list.cells

/-- The last element of the list. -/
def last (list : Ilist) : Option Cell := list.cells.getLast?

/-- The part of the list that starts at an address. -/
def tailAt (list : Ilist) (addr : Addr) : List Cell :=
  list.cells.dropWhile (fun cell => cell.addr ≠ addr)

/--
The forward link of an instance.

The outer `none` is a link that may not be followed: the instance was freed, or never linked.
The inner `none` is the list head, where a traversal ends.
-/
def next (list : Ilist) (addr : Addr) : Option (Option Addr) :=
  match list.tailAt addr with
  | _ :: rest => some (rest.head?.map Cell.addr)
  | [] =>
    match list.limbo.find? (fun gone => gone.cell.addr = addr) with
    | some gone => gone.next.map some
    | none => none

/-- The element in front of an address, where `none` is the list head. -/
def prev (list : Ilist) (addr : Addr) : Option Addr :=
  ((list.cells.takeWhile (fun cell => cell.addr ≠ addr)).getLast?).map Cell.addr

/-- Allocates an instance outside the list, with no links. -/
def alloc (list : Ilist) (inst : Instance) : Ilist :=
  { list with
    limbo := { cell := { addr := list.brk, inst := inst }, next := none } :: list.limbo
    brk := list.brk + 1 }

/--
Allocates an instance and inserts it by number, from the tail of the list.

An element of the same number leaves the list as it was and the new allocation outside it.
-/
def insert (list : Ilist) (inst : Instance) : Ilist :=
  match SortedList.insertRev paxidCompare Cell.inum { addr := list.brk, inst := inst }
      list.cells with
  | some cells => { list with cells := cells, brk := list.brk + 1 }
  | none => list.alloc inst

/-- Links a cell into the list behind an element. -/
def linkAfter (place : Addr) (cell : Cell) (cells : List Cell) : List Cell :=
  cells.flatMap fun head => if head.addr = place then [head, cell] else [head]

/-- Moves an allocation from outside the list to behind an element. -/
def insertAfter (list : Ilist) (place : Addr) (cell : Cell) : Ilist :=
  { list with
    cells := linkAfter place cell list.cells
    limbo := list.limbo.filter (fun gone => gone.cell.addr ≠ cell.addr) }

/-- Puts an allocation from outside the list in the place of an element, which moves out. -/
def swap (list : Ilist) (out : Cell) (cell : Cell) : Ilist :=
  { list with
    cells := list.cells.map fun head => if head.addr = out.addr then cell else head
    limbo := { cell := out, next := some cell.addr } ::
      list.limbo.filter (fun gone => gone.cell.addr ≠ cell.addr) }

/-- Frees the elements numbered below a bound. -/
def dropBelow (list : Ilist) (inum : Nat) : Ilist :=
  { list with cells := list.cells.dropWhile (fun cell => cell.inum < inum) }

/-- The elements that such a truncation frees. -/
def below (list : Ilist) (inum : Nat) : List Cell :=
  list.cells.takeWhile (fun cell => cell.inum < inum)

/-- A walk along the list up to the last number not past the bound. -/
def glbWalk (inum : Nat) : Option Addr → List Cell → Option Addr
  | prev, [] => prev
  | prev, cell :: rest => if cell.inum > inum then prev else glbWalk inum (some cell.addr) rest

/--
The instance with the closest number not past the bound, walking forward from a cursor.

A cursor outside the list is followed along the links that its allocation still carries.
The outer `none` is a walk through a freed instance or a missing link.
-/
def glb (list : Ilist) (inum : Nat) : Nat → Option Addr → Addr → Option (Option Addr)
  | 0, _, _ => none
  | fuel + 1, prev, it =>
    -- From an element of the list on, the walk is one along the list.
    if list.onList it then some (glbWalk inum prev (list.tailAt it))
    else
      match list.limbo.find? (fun gone => gone.cell.addr = it) with
      | none => none
      | some gone =>
        -- The walk stops in front of a number past the bound.
        if gone.cell.inum > inum then some prev
        else
          -- An instance that was put out still has the link that it had.
          match gone.next with
          | none => none
          | some follow => list.glb inum fuel (some it) follow

/-- The cursor walk from a given instance; detached links are followed at most once each. -/
def getInstanceGlb (list : Ilist) (it : Addr) (inum : Nat) : Option (Option Addr) :=
  list.glb inum (list.limbo.length + 1) none it

end Ilist

end Motmot
