import Mathlib.Data.List.Infix
import Motmot.Logic.Act

/-!
Values that arrive in messages, and what the handlers can do with a value of any type.

The handlers are dynamically typed: a peer chooses the type of every argument, and an operation
that does not apply to it raises an exception.
-/

namespace Motmot.Plume

/-- Texts, one character for each byte. -/
abbrev Text := List Char

/-- The objects of a message once they are unpacked. -/
inductive Value where
  | nil
  | bool (b : Bool)
  | int (i : Int)
  /-- A float: the text that the database writes for it, and the integer that it equals. -/
  | real (text : Text) (whole : Option Int)
  | raw (bytes : Text)
  | array (items : List Value)
  | map (entries : List (Value × Value))

/-- The exceptions that a handler can end with. -/
inductive Exn where
  | gaierror
  | socketError
  | rpcError
  | certNameMismatch
  | typeError
  | userNotFound
  | invalidUserName
  | cryptoError
  | notStatus
  | databaseError
  | indexError
  | keyError
  | attributeError
  | overflowError
  | valueError
  | systemExit
  deriving DecidableEq

/-- What dictionaries go by: numbers that are equal are one key. -/
inductive Key where
  | nil
  | whole (i : Int)
  | real (text : Text)
  | text (text : Text)
  deriving DecidableEq

namespace Value

/-- A text of the program as a value. -/
def text (s : String) : Value := .raw s.toList

/-- Whether this is `None`. -/
def isNone : Value → Bool
  | nil => true
  | _ => false

/-- The integer that a value is equal to. -/
def whole : Value → Option Int
  | bool b => some (if b then 1 else 0)
  | int i => some i
  | real _ w => w
  | _ => none

/-- Whether a value is equal to a text. -/
def isText (item : Text) : Value → Bool
  | raw bytes => bytes = item
  | _ => false

/-- The key of a value in a dictionary, unless it cannot be hashed. -/
def key : Value → Except Exn Key
  | nil => .ok .nil
  | bool b => .ok (.whole (if b then 1 else 0))
  | int i => .ok (.whole i)
  | real _ (some i) => .ok (.whole i)
  | real text none => .ok (.real text)
  | raw bytes => .ok (.text bytes)
  | array _ => .error .typeError
  | map _ => .error .typeError

/-- Whether a text is in a value: part of a text, an element of a list or a key. -/
def contains (item : Text) : Value → Except Exn Bool
  | raw bytes => .ok (decide (item <:+: bytes))
  | array items => .ok (items.any (isText item))
  | map entries => .ok (entries.any fun entry => isText item entry.1)
  | _ => .error .typeError

/-- The parts of a text between its at signs. -/
def split : Value → Except Exn (List Text)
  | raw bytes => .ok (bytes.splitOn '@')
  | _ => .error .attributeError

/-- The elements that a loop over a value goes through. -/
def iterate : Value → Except Exn (List Value)
  | raw bytes => .ok (bytes.map fun c => .raw [c])
  | array items => .ok items
  | map entries => .ok (entries.map Prod.fst)
  | _ => .error .typeError

/-- The element of a value at a position. -/
def item (i : Nat) : Value → Except Exn Value
  | raw bytes => (bytes[i]?).elim (.error .indexError) fun c => .ok (.raw [c])
  | array items => (items[i]?).elim (.error .indexError) .ok
  | map entries =>
    -- A dictionary is asked for the key that is equal to the position.
    (entries.find? fun entry => entry.1.whole = some (i : Int)).elim (.error .keyError)
      fun entry => .ok entry.2
  | _ => .error .typeError

/-- The parameter of a query that a value is bound to: a null or a text. -/
def bind : Value → Except Exn (Option Text)
  | nil => .ok none
  | bool b => .ok (some (if b then ['1'] else ['0']))
  | int i =>
    -- Integers of more than 64 bits do not fit.
    if -9223372036854775808 ≤ i ∧ i < 9223372036854775808 then
      .ok (some (toString i).toList)
    else .error .overflowError
  | real text _ => .ok (some text)
  | raw bytes =>
    -- Byte strings beyond ASCII are refused.
    if bytes.all fun c => decide (c.toNat < 128) then .ok (some bytes) else .error .databaseError
  | array _ => .error .databaseError
  | map _ => .error .databaseError

end Value

/-- The second part of a text that was split. -/
def second (parts : List Text) : Except Exn Text :=
  (parts[1]?).elim (.error .indexError) .ok

end Motmot.Plume
