import Motmot.Logic.Octets
import Motmot.Plume.Rpc

/-! The connection of a client to the server, and the messages that are read off it. -/

namespace Motmot.Plume

/-- A byte string as a text. -/
def textOf (bytes : List UInt8) : Text := bytes.map fun byte => Char.ofNat byte.toNat

mutual

/-- An unpacked object as a value of the server. -/
def valueOf : Msgpack.Object → Value
  | .uint n => .int n
  | .bool b => .bool b
  | .raw bytes => .raw (textOf bytes)
  | .array objects => .array (valuesOf objects)

/-- The elements of an array. -/
def valuesOf : List Msgpack.Object → List Value
  | [] => []
  | object :: objects => valueOf object :: valuesOf objects

end

/-- What the reader of a connection puts into its queue as the chunks of a stream come in. -/
def recvqueue (codec : Msgpack.Codec) (chunks : List (List UInt8)) : List Value :=
  valuesOf (chunks.foldl (Stream.Reader.feed codec.unpacker) .fresh).objects

theorem valuesOf_eq_map (objects : List Msgpack.Object) :
    valuesOf objects = objects.map valueOf := by
  induction objects with
  | nil => rfl
  | cons object objects ih => rw [valuesOf, ih, List.map_cons]

end Motmot.Plume
