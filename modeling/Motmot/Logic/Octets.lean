import Mathlib.Algebra.Order.Ring.Nat
import Motmot.Logic.Msgpack
import Motmot.Logic.Stream

/-!
The bytes of packed objects, and the unpacker that reads them as they come in.

Small numbers, sizes and lengths share a byte with the kind of the object. Larger ones follow it
in big-endian order, in as many bytes as they need.
-/

namespace Msgpack

/-- The last bytes of a number, the most significant first. -/
def bigEndian : Nat → Nat → List UInt8
  | 0, _ => []
  | width + 1, n => bigEndian width (n / 256) ++ [UInt8.ofNat n]

/-- The number that bytes stand for, the most significant first. -/
def number (bytes : List UInt8) : Nat := bytes.foldl (fun n byte => n * 256 + byte.toNat) 0

/-- The bytes of a token. -/
def Token.bytes : Token → List UInt8
  | .uint n =>
    if n < 0x80 then [UInt8.ofNat n]
    else if n < 2 ^ 8 then 0xcc :: bigEndian 1 n
    else if n < 2 ^ 16 then 0xcd :: bigEndian 2 n
    else if n < 2 ^ 32 then 0xce :: bigEndian 4 n
    else 0xcf :: bigEndian 8 n
  | .bool b => [if b then 0xc3 else 0xc2]
  | .raw length =>
    if length < 32 then [UInt8.ofNat (0xa0 + length)]
    else if length < 2 ^ 16 then 0xda :: bigEndian 2 length
    else 0xdb :: bigEndian 4 length
  | .body bytes => bytes
  | .array size =>
    if size < 16 then [UInt8.ofNat (0x90 + size)]
    else if size < 2 ^ 16 then 0xdc :: bigEndian 2 size
    else 0xdd :: bigEndian 4 size

/-- A number, a length or a size has its place in the format. -/
def Token.Fits : Token → Prop
  | .uint n => n < 2 ^ 64
  | .raw length => length < 2 ^ 32
  | .array size => size < 2 ^ 32
  | .bool _ | .body _ => True

instance : DecidablePred Token.Fits := fun token => by
  cases token <;> simp only [Token.Fits] <;> infer_instance

/-- What the bytes at the front of a stream stand for: an object, or an array that begins. -/
inductive Piece where
  | object (object : Object)
  | array (size : Nat)

/-- A way to read the first piece off a stream, once it is there as a whole. -/
abbrev PieceReader : Type := List UInt8 → Option (Piece × List UInt8)

/-- Takes a number of bytes off a stream once they are there. -/
def grab (count : Nat) (bytes : List UInt8) : Option (List UInt8 × List UInt8) :=
  if count ≤ bytes.length then some (bytes.take count, bytes.drop count) else none

/-- Takes a number of bytes off a stream and goes on with them. -/
def grabbing (count : Nat) (next : List UInt8 → PieceReader) : PieceReader := fun bytes =>
  (grab count bytes).bind fun taken => next taken.1 taken.2

/-- A piece that needs nothing more of the stream. -/
def ready (piece : Piece) : PieceReader := fun bytes => some (piece, bytes)

/-- A number in a number of bytes. -/
def integer (width : Nat) : PieceReader :=
  grabbing width fun digits => ready (.object (.uint (number digits)))

/-- The bytes of a byte string. -/
def string (length : Nat) : PieceReader :=
  grabbing length fun data => ready (.object (.raw data))

/-- A byte string behind its length in a number of bytes. -/
def longString (width : Nat) : PieceReader := grabbing width fun digits => string (number digits)

/-- The size of an array in a number of bytes. -/
def longArray (width : Nat) : PieceReader :=
  grabbing width fun digits => ready (.array (number digits))

/-- The piece that begins with a byte. No other kinds of objects are ever packed. -/
def pieceOf (kind : Nat) : PieceReader :=
  if kind < 0x80 then ready (.object (.uint kind))
  else if kind < 0x90 then fun _ => none
  else if kind < 0xa0 then ready (.array (kind - 0x90))
  else if kind < 0xc0 then string (kind - 0xa0)
  else if kind = 0xc2 then ready (.object (.bool false))
  else if kind = 0xc3 then ready (.object (.bool true))
  else if kind = 0xcc then integer 1
  else if kind = 0xcd then integer 2
  else if kind = 0xce then integer 4
  else if kind = 0xcf then integer 8
  else if kind = 0xda then longString 2
  else if kind = 0xdb then longString 4
  else if kind = 0xdc then longArray 2
  else if kind = 0xdd then longArray 4
  else fun _ => none

/-- Reads the first piece off a stream. -/
def lex : PieceReader
  | [] => none
  | head :: rest => pieceOf head.toNat rest

/-- What a piece makes of the arrays that are being read. -/
def push (frames : List Frame) : Piece → Progress
  | .object object => complete frames object
  | .array size =>
    if size = 0 then complete frames (.array []) else .more (⟨size, []⟩ :: frames)

/-- Reads pieces until an object is whole, as many as a bound allows. -/
def readPieces : Nat → List Frame → List UInt8 → Option (Object × List UInt8)
  | 0, _, _ => none
  | bound + 1, frames, bytes =>
    match lex bytes with
    | none => none
    | some (piece, rest) =>
      match push frames piece with
      | .whole object => some (object, rest)
      | .more frames => readPieces bound frames rest

/-- Reads one object off a stream, or nothing while it is not there as a whole. -/
def readObject (bytes : List UInt8) : Option (Object × List UInt8) :=
  readPieces bytes.length [] bytes

/-! ### Numbers -/

theorem bigEndian_length (width n : Nat) : (bigEndian width n).length = width := by
  induction width generalizing n with
  | zero => rfl
  | succ width ih => simp [bigEndian, ih]

/-- A number is read back from as many bytes as it needs. -/
theorem number_bigEndian {width n : Nat} (small : n < 256 ^ width) :
    number (bigEndian width n) = n := by
  -- The last byte is the remainder, and the bytes before it stand for the quotient.
  induction width generalizing n with
  | zero =>
    have zero : n = 0 := by simpa using small
    subst zero
    rfl
  | succ width ih =>
    have upper : n / 256 < 256 ^ width := by
      rw [Nat.pow_succ] at small
      exact Nat.div_lt_of_lt_mul (by omega)
    have digits := ih upper
    unfold number at digits ⊢
    rw [bigEndian, List.foldl_append, digits, List.foldl_cons, List.foldl_nil,
      UInt8.toNat_ofNat']
    omega

/-! ### Pieces -/

/-- Bytes that were written in front of a stream can be taken off it. -/
theorem grab_append {count : Nat} {bytes : List UInt8} (length : bytes.length = count)
    (rest : List UInt8) : grab count (bytes ++ rest) = some (bytes, rest) := by
  subst length
  simp [grab]

/-- Taking bytes off a stream does not depend on what follows. -/
theorem grab_stable {count : Nat} {bytes taken rest : List UInt8} (more : List UInt8)
    (found : grab count bytes = some (taken, rest)) :
    grab count (bytes ++ more) = some (taken, rest ++ more) := by
  -- What is taken lies within the first part of the stream, which more bytes leave where it is.
  unfold grab at found ⊢
  split at found
  · rename_i enough
    obtain ⟨rfl, rfl⟩ := Prod.mk.inj (Option.some.inj found)
    rw [if_pos (by rw [List.length_append]; omega), List.take_append_of_le_length enough,
      List.drop_append_of_le_length enough]
  · contradiction

theorem grab_shortens {count : Nat} {bytes taken rest : List UInt8}
    (found : grab count bytes = some (taken, rest)) : rest.length ≤ bytes.length := by
  unfold grab at found
  split at found
  · obtain ⟨-, rfl⟩ := Prod.mk.inj (Option.some.inj found)
    rw [List.length_drop]
    omega
  · contradiction

/-- A reader that more of the stream does not disturb, and that does not put bytes back. -/
structure Steady (reader : PieceReader) : Prop where
  stable : ∀ {bytes rest : List UInt8} {piece : Piece} (more : List UInt8),
    reader bytes = some (piece, rest) → reader (bytes ++ more) = some (piece, rest ++ more)
  shortens : ∀ {bytes rest : List UInt8} {piece : Piece},
    reader bytes = some (piece, rest) → rest.length ≤ bytes.length

theorem Steady.grabbing {count : Nat} {next : List UInt8 → PieceReader}
    (steady : ∀ taken, Steady (next taken)) : Steady (grabbing count next) where
  stable := by
    intro bytes rest piece more found
    -- The piece is grabbed, and what is read behind it is as steady as its reader.
    obtain ⟨⟨taken, behind⟩, grabbed, after⟩ := Option.bind_eq_some_iff.mp found
    show (grab count (bytes ++ more)).bind _ = _
    rw [grab_stable more grabbed]
    exact (steady taken).stable more after
  shortens := by
    intro bytes rest piece found
    obtain ⟨⟨taken, behind⟩, grabbed, after⟩ := Option.bind_eq_some_iff.mp found
    exact Nat.le_trans ((steady taken).shortens after) (grab_shortens grabbed)

theorem Steady.ready (piece : Piece) : Steady (ready piece) where
  stable := by
    intro bytes rest other more found
    obtain ⟨rfl, rfl⟩ := Prod.mk.inj (Option.some.inj found)
    rfl
  shortens := by
    intro bytes rest other found
    obtain ⟨-, rfl⟩ := Prod.mk.inj (Option.some.inj found)
    exact Nat.le_refl _

theorem Steady.none : Steady fun _ => none where
  stable := by
    intro bytes rest piece more found
    contradiction
  shortens := by
    intro bytes rest piece found
    contradiction

theorem steady_integer (width : Nat) : Steady (integer width) := .grabbing fun _ => .ready _

theorem steady_string (length : Nat) : Steady (string length) := .grabbing fun _ => .ready _

theorem steady_longString (width : Nat) : Steady (longString width) :=
  .grabbing fun _ => steady_string _

theorem steady_longArray (width : Nat) : Steady (longArray width) := .grabbing fun _ => .ready _

theorem Steady.ite {condition : Prop} [Decidable condition] {left right : PieceReader}
    (first : Steady left) (second : Steady right) :
    Steady (if condition then left else right) := by
  by_cases holds : condition
  · rw [if_pos holds]
    exact first
  · rw [if_neg holds]
    exact second

/-- Behind its first byte, every piece is read steadily. -/
theorem steady_pieceOf (kind : Nat) : Steady (pieceOf kind) :=
  .ite (.ready _) <| .ite .none <| .ite (.ready _) <| .ite (steady_string _) <|
    .ite (.ready _) <| .ite (.ready _) <|
      .ite (steady_integer 1) <| .ite (steady_integer 2) <| .ite (steady_integer 4) <|
        .ite (steady_integer 8) <| .ite (steady_longString 2) <| .ite (steady_longString 4) <|
          .ite (steady_longArray 2) <| .ite (steady_longArray 4) .none

/-- The first piece does not depend on what follows. -/
theorem lex_stable {bytes rest : List UInt8} {piece : Piece} (more : List UInt8)
    (found : lex bytes = some (piece, rest)) :
    lex (bytes ++ more) = some (piece, rest ++ more) := by
  cases bytes with
  | nil => contradiction
  | cons head bytes => exact (steady_pieceOf head.toNat).stable more found

/-- The first piece takes a byte at least. -/
theorem lex_consumes {bytes rest : List UInt8} {piece : Piece}
    (found : lex bytes = some (piece, rest)) : rest.length < bytes.length := by
  cases bytes with
  | nil => contradiction
  | cons head bytes => exact Nat.lt_succ_of_le ((steady_pieceOf head.toNat).shortens found)

/-! ### Tokens -/

/-- What was written in front of a stream is taken off it. -/
theorem grabbing_append {count : Nat} {next : List UInt8 → PieceReader} {bytes : List UInt8}
    (length : bytes.length = count) (rest : List UInt8) :
    grabbing count next (bytes ++ rest) = next bytes rest := by
  unfold grabbing
  rw [grab_append length]
  rfl

theorem grabbing_bigEndian {width n : Nat} {next : Nat → PieceReader} (small : n < 256 ^ width)
    (rest : List UInt8) :
    grabbing width (fun digits => next (number digits)) (bigEndian width n ++ rest) =
      next n rest := by
  rw [grabbing_append (bigEndian_length width n), number_bigEndian small]

theorem toNat_byte {n : Nat} (small : n < 256) : (UInt8.ofNat n).toNat = n := by
  rw [UInt8.toNat_ofNat']
  omega

/-- A number is read back. -/
theorem lex_uint {n : Nat} (fits : n < 2 ^ 64) (rest : List UInt8) :
    lex ((Token.uint n).bytes ++ rest) = some (.object (.uint n), rest) := by
  -- One case for each width that a number may have.
  simp only [Token.bytes]
  split
  · rename_i small
    show pieceOf (UInt8.ofNat n).toNat rest = _
    rw [toNat_byte (by omega), pieceOf, if_pos small]
    rfl
  split
  · rename_i small
    exact @grabbing_bigEndian 1 n (fun n => ready (.object (.uint n))) (by omega) rest
  split
  · rename_i small
    exact @grabbing_bigEndian 2 n (fun n => ready (.object (.uint n))) (by omega) rest
  split
  · rename_i small
    exact @grabbing_bigEndian 4 n (fun n => ready (.object (.uint n))) (by omega) rest
  · exact @grabbing_bigEndian 8 n (fun n => ready (.object (.uint n))) (by omega) rest

theorem lex_bool (b : Bool) (rest : List UInt8) :
    lex ((Token.bool b).bytes ++ rest) = some (.object (.bool b), rest) := by
  cases b <;> rfl

/-- A byte string is read back behind its length. -/
theorem lex_raw {bytes : List UInt8} (fits : bytes.length < 2 ^ 32) (rest : List UInt8) :
    lex ((Token.raw bytes.length).bytes ++ (bytes ++ rest)) =
      some (.object (.raw bytes), rest) := by
  -- Whatever the width of the length, the bytes themselves follow it.
  have data : string bytes.length (bytes ++ rest) = some (.object (.raw bytes), rest) :=
    grabbing_append rfl rest
  simp only [Token.bytes]
  split
  · rename_i small
    show pieceOf (UInt8.ofNat _).toNat (bytes ++ rest) = _
    rw [toNat_byte (by omega), pieceOf, if_neg (by omega), if_neg (by omega), if_neg (by omega),
      if_pos (by omega), Nat.add_sub_cancel_left]
    exact data
  split
  · rename_i small
    exact (@grabbing_bigEndian 2 _ string (by omega) _).trans data
  · exact (@grabbing_bigEndian 4 _ string (by omega) _).trans data

/-- The size of an array is read back. -/
theorem lex_array {size : Nat} (fits : size < 2 ^ 32) (rest : List UInt8) :
    lex ((Token.array size).bytes ++ rest) = some (.array size, rest) := by
  -- One case for each width that a size may have.
  simp only [Token.bytes]
  split
  · rename_i small
    show pieceOf (UInt8.ofNat _).toNat rest = _
    rw [toNat_byte (by omega), pieceOf, if_neg (by omega), if_neg (by omega), if_pos (by omega),
      Nat.add_sub_cancel_left]
    rfl
  split
  · rename_i small
    exact @grabbing_bigEndian 2 size (fun n => ready (.array n)) (by omega) rest
  · exact @grabbing_bigEndian 4 size (fun n => ready (.array n)) (by omega) rest

/-! ### Objects -/

/-- What is read does not depend on what follows, nor on a bound that is large enough. -/
theorem readPieces_stable {bound other : Nat} {frames : List Frame} {bytes rest : List UInt8}
    {object : Object} (more : List UInt8) (larger : bound ≤ other)
    (found : readPieces bound frames bytes = some (object, rest)) :
    readPieces other frames (bytes ++ more) = some (object, rest ++ more) := by
  -- A larger bound and more bytes change no piece that was read, round by round.
  induction bound generalizing other frames bytes with
  | zero => contradiction
  | succ bound ih =>
    obtain ⟨other, rfl⟩ : ∃ less, other = less + 1 := ⟨other - 1, by omega⟩
    unfold readPieces at found ⊢
    cases piece : lex bytes with
    | none =>
      rw [piece] at found
      contradiction
    | some pair =>
      rw [piece] at found
      rw [lex_stable more piece]
      simp only at found ⊢
      cases made : push frames pair.1 with
      | whole whole =>
        rw [made] at found
        obtain ⟨rfl, rfl⟩ := Prod.mk.inj (Option.some.inj found)
        rfl
      | more frames =>
        rw [made] at found
        exact ih (by omega) found

theorem readPieces_consumes {bound : Nat} {frames : List Frame} {bytes rest : List UInt8}
    {object : Object} (found : readPieces bound frames bytes = some (object, rest)) :
    rest.length < bytes.length := by
  -- Every piece takes at least its first byte.
  induction bound generalizing frames bytes with
  | zero => contradiction
  | succ bound ih =>
    unfold readPieces at found
    cases piece : lex bytes with
    | none =>
      rw [piece] at found
      contradiction
    | some pair =>
      rw [piece] at found
      have shorter := lex_consumes piece
      simp only at found
      cases made : push frames pair.1 with
      | whole whole =>
        rw [made] at found
        obtain ⟨-, rfl⟩ := Prod.mk.inj (Option.some.inj found)
        exact shorter
      | more frames =>
        rw [made] at found
        exact Nat.lt_trans (ih found) shorter

instance : Inhabited Object := ⟨.array []⟩

/-- The unpacker of a byte stream. -/
def unpacker : Stream.Unpacker Object UInt8 where
  next := readObject
  stable := by
    intro bytes rest object more found
    exact readPieces_stable more (by rw [List.length_append]; omega) found
  consumes := readPieces_consumes

/-- A piece that makes the object whole ends the reading. -/
theorem readPieces_whole {bound : Nat} {frames : List Frame} {bytes rest : List UInt8}
    {piece : Piece} {object : Object} (first : lex bytes = some (piece, rest))
    (made : push frames piece = .whole object) (enough : bytes.length ≤ bound) :
    readPieces bound frames bytes = some (object, rest) := by
  have shorter := lex_consumes first
  obtain ⟨less, rfl⟩ : ∃ less, bound = less + 1 := ⟨bound - 1, by omega⟩
  simp only [readPieces, first, made]

/-- Behind any other piece the reading goes on. -/
theorem readPieces_more {bound : Nat} {frames after : List Frame} {bytes rest : List UInt8}
    {piece : Piece} {result : Option (Object × List UInt8)}
    (first : lex bytes = some (piece, rest)) (made : push frames piece = .more after)
    (enough : bytes.length ≤ bound)
    (goes : ∀ {less}, rest.length ≤ less → readPieces less after rest = result) :
    readPieces bound frames bytes = result := by
  have shorter := lex_consumes first
  obtain ⟨less, rfl⟩ : ∃ less, bound = less + 1 := ⟨bound - 1, by omega⟩
  simp only [readPieces, first, made]
  exact goes (by omega)

/-- What is unpacked from tokens is read from their bytes. -/
theorem readPieces_tokens {frames : List Frame} {tokens rest : List Token} {object : Object}
    (unpacked : unpack frames tokens = some (object, rest))
    (fits : ∀ token ∈ tokens, token.Fits) {bound : Nat}
    (enough : (tokens.flatMap Token.bytes).length ≤ bound) :
    readPieces bound frames (tokens.flatMap Token.bytes) =
      some (object, rest.flatMap Token.bytes) := by
  -- One round of the token unpacker, which may take two tokens, is one piece.
  fun_induction unpack frames tokens generalizing bound with
  | case1 => contradiction
  | case2 frames n more whole made =>
    obtain ⟨rfl, rfl⟩ := Prod.mk.inj (Option.some.inj unpacked)
    exact readPieces_whole (lex_uint (fits (.uint n) (by simp)) _) made enough
  | case3 frames n more after made ih =>
    exact readPieces_more (lex_uint (fits (.uint n) (by simp)) _) made enough
      (ih unpacked fun token mem => fits token (by simp [mem]))
  | case4 frames b more whole made =>
    obtain ⟨rfl, rfl⟩ := Prod.mk.inj (Option.some.inj unpacked)
    exact readPieces_whole (lex_bool b _) made enough
  | case5 frames b more after made ih =>
    exact readPieces_more (lex_bool b _) made enough
      (ih unpacked fun token mem => fits token (by simp [mem]))
  | case6 frames bytes more whole made =>
    obtain ⟨rfl, rfl⟩ := Prod.mk.inj (Option.some.inj unpacked)
    exact readPieces_whole (lex_raw (fits (.raw bytes.length) (by simp)) _) made enough
  | case7 frames bytes more after made ih =>
    exact readPieces_more (lex_raw (fits (.raw bytes.length) (by simp)) _) made enough
      (ih unpacked fun token mem => fits token (by simp [mem]))
  | case8 => contradiction
  | case9 => contradiction
  | case10 => contradiction
  | case11 frames more whole made =>
    obtain ⟨rfl, rfl⟩ := Prod.mk.inj (Option.some.inj unpacked)
    exact readPieces_whole (lex_array (fits (.array 0) (by simp)) _) made enough
  | case12 frames more after made ih =>
    exact readPieces_more (lex_array (fits (.array 0) (by simp)) _) made enough
      (ih unpacked fun token mem => fits token (by simp [mem]))
  | case13 frames size more filled ih =>
    have made : push frames (.array size) = .more (⟨size, []⟩ :: frames) := if_neg filled
    exact readPieces_more (lex_array (fits (.array size) (by simp)) _) made enough
      (ih unpacked fun token mem => fits token (by simp [mem]))

/-- The bytes of tokens from which an object is unpacked are read as that object. -/
theorem reads_of_unpack {tokens : List Token} {object : Object}
    (unpacked : unpack [] tokens = some (object, [])) (fits : ∀ token ∈ tokens, token.Fits) :
    unpacker.Reads (tokens.flatMap Token.bytes) object :=
  readPieces_tokens unpacked fits (Nat.le_refl _)

/-- A packer of tokens, and an unpacker that reads off a stream what was packed. -/
structure Codec where
  bytes : Token → List UInt8
  unpacker : Stream.Unpacker Object UInt8
  undoes : ∀ {tokens : List Token} {object : Object}, unpack [] tokens = some (object, []) →
    (∀ token ∈ tokens, token.Fits) → unpacker.Reads (tokens.flatMap bytes) object

/-- The bytes of a packed buffer. -/
def Codec.pack (codec : Codec) (tokens : List Token) : List UInt8 := tokens.flatMap codec.bytes

/-- The format that the packers and unpackers of the library have. -/
def octets : Codec where
  bytes := Token.bytes
  unpacker := unpacker
  undoes := reads_of_unpack

end Msgpack
