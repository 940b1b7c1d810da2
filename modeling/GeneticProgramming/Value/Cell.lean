import GeneticProgramming.Value.Type

/-!
# Stored values

A stored value is a run of cells of eight bytes each.  A cell holds a word of data or refers to a
text or to a list of integers.  In memory a reference is an address, which is no part of the values
here: its bytes are taken to be zero.  `store` and `load` convert between the values of a type and
their cells.

A value need not fill its last cell.  The bytes behind it are zero in `store`, and those that lay
there before in `storeOver`; `load` does not look at them.
-/

namespace GeneticProgramming

inductive Cell where
  | word (bits : UInt64)
  | text (s : String)
  | ints (xs : List Int32)
deriving DecidableEq, Repr

/-- The bytes of a word, the lowest first. -/
def Word.bytes (w : UInt64) : List UInt8 :=
  (List.range 8).map fun i => (w >>> (8 * i).toUInt64).toUInt8

/-- The word with the given bytes, the lowest first; missing bytes are zero. -/
def Word.ofBytes : List UInt8 → UInt64
  | [] => 0
  | b :: bs => b.toUInt64 ||| (Word.ofBytes bs <<< 8)

/-- The word whose low bytes, so many, are those of one word, and whose others are those of
another. -/
def Word.overlay (bytes : Nat) (low rest : UInt64) : UInt64 :=
  if bytes < 8 then
    let bits := (8 * bytes).toUInt64
    low ||| ((rest >>> bits) <<< bits)
  else low

namespace Cell

/-- The word of a cell.  That of a reference is zero here and an address in memory, which can be seen
where a reference was dropped and a smaller value is stored over it, in the bytes behind the value. -/
def toWord : Cell → UInt64
  | .word w => w
  | .text _ => 0
  | .ints _ => 0

def toText : Cell → String
  | .text s => s
  | _ => ""

def toInts : Cell → List Int32
  | .ints xs => xs
  | _ => []

/-- Whether the cell is a reference. -/
def isShared : Cell → Bool
  | .word _ => false
  | _ => true

def bytes (c : Cell) : List UInt8 := Word.bytes c.toWord

/-- Cells of which only the first bytes, so many, are written over the words that lay there. -/
def overlay : Nat → List UInt64 → List Cell → List Cell
  | width, before, .word w :: cells =>
    .word (Word.overlay width w (before.head?.getD 0)) :: overlay (width - 8) before.tail cells
  | width, before, c :: cells => c :: overlay (width - 8) before.tail cells
  | _, _, [] => []

@[simp] theorem length_overlay (width : Nat) (before : List UInt64) (cells : List Cell) :
    (overlay width before cells).length = cells.length := by
  induction cells generalizing width before with
  | nil => rfl
  | cons c cells ih => cases c <;> simp [overlay, ih]

/-- Cells of raw bytes, the last one filled up with zeros. -/
def ofBytes (bs : List UInt8) : List Cell :=
  match bs with
  | [] => []
  | b :: rest =>
    .word (Word.ofBytes ((b :: rest).take 8)) :: ofBytes (rest.drop 7)
termination_by bs.length
decreasing_by simp only [List.length_drop, List.length_cons]; omega

end Cell

namespace Scalar

/-- A value in the low bytes of a word. -/
def toWord : (s : Scalar) → s.Carrier → UInt64
  | .single, x => x.bits.toUInt64
  | .double, x => x.bits
  | .bool, b => if b then 1 else 0
  | .int32, n => n.toUInt32.toUInt64
  | .int64, n => n.toUInt64
  | .uint8, n => n.toUInt64
  | .uint32, n => n.toUInt64
  | .uint64, n => n

/-- The value in the low bytes of a word. -/
def ofWord : (s : Scalar) → UInt64 → s.Carrier
  | .single, w => ⟨w.toUInt32⟩
  | .double, w => ⟨w⟩
  | .bool, w => w.toUInt8 != 0
  | .int32, w => w.toUInt32.toInt32
  | .int64, w => w.toInt64
  | .uint8, w => w.toUInt8
  | .uint32, w => w.toUInt32
  | .uint64, w => w

@[simp] theorem ofWord_toWord (s : Scalar) (x : s.Carrier) : s.ofWord (s.toWord x) = x := by
  cases s
  case bool => cases x <;> rfl
  all_goals simp [toWord, ofWord]

/-- The bytes of a value, the lowest first. -/
def bytes (s : Scalar) (x : s.Carrier) : List UInt8 :=
  (Word.bytes (s.toWord x)).take s.width

/-- The value at the start of a run of bytes. -/
def ofBytes (s : Scalar) (bs : List UInt8) : s.Carrier :=
  s.ofWord (Word.ofBytes (bs.take s.width))

end Scalar

namespace ValueType

/-- The cells that hold a value, in memory order. -/
def store : (t : ValueType) → t.Carrier → List Cell
  | .scalar s, x => [.word (s.toWord x)]
  | .array s _, xs => Cell.ofBytes (xs.toList.flatMap s.bytes)
  | .unit, _ => []
  | .text, s => [.text s]
  | .ints, xs => [.ints xs]
  | .wide, (a, b) => [.word a, .word b]

/-- The cells that hold a value where words lay before, the lowest first. -/
def storeOver (t : ValueType) (x : t.Carrier) (before : List UInt64) : List Cell :=
  if t.width % 8 = 0 then t.store x else Cell.overlay t.width before (t.store x)

@[simp] theorem length_storeOver (t : ValueType) (x : t.Carrier) (before : List UInt64) :
    (t.storeOver x before).length = (t.store x).length := by
  unfold storeOver; split <;> simp

/-- The value that a run of cells holds; cells of another type read as the value that the bytes
happen to spell, and missing ones as zero. -/
def load : (t : ValueType) → List Cell → t.Carrier
  | .scalar s, cells => (cells.head?.map fun c => s.ofWord c.toWord).getD s.default
  | .array s n, cells =>
    let bytes := (cells.flatMap Cell.bytes).toArray
    Vector.ofFn fun (i : Fin n) =>
      s.ofBytes (bytes.extract (i * s.width) ((i + 1) * s.width)).toList
  | .unit, _ => ()
  | .text, cells => (cells.head?.map Cell.toText).getD ""
  | .ints, cells => (cells.head?.map Cell.toInts).getD []
  | .wide, cells => ((cells[0]?.map Cell.toWord).getD 0, (cells[1]?.map Cell.toWord).getD 0)

/-- The bytes of a stored value without its padding. -/
def ownBytes (t : ValueType) (cells : List Cell) : List UInt8 :=
  (cells.flatMap Cell.bytes).take t.width

/-- Whether all bytes behind a stored value are zero. -/
def hasZeroPadding (t : ValueType) (cells : List Cell) : Bool :=
  ((cells.flatMap Cell.bytes).drop t.width).all (· = 0)

@[simp] theorem load_store_scalar (s : Scalar) (x : s.Carrier) :
    load (.scalar s) (store (.scalar s) x) = x := by
  simp [load, store, Cell.toWord]

@[simp] theorem load_store_text (s : String) : load .text (store .text s) = s := rfl
@[simp] theorem load_store_ints (xs : List Int32) : load .ints (store .ints xs) = xs := rfl

end ValueType

/-- The cells that hold a value, with nothing behind it. -/
def Value.cells (v : Value) : List Cell := v.type.store v.content

end GeneticProgramming
