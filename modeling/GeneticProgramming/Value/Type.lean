import GeneticProgramming.Number.Double

/-!
# Types of values

The types that operators take and return.  Values are stored in words of eight bytes: a scalar takes
one, an array is packed, a unit takes none, and texts and lists, which have no fixed size, take the
one word that refers to them.

The list is closed, so a statement about every palette is one about the palettes of these types.
They are chosen so that each way of storing a value occurs: in part of a word, in a word, in several,
in none, and behind a reference; and so does each reason for which a palette turns a type down, an
alignment beyond a word and a size beyond the greatest.  Records and enumerations of one's own, and
references that are shared in other ways, are not among them.
-/

namespace GeneticProgramming

/-- Types whose values fit a word. -/
inductive Scalar where
  | single | double | bool | int32 | int64 | uint8 | uint32 | uint64
deriving DecidableEq, Repr

namespace Scalar

abbrev Carrier : Scalar → Type
  | .single => Single
  | .double => Double
  | .bool => Bool
  | .int32 => Int32
  | .int64 => Int64
  | .uint8 => UInt8
  | .uint32 => UInt32
  | .uint64 => UInt64

/-- The bytes of a value without padding. -/
def width : Scalar → Nat
  | .bool | .uint8 => 1
  | .single | .int32 | .uint32 => 4
  | .double | .int64 | .uint64 => 8

def label : Scalar → String
  | .single => "f32"
  | .double => "f64"
  | .bool => "bool"
  | .int32 => "i32"
  | .int64 => "i64"
  | .uint8 => "u8"
  | .uint32 => "u32"
  | .uint64 => "u64"

def default : (s : Scalar) → s.Carrier
  | .single => .zero
  | .double => .zero
  | .bool => false
  | .int32 => 0
  | .int64 => 0
  | .uint8 => 0
  | .uint32 => 0
  | .uint64 => 0

end Scalar

inductive ValueType where
  | scalar (s : Scalar)
  /-- A packed array of a fixed length. -/
  | array (s : Scalar) (length : Nat)
  | unit
  | text
  /-- A list of integers of any length. -/
  | ints
  /-- Two words that have to stand at a multiple of sixteen bytes. -/
  | wide
deriving DecidableEq, Repr

namespace ValueType

abbrev single : ValueType := .scalar .single
abbrev double : ValueType := .scalar .double
abbrev bool : ValueType := .scalar .bool
abbrev int64 : ValueType := .scalar .int64
abbrev uint8 : ValueType := .scalar .uint8
abbrev uint32 : ValueType := .scalar .uint32
abbrev uint64 : ValueType := .scalar .uint64

abbrev Carrier : ValueType → Type
  | .scalar s => s.Carrier
  | .array s n => Vector s.Carrier n
  | .unit => Unit
  | .text => String
  | .ints => List Int32
  | .wide => UInt64 × UInt64

/-- The words that a stored value takes. -/
def words : ValueType → Nat
  | .scalar _ => 1
  | .array s n => (s.width * n + 7) / 8
  | .unit => 0
  | .text => 1
  | .ints => 1
  | .wide => 2

/-- The bytes that a stored value takes, padding included. -/
def size (t : ValueType) : Nat := 8 * t.words

/-- The bytes of a value without padding; a reference counts as the word it takes. -/
def width : ValueType → Nat
  | .scalar s => s.width
  | .array s n => s.width * n
  | .unit => 0
  | .text => 8
  | .ints => 8
  | .wide => 16

/-- The bytes at a multiple of which a stored value has to stand. -/
def alignment : ValueType → Nat
  | .scalar s => s.width
  | .array s _ => s.width
  | .unit => 1
  | .text => 8
  | .ints => 8
  | .wide => 16

/-- Whether a stored value is a reference that copies share. -/
def isShared : ValueType → Bool
  | .text => true
  | .ints => true
  | _ => false

/-- The name of a type in messages. -/
def label : ValueType → String
  | .scalar s => s.label
  | .array s n => s!"[{s.label}; {n}]"
  | .unit => "()"
  | .text => "alloc::string::String"
  | .ints => "alloc::vec::Vec<i32>"
  | .wide => "align(16) [u64; 2]"

@[simp] theorem words_scalar (s : Scalar) : words (.scalar s) = 1 := rfl
@[simp] theorem words_unit : words .unit = 0 := rfl
@[simp] theorem words_text : words .text = 1 := rfl
@[simp] theorem words_ints : words .ints = 1 := rfl

theorem size_eq (t : ValueType) : t.size = 8 * t.words := rfl

end ValueType

/-- A value together with its type. -/
structure Value where
  type : ValueType
  content : type.Carrier

/-- A number of bytes rounded up to whole words. -/
def roundToWords (bytes : Nat) : Nat := (bytes + 7) / 8 * 8

end GeneticProgramming
