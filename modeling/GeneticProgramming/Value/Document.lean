import GeneticProgramming.Json.Forms
import GeneticProgramming.Value.Type

/-!
# Values in documents

Long arrays are shown by their ends and their length.  Reading fills in the default of a type for
what is missing or does not fit.
-/

namespace GeneticProgramming

namespace Scalar

def document : (s : Scalar) → s.Carrier → Json
  | .single, x => x.document
  | .double, x => x.document
  | .bool, b => .bool b
  | .int32, n => .ofInt n.toInt
  | .int64, n => .ofInt n.toInt
  | .uint8, n => .ofNat n.toNat
  | .uint32, n => .ofNat n.toNat
  | .uint64, n => .ofNat n.toNat

/-- A whole number within bounds. -/
private def between? (low high : Int) (j : Json) : Option Int := do
  let n ← j.toInt?
  if low ≤ n && n ≤ high then some n else none

/-- A whole number of so many bits that is not negative. -/
private def below? (bits : Nat) (j : Json) : Option Nat := do
  let n ← j.toNat?
  if n < 2 ^ bits then some n else none

def ofDocument? : (s : Scalar) → Json → Option s.Carrier
  | .single, j => Single.ofDocument? j
  | .double, j => Double.ofDocument? j
  | .bool, j => j.toBool?
  | .int32, j => (between? (-(2 ^ 31)) (2 ^ 31 - 1) j).map Int32.ofInt
  | .int64, j => j.toInt?.map Int64.ofInt
  | .uint8, j => (below? 8 j).map UInt8.ofNat
  | .uint32, j => (below? 32 j).map UInt32.ofNat
  | .uint64, j => j.toNat?.map UInt64.ofNat

def ofDocument (s : Scalar) (j : Json) : s.Carrier := (ofDocument? s j).getD s.default

end Scalar

namespace ValueType

/-- The greatest number of elements that are shown in full. -/
def shownInFull : Nat := 16

private def elements (xs : List Json) : Json :=
  if xs.length ≤ shownInFull then .array xs
  else .object [("first", xs.head?.getD .null), ("last", xs.getLast?.getD .null),
    ("len", .ofNat xs.length)]

def document : (t : ValueType) → t.Carrier → Json
  | .scalar s, x => s.document x
  | .array s _, xs => elements (xs.toList.map s.document)
  | .unit, _ => .null
  | .text, s => .string s
  | .ints, xs => .ofList (fun n => .ofInt n.toInt) xs
  | .wide, _ => .null

/-- An array may also be given by the one value of all its elements. -/
def ofDocument : (t : ValueType) → Json → t.Carrier
  | .scalar s, j => s.ofDocument j
  | .array s n, j =>
    match j.get? "fill" with
    | some x => Vector.replicate n (s.ofDocument x)
    | none =>
      let elements := (j.toList?.getD []).toArray
      Vector.ofFn fun (i : Fin n) => ((elements[i.val]?).map s.ofDocument).getD s.default
  | .unit, _ => ()
  | .text, j => j.toString?.getD ""
  | .ints, j => (j.toList?.getD []).map (Scalar.ofDocument .int32)
  | .wide, _ => (0, 0)

end ValueType

end GeneticProgramming
