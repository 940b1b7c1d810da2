import GeneticProgramming.Number.Text
import GeneticProgramming.Text.Quoted
import GeneticProgramming.Value.Cell

/-!
# The text of values

How a value is written in an expression.
-/

namespace GeneticProgramming

def Scalar.render : (s : Scalar) → s.Carrier → String
  | .single, x => x.text
  | .double, x => x.text
  | .bool, b => if b then "true" else "false"
  | .int32, n => toString n.toInt
  | .int64, n => toString n.toInt
  | .uint8, n => toString n.toNat
  | .uint32, n => toString n.toNat
  | .uint64, n => toString n.toNat

/-- Elements between brackets. -/
def bracketed (elements : List String) : String :=
  "[" ++ String.intercalate ", " elements ++ "]"

def ValueType.render : (t : ValueType) → t.Carrier → String
  | .scalar s, x => s.render x
  | .array s _, xs => bracketed (xs.toList.map s.render)
  | .unit, _ => "()"
  | .text, s => Text.quoted s
  | .ints, xs => bracketed (xs.map fun n => toString n.toInt)
  | .wide, (a, b) => s!"Wide({bracketed [toString a.toNat, toString b.toNat]})"

end GeneticProgramming
