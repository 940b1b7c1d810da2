import GeneticProgramming.Number.Double

/-!
# Scenes

The context that operators of the catalogue consult: one value of each common type.
-/

namespace GeneticProgramming

structure Scene where
  x : Single
  y : Double
  n : Int64
  on : Bool
  s : String
deriving DecidableEq, Repr

namespace Scene

def empty : Scene := ⟨.zero, .zero, 0, false, ""⟩

/-- The scene of a point on the number line. -/
def ofPoint (x : Double) : Scene where
  x := x.toSingle
  y := x
  n := x.toInt64
  on := Double.lt .zero x
  s := "poly"

end Scene

end GeneticProgramming
