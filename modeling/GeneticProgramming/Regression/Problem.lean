import GeneticProgramming.Run.Cases

/-!
# Symbolic regression

The problem of finding `x ^ 4 + x ^ 3 + x ^ 2 + x` from two hundred points between `-5` and `5`,
with arithmetic on singles, the variable and random constants.
-/

namespace GeneticProgramming

namespace Regression

private def binary (name : String) (f : Single → Single → Single) : Operator Single :=
  ⟨some name, .compute [.single, .single] .single fun (a, b, _) => f a b⟩

/-- The operators; the context is the variable. -/
def operators : List (Operator Single) := [
  binary "add" (· + ·),
  binary "sub" (· - ·),
  binary "mul" (· * ·),
  binary "div" Single.guardedDiv,
  ⟨some "x", .consult [] .single fun x _ => x⟩,
  ⟨some "lit", .literal .single (Draw.closedSingle ⟨0xBF800000⟩ ⟨0x3F800000⟩)⟩]

def palette : Except BuildError (Palette Single) := Palette.build operators none

structure Case where
  x : Single
  y : Double
deriving DecidableEq, Repr

/-- The polynomial to be found. -/
def target (x : Double) : Double :=
  let square := x * x
  square * square + x * square + square + x

/-- The `i`-th of the numbers from `-5` to `5` in 199 even steps. -/
def abscissa (i : Nat) : Double :=
  Double.neg ⟨0x4014000000000000⟩ + ⟨0x4024000000000000⟩ * Double.ofNat i / Double.ofNat 199

def cases : List Case :=
  (List.range 200).map fun i => ⟨(abscissa i).toSingle, target (abscissa i)⟩

/-- The sum of the errors; a tree that hits every case is a solution. -/
def objective : Objective Single := fun p t _ => do
  let add (sum : Tally) (c : Case) (got : Single) := sum.add (.ofSingle got) c.y
  let sum ← p.foldCases t .single Case.x add .empty cases
  return sum.map fun sum => ⟨sum.fitness, sum.hits = Int64.ofNat cases.length⟩

end Regression

end GeneticProgramming
