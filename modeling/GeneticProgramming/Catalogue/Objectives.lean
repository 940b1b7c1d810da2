import GeneticProgramming.Catalogue.Scene
import GeneticProgramming.Run.Cases

/-!
# The catalogue of objectives

Problems for trees over the catalogue of operators: fitting a polynomial, growing to a size, meeting
expectations case by case, and scores that are given in advance.
-/

namespace GeneticProgramming

namespace Catalogue

/-! ## Polynomials -/

/-- The value of a polynomial, whose coefficients are given from the lowest power on. -/
def polynomial (coefficients : List Double) (x : Double) : Double :=
  coefficients.foldr (fun c sum => sum * x + c) .zero

/-- The sum of the distances from a polynomial at some points; below `solve` it is a solution. -/
def fitPolynomial (coefficients xs : List Double) (solve : Option Double) : Objective Scene :=
  fun p t _ => do
    let add (sum : Tally) (x : Double) (got : Single) :=
      sum.add (.ofSingle got) (polynomial coefficients x)
    let sum ← p.foldCases t .single Scene.ofPoint add .empty xs
    return sum.map fun sum => ⟨sum.fitness, solve.any sum.error.lt⟩

/-! ## Sizes -/

/-- The distance from a number of nodes, which is a solution where one is asked for. -/
def reachSize (target : Nat) (solve : Bool) : Objective Scene := fun _ t _ =>
  let missing := (t.size - target) + (target - t.size)
  return .ok {
    fitness := { Fitness.unscored with
      raw := .ofNat t.size
      standardized := .ofNat missing
      hits := Int64.ofNat t.size }
    solved := solve && missing = 0 }

/-! ## Expectations -/

/-- A scene, and what is expected of the value there. -/
structure Expectation (type : ValueType) where
  scene : Scene
  holds : type.Carrier → Bool

/-- Counts the expectations that are met; all of them are a solution. -/
def meetExpectations (type : ValueType) (cases : List (Expectation type)) : Objective Scene :=
  fun p t _ => do
    let add (hits : Nat) (c : Expectation type) (x : type.Carrier) :=
      if c.holds x then hits + 1 else hits
    let hits ← p.foldCases t type Expectation.scene add 0 cases
    return hits.map fun hits => {
      fitness := { Fitness.unscored with
        standardized := .ofNat (cases.length - hits)
        hits := Int64.ofNat hits }
      solved := hits = cases.length }

/-! ## Given scores -/

/-- The scores of one tree; those that are missing keep their first values. -/
structure Row where
  failure : Option String
  raw : Option Double
  standardized : Option Double
  adjusted : Option Double
  hits : Option Int64
  solved : Bool
deriving DecidableEq, Repr

def Row.verdict (r : Row) : Except String Verdict :=
  match r.failure with
  | some message => .error message
  | none =>
    let f := Fitness.unscored
    .ok {
      fitness := {
        raw := r.raw.getD f.raw
        standardized := r.standardized.getD f.standardized
        adjusted := r.adjusted.getD f.adjusted
        hits := r.hits.getD f.hits }
      solved := r.solved }

/-- Scores by index, from a table that is read round and round. -/
def lookUp (rows : List Row) : Objective Scene := fun _ _ i => do
  return (← demand rows[i % rows.length]?).verdict

/-- An objective that no tree can be scored by. -/
def failing (message : String) : Objective Scene := fun _ _ _ => return .error message

end Catalogue

end GeneticProgramming
