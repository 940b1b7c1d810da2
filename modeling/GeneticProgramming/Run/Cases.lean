import GeneticProgramming.Run.Basic
import GeneticProgramming.Tree.Meaning

/-!
# Scoring by cases

Many objectives evaluate a tree for one case after another and add up how far the results are from
what was wanted.
-/

namespace GeneticProgramming

/-- What a sum of errors and a number of hits come to. -/
structure Tally where
  error : Double
  hits : Int64
deriving DecidableEq, Repr

namespace Tally

def empty : Tally := ⟨.zero, 0⟩

/-- An error that is not finite counts as a million millions. -/
def farOff : Double := ⟨0x426D1A94A2000000⟩

/-- A case is a hit below this error, a hundredth. -/
def tolerance : Double := ⟨0x3F847AE147AE147B⟩

/-- The distance between a result and what was wanted. -/
def distance (got want : Double) : Double :=
  let d := (got - want).abs
  if d.isFinite then d else farOff

/-- Adds the distance of one case. -/
def add (t : Tally) (got want : Double) : Tally :=
  let d := distance got want
  ⟨t.error + d, if d.lt tolerance then t.hits + 1 else t.hits⟩

def fitness (t : Tally) : Fitness :=
  { Fitness.unscored with raw := t.error, standardized := t.error, hits := t.hits }

end Tally

/-- Evaluates a tree for one case after another until an evaluation fails. -/
def Palette.foldEvaluations {C Case α : Type} (p : Palette C) (t : Tree) (type : ValueType)
    (context : Case → C) (add : α → Case → type.Carrier → α) :
    α → List Case → Except Fault (Except String α)
  | sum, [] => return .ok sum
  | sum, c :: cs => do
    match ← p.evaluate t type (context c) with
    | .error e => return .error e.message
    | .ok x => p.foldEvaluations t type context add (add sum c x) cs

/-- Adds up the values of a tree for one case after another.  A tree that means a function is taken
as that function; no evaluation of it can fail. -/
def Palette.foldCases {C Case α : Type} (p : Palette C) (t : Tree) (type : ValueType)
    (context : Case → C) (add : α → Case → type.Carrier → α) (sum : α) (cases : List Case) :
    Except Fault (Except String α) :=
  match (t.meaning? p).bind (·.as? type) with
  | some value => return .ok (cases.foldl (fun sum c => add sum c (value (context c))) sum)
  | none => p.foldEvaluations t type context add sum cases

end GeneticProgramming
