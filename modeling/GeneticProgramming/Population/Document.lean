import GeneticProgramming.Evaluation
import GeneticProgramming.Json.Forms
import GeneticProgramming.Population.Selection
import GeneticProgramming.Tree.Term

/-!
# Populations in documents

Scores, individuals and statistics, and the errors of scoring and selecting.  What is missing from a
document that is read counts as zero.
-/

namespace GeneticProgramming

def EvaluationError.document (e : EvaluationError) : Json :=
  let kind := match e with
    | .empty => "Empty"
    | .typeMismatch _ _ => "TypeMismatch"
  .failure "EvaluationError" kind e.message

def SelectionError.document (e : SelectionError) : Json :=
  let kind := match e with
    | .missingNormalizedFitness => "MissingNormalizedFitness"
    | .emptyPopulation => "EmptyPopulation"
  .failure "SelectionError" kind e.message

namespace Fitness

def document (f : Fitness) : Json := .object [
  ("raw", f.raw.document),
  ("standardized", f.standardized.document),
  ("adjusted", f.adjusted.document),
  ("hits", .ofInt f.hits.toInt)]

/-- All scores, or the adjusted one alone. -/
def ofDocument (j : Json) : Fitness :=
  match j with
  | .object _ =>
    ⟨j.doubleD "raw", j.doubleD "standardized", j.doubleD "adjusted", Int64.ofInt (j.intD "hits")⟩
  | _ => { zero with adjusted := Double.ofDocument j }

end Fitness

/-- The text of an individual's tree, and its fitness. -/
def Individual.document {C : Type} (p : Palette C) (i : Individual) : Except Fault Json := do
  return .object [("expr", .string (← i.tree.text p)), ("fitness", i.fitness.document)]

def Population.document {C : Type} (p : Palette C) (pop : Population) : Except Fault Json := do
  return .array (← pop.mapM (Individual.document p))

namespace Statistics

variable (s : Statistics)

private def extremes : List (String × Json) := [
  ("best", s.best.document),
  ("worst", s.worst.document),
  ("average", s.average.document),
  ("overall", s.overall.document)]

/-- The statistics without the share of each individual. -/
def summary : Json := .object s.extremes

def document : Json :=
  .object (s.extremes ++ [("normalized", .ofList Double.document s.normalized)])

def ofDocument (j : Json) : Statistics :=
  ⟨j.doubleD "best", j.doubleD "worst", j.doubleD "average", j.doubleD "overall",
    j.doublesD "normalized"⟩

end Statistics

end GeneticProgramming
