import GeneticProgramming.Json.Printer
import GeneticProgramming.Run.Basic
import GeneticProgramming.Tree.Term

/-!
# Reports

What is shown at the end of a run: how the scores went from generation to generation, and the
fittest trees.
-/

namespace GeneticProgramming

/-- One of the fittest individuals. -/
structure Champion where
  fitness : Fitness
  size : Nat
  depth : Nat
  expression : String
deriving DecidableEq, Repr

structure Report where
  generation : Nat
  history : List Statistics
  best : List Champion
deriving DecidableEq, Repr

namespace Report

/-- The report of a run with its `top` fittest trees. -/
def ofRun {C : Type} (r : Run C) (top : Nat) : Except Fault Report := do
  let best ← (r.population.bestIndividuals top).mapM fun i => do
    return {
      fitness := i.fitness
      size := i.tree.size
      depth := i.tree.depth r.palette
      expression := ← i.tree.text r.palette : Champion }
  return ⟨r.generation, r.history, best⟩

variable (r : Report)

/-! ## Text -/

/-- Puts blanks before a text until it is `width` characters long. -/
def padLeft (width : Nat) (s : String) : String :=
  String.ofList (List.replicate (width - s.length) ' ') ++ s

private def row (first : String) (scores : List String) : String :=
  padLeft 5 first ++ String.join (scores.map fun s => "  " ++ padLeft 10 s) ++ "\n"

private def generationText (s : Statistics) (i : Nat) : String :=
  row (toString i) [s.best.fixedText 6, s.average.fixedText 6, s.worst.fixedText 6]

private def championText (c : Champion) (i : Nat) : String :=
  s!"#{i + 1} adjusted={c.fitness.adjusted.fixedText 6} " ++
    s!"error={c.fitness.standardized.fixedText 4} hits={c.fitness.hits.toInt} " ++
    s!"size={c.size} depth={c.depth}\n   {c.expression}\n"

/-- A table of the generations, a blank line, and two lines for each tree. -/
def text : String :=
  row "gen" ["best", "average", "worst"] ++
    String.join (r.history.zipIdx.map fun (s, i) => generationText s i) ++ "\n" ++
    String.join (r.best.zipIdx.map fun (c, i) => championText c i)

/-! ## Document -/

private def generationDocument (s : Statistics) (i : Nat) : Json := .object [
  ("generation", .ofNat i),
  ("best", .ofDouble s.best),
  ("average", .ofDouble s.average),
  ("worst", .ofDouble s.worst)]

private def championDocument (c : Champion) : Json := .object [
  ("adjusted", .ofDouble c.fitness.adjusted),
  ("standardized", .ofDouble c.fitness.standardized),
  ("hits", .ofInt c.fitness.hits.toInt),
  ("size", .ofNat c.size),
  ("depth", .ofNat c.depth),
  ("expression", .string c.expression)]

def document : Json := .object [
  ("generation", .ofNat r.generation),
  ("history", .array (r.history.zipIdx.map fun (s, i) => generationDocument s i)),
  ("best", .array (r.best.map championDocument))]

/-- How a report is written. -/
inductive Format where
  | text
  | document
deriving DecidableEq, Repr

def render : Format → String
  | .text => r.text
  | .document => r.document.pretty ++ "\n"

end Report

end GeneticProgramming
