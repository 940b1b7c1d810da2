import GeneticProgramming.Population.Statistics
import GeneticProgramming.Random.Draw

/-!
# Selection

Who is picked from a population.  Tournaments and even selection look at the population as it is;
walking the ranking and spinning the roulette wheel need a preparation, and a walk remembers how far
it has come.
-/

namespace GeneticProgramming

inductive SelectionError where
  | missingNormalizedFitness
  | emptyPopulation
deriving DecidableEq, Repr

def SelectionError.message : SelectionError → String
  | .missingNormalizedFitness => "normalized fitness has not been computed for this population"
  | .emptyPopulation => "cannot select from an empty population"

inductive SelectionKind where
  | tournament (size : Nat)
  | best
  | worst
  | random
  | fitnessProportionate
deriving DecidableEq, Repr

inductive Selector where
  | tournament (size : Nat)
  /-- Walks a ranking round and round; `taken` counts the steps. -/
  | walk (reversed : Bool) (order : List Nat) (taken : Nat)
  | random
  /-- Spins a wheel with these running sums of shares. -/
  | roulette (cumulative : List Double)
deriving DecidableEq, Repr, Inhabited

namespace Selector

/-- A selector that is not prepared yet. -/
def ofKind : SelectionKind → Selector
  | .tournament size => .tournament size
  | .best => .walk false [] 0
  | .worst => .walk true [] 0
  | .random => .random
  | .fitnessProportionate => .roulette []

/-- Running sums, the first one included. -/
def cumulate (shares : List Double) : List Double := (shares.scanl Double.add .zero).tail

/-- Prepares a selector for a population; a walk starts over. -/
def prepare (s : Selector) (pop : Population) (stats : Statistics) :
    Except SelectionError Selector :=
  if pop.isEmpty then .error .emptyPopulation
  else match s with
    | .walk false _ _ => .ok (.walk false pop.rankedIndexes 0)
    | .walk true _ _ => .ok (.walk true pop.rankedIndexes.reverse 0)
    | .roulette _ =>
      if stats.normalized.length = pop.length then .ok (.roulette (cumulate stats.normalized))
      else .error .missingNormalizedFitness
    | other => .ok other

/-- The adjusted score at an index. -/
def score (pop : Population) (i : Nat) : Double :=
  ((pop[i]?).map (·.fitness.adjusted)).getD .nan

/-- The fittest of some indexes; a later one has to be strictly fitter. -/
def fittest (pop : Population) : List Nat → Nat
  | [] => 0
  | i :: is => is.foldl (fun best i => if (score pop best).lt (score pop i) then i else best) i

/-- Halves a range of places, keeping the half that the middle element points to. -/
def bisect (below : Nat → Bool) (first size : Nat) : Nat :=
  if size ≤ 1 then first
  else
    let half := size / 2
    bisect below (if below (first + half) then first + half else first) (size - half)
termination_by size

/-- The slot of the wheel that a draw falls into: the number of running sums that it reaches, found
by bisection. -/
def slot (cumulative : List Double) (draw : Double) : Nat :=
  let reached (i : Nat) : Bool := cumulative[i]?.any fun c => c.le draw
  let last := bisect reached 0 cumulative.length
  if reached last then last + 1 else last

/-- Picks an index of a population. -/
def pick (s : Selector) (pop : Population) : Draw (Nat × Selector) :=
  match s with
  | .tournament size =>
    if pop.isEmpty then throw .badRange
    else return (fittest pop (← Draw.subset pop.length (min (max size 1) pop.length)), s)
  | .walk reversed order taken =>
    match order[taken % order.length]? with
    | some i => return (i, .walk reversed order (taken + 1))
    | none => return (0, s)
  | .random => return (← Draw.below pop.length, s)
  | .roulette cumulative => do
    let total := (cumulative.getLast?).getD .zero
    let draw := (← Draw.unit) * total
    return (min (slot cumulative draw) (pop.length - 1), s)

/-- Picks a tree of a population. -/
def pickTree (s : Selector) (pop : Population) : Draw (Tree × Selector) := do
  let (i, s) ← s.pick pop
  return ((← demand pop[i]?).tree, s)

end Selector

end GeneticProgramming
