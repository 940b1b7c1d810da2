import GeneticProgramming.Population.Fitness

/-!
# Statistics of a population

The extremes of the adjusted scores, their sum and average, and the share of each individual in the
sum. A score that is not finite has no share.
-/

namespace GeneticProgramming

structure Statistics where
  best : Double
  worst : Double
  average : Double
  overall : Double
  normalized : List Double
deriving DecidableEq, Repr, Inhabited

namespace Statistics

def zero : Statistics := ⟨.zero, .zero, .zero, .zero, []⟩

/-- What a score adds to the sum. -/
def share (x : Double) : Double := if x.isFinite then x else .zero

/-- Sums from the left; nothing sums to negative zero. -/
def sum (xs : List Double) : Double := xs.foldl Double.add .negZero

/-- Shares of the sum, or equal shares if there is nothing positive to share. -/
def normalize (scores : List Double) (overall : Double) : List Double :=
  if Double.lt .zero overall then scores.map fun x => share x / overall
  else List.replicate scores.length (.one / Double.ofNat scores.length)

def ofScores (scores : List Double) : Statistics :=
  let overall := sum (scores.map share)
  { best := scores.foldl Double.max .negInfinity
    worst := scores.foldl Double.min .infinity
    average := overall / Double.ofNat scores.length
    overall
    normalized := normalize scores overall }

def ofPopulation (pop : Population) : Statistics :=
  if pop.isEmpty then zero else ofScores (pop.map fun i => Fitness.rankKey i.fitness.adjusted)

end Statistics

end GeneticProgramming
