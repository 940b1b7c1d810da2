import GeneticProgramming.Number.Double
import GeneticProgramming.Tree.Basic

/-!
# Fitness

The fitness of a tree is a record of scores, and only the adjusted one decides: higher is fitter,
and a NaN is least fit of all.  Populations are ranked by it in the total order of doubles, and
equals keep their places.
-/

namespace GeneticProgramming

structure Fitness where
  raw : Double
  standardized : Double
  adjusted : Double
  hits : Int64
deriving DecidableEq, Repr, Inhabited

namespace Fitness

def zero : Fitness := ⟨.zero, .zero, .zero, 0⟩

/-- What a scoring starts from: no adjusted score is known yet. -/
def unscored : Fitness := { zero with adjusted := .nan }

/-- The score that decides. -/
def rankKey (adjusted : Double) : Double := if adjusted.isNaN then .negInfinity else adjusted

/-- Completes a scoring: the adjusted score follows from the standardized one if it was not set. -/
def finalize (f : Fitness) : Fitness :=
  let adjusted := if f.adjusted.isNaN then .one / (.one + f.standardized) else f.adjusted
  { f with adjusted := rankKey adjusted }

/-- The place of a fitness in the order of ranks. -/
def rank (f : Fitness) : Int := (rankKey f.adjusted).rank

end Fitness

structure Individual where
  tree : Tree
  fitness : Fitness
deriving DecidableEq, Repr, Inhabited

/-- An individual that was not scored yet. -/
def Individual.ofTree (t : Tree) : Individual := ⟨t, .zero⟩

abbrev Population := List Individual

namespace Population

variable (pop : Population)

/-- The rank of the individual at an index. -/
def rankAt (i : Nat) : Int := ((pop[i]?).map (·.fitness.rank)).getD 0

/-- All indexes, the fittest first. -/
def rankedIndexes : List Nat :=
  (List.range pop.length).mergeSort fun i j => pop.rankAt j ≤ pop.rankAt i

def bestIndexes (n : Nat) : List Nat := pop.rankedIndexes.take n

/-- The fittest individuals, the fittest first. -/
def bestIndividuals (n : Nat) : List Individual := (pop.bestIndexes n).filterMap (pop[·]?)

def best? : Option Individual := (pop.bestIndividuals 1).head?

theorem rankedIndexes_perm : pop.rankedIndexes.Perm (List.range pop.length) :=
  List.mergeSort_perm _ _

end Population

end GeneticProgramming
