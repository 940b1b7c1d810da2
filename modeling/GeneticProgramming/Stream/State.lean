import GeneticProgramming.Stream.Population
import GeneticProgramming.Stream.Schema

/-!
# Saved states

A saved state is a schema, the statistics of all reported generations, the current statistics, and
the current generation.
-/

namespace GeneticProgramming

structure SavedState where
  history : List Statistics
  stats : Statistics
  population : Population
deriving DecidableEq, Repr

namespace SavedState

variable {C : Type} (p : Palette C)

def write (s : SavedState) : Output :=
  .ofBytes (p.schemaBytes ++ Bytes.ofList Statistics.toBytes s.history ++ s.stats.toBytes) ++
    s.population.write

def read : Reader SavedState := do
  p.readSchema
  let history ← Reader.list Statistics.read
  let stats ← Statistics.read
  return ⟨history, stats, ← Population.read p⟩

end SavedState

end GeneticProgramming
