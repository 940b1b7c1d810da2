import GeneticProgramming.Population.Statistics
import GeneticProgramming.Stream.Tree

/-!
# Populations in streams

A generation is written as its individuals, each one's fitness before its tree.
-/

namespace GeneticProgramming

namespace Fitness

def toBytes (f : Fitness) : Bytes :=
  Bytes.ofDouble f.raw ++ Bytes.ofDouble f.standardized ++ Bytes.ofDouble f.adjusted ++
    Bytes.ofWord f.hits.toUInt64

def read : Reader Fitness := do
  let raw ← Reader.double
  let standardized ← Reader.double
  let adjusted ← Reader.double
  return ⟨raw, standardized, adjusted, (← Reader.word).toInt64⟩

end Fitness

namespace Statistics

def toBytes (s : Statistics) : Bytes :=
  Bytes.ofDouble s.best ++ Bytes.ofDouble s.worst ++ Bytes.ofDouble s.average ++
    Bytes.ofDouble s.overall ++ Bytes.ofList Bytes.ofDouble s.normalized

def read : Reader Statistics := do
  let best ← Reader.double
  let worst ← Reader.double
  let average ← Reader.double
  let overall ← Reader.double
  return ⟨best, worst, average, overall, ← Reader.list Reader.double⟩

end Statistics

namespace Individual

def write (i : Individual) : Output := .ofBytes i.fitness.toBytes ++ i.tree.write

def read {C : Type} (p : Palette C) : Reader Individual := do
  let fitness ← Fitness.read
  return ⟨← Tree.read p, fitness⟩

end Individual

namespace Population

/-- Writes a generation; what comes before a tree that cannot be written is written. -/
def write (pop : Population) : Output :=
  .ofBytes (Bytes.ofNat pop.length) ++ Output.concat (pop.map Individual.write)

def read {C : Type} (p : Palette C) : Reader Population := Reader.list (Individual.read p)

end Population

end GeneticProgramming
