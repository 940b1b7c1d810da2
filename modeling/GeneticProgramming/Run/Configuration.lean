import GeneticProgramming.Population.Selection
import GeneticProgramming.Variation.Crossover
import GeneticProgramming.Variation.Mutation

/-!
# Configurations

What a run is made with, and what contradictions a configuration may hold.
-/

namespace GeneticProgramming

def PointSelector.standard : PointSelector :=
  ⟨⟨0x3FB999999999999A⟩, false, ⟨0x3FD0000000000000⟩⟩

def Generator.standard : Generator := .grow ⟨0x3FD3333333333333⟩

def Crossover.standard : Crossover where
  kind := .subtree
  tries := 5
  minTreeSize := 3
  points := .standard
  replacement := ⟨1, 3⟩
  generator := .standard

/-- A quarter, a quarter, a fifth, and fifteen hundredths twice. -/
def MutationChances.standard : MutationChances where
  expression := ⟨0x3FD0000000000000⟩
  adjust := ⟨0x3FD0000000000000⟩
  sub := ⟨0x3FC999999999999A⟩
  jump := ⟨0x3FC3333333333333⟩
  copy := ⟨0x3FC3333333333333⟩

def Mutation.standard : Mutation where
  kind := .point
  replacement := ⟨1, 3⟩
  generator := .standard
  points := .standard
  perTreeChance := .one
  chances := .standard

def SelectionKind.standard : SelectionKind := .tournament 5

structure Configuration where
  populationSize : Nat
  maxGenerations : Nat
  /-- The depths of the initial trees. -/
  initialDepth : DepthWindow
  /-- Deeper offspring give way to their parent. -/
  maxTreeDepth : Nat
  crossoverChance : Double
  mutationChance : Double
  reproductionChance : Double
  /-- The number of fittest trees that are carried over. -/
  elites : Nat
  /-- Whether the parents are mutated where their crossover fails. -/
  mutateOnFailure : Bool
  threads : Nat
  evaluationSize : Nat
  seed : UInt64
  growTerminalChance : Double
  initializer : Initializer
  crossover : Crossover
  mutation : Mutation
  crossoverSelection : SelectionKind
  mutationSelection : SelectionKind
  reproductionSelection : SelectionKind
deriving DecidableEq, Repr

inductive ConfigurationError where
  | emptyPopulation
  | tooManyElites (elites population : Nat)
  | invalidChances
  | invalidDepth (least most : Nat)
  | emptyRootType
deriving DecidableEq, Repr

def ConfigurationError.message : ConfigurationError → String
  | .emptyPopulation => "population size must be positive"
  | .tooManyElites elites population =>
    s!"elites ({elites}) exceed population size ({population})"
  | .invalidChances => "variation chances must be non-negative and not all zero"
  | .invalidDepth least most => s!"invalid depth bounds {least}..={most}"
  | .emptyRootType => "no operators produce the root type"

namespace Configuration

def standard : Configuration where
  populationSize := 500
  maxGenerations := 50
  initialDepth := ⟨2, 6⟩
  maxTreeDepth := 17
  crossoverChance := ⟨0x3FE999999999999A⟩
  mutationChance := ⟨0x3FB999999999999A⟩
  reproductionChance := ⟨0x3FB999999999999A⟩
  elites := 2
  mutateOnFailure := true
  threads := 0
  evaluationSize := 16
  seed := 691
  growTerminalChance := ⟨0x3FD3333333333333⟩
  initializer := .rampedHalfHalf
  crossover := .standard
  mutation := .standard
  crossoverSelection := .standard
  mutationSelection := .standard
  reproductionSelection := .standard

variable (c : Configuration)

/-- The weights of crossover, mutation and reproduction. -/
def chances : List Double := [c.crossoverChance, c.mutationChance, c.reproductionChance]

def checkWindow (least most : Nat) : Except ConfigurationError Unit :=
  if most < least then .error (.invalidDepth least most) else .ok ()

/-- Finds the first contradiction. -/
def validate : Except ConfigurationError Unit := do
  if c.populationSize = 0 then throw .emptyPopulation
  if c.populationSize < c.elites then throw (.tooManyElites c.elites c.populationSize)
  if c.chances.any (fun x => !x.isFinite || x.lt .zero) || (Statistics.sum c.chances).le .zero then
    throw .invalidChances
  checkWindow c.initialDepth.least c.initialDepth.most
  checkWindow c.initialDepth.most c.maxTreeDepth
  checkWindow c.crossover.replacement.least c.crossover.replacement.most
  checkWindow c.mutation.replacement.least c.mutation.replacement.most

end Configuration

end GeneticProgramming
