import GeneticProgramming.Evaluation
import GeneticProgramming.Run.Configuration
import GeneticProgramming.Run.Files
import GeneticProgramming.Stream.State

/-!
# Runs

A run breeds one generation from the other.  It is a machine that is advanced step by step: a
population is planted, scored, reported, and varied into the next one, until an individual solves
the problem or the last generation was reported.
-/

namespace GeneticProgramming

/-- What a run does next. -/
inductive Phase where
  | initial
  | evaluate
  | selectAndVary
  | swap
  | report
  | terminate
deriving DecidableEq, Repr

inductive RunError where
  | configuration (cause : ConfigurationError)
  | generation (cause : GenerationError)
  | selection (cause : SelectionError)
  /-- The fitness function failed with a message of its own. -/
  | fitness (message : String)
  | stream (cause : StreamError)
deriving DecidableEq, Repr

def RunError.message : RunError → String
  | .configuration cause => cause.message
  | .generation cause => cause.message
  | .selection cause => cause.message
  | .fitness message => s!"fitness evaluation failed: {message}"
  | .stream cause => cause.message

/-! ## Fitness functions -/

/-- The scores of a tree, and whether it solves the problem. -/
structure Verdict where
  fitness : Fitness
  solved : Bool
deriving DecidableEq, Repr

/-- Scores the tree at an index, or fails with a message. -/
abbrev Objective (C : Type) := Palette C → Tree → Nat → Except Fault (Except String Verdict)

/-! ## Keeping records in files -/

inductive SyncTrigger where
  /-- After every `n`-th generation; never if `n` is zero. -/
  | everyGenerations (n : Nat)
  | always
  | never
deriving DecidableEq, Repr

inductive SyncMode where
  | append
  | overwrite
deriving DecidableEq, Repr

inductive SyncTarget where
  | generation
  | state
deriving DecidableEq, Repr

/-- When, how and what a run writes to which file. -/
structure Sync where
  trigger : SyncTrigger
  mode : SyncMode
  target : SyncTarget
  path : String
deriving DecidableEq, Repr

namespace Sync

def due (s : Sync) (generation : Nat) : Bool :=
  match s.trigger with
  | .everyGenerations n => 0 < n && generation % n = 0
  | .always => true
  | .never => false

/-- Puts output into the file, however far it came; a file that cannot be opened is let be. -/
def flush (s : Sync) (output : Output) (files : Files) : Files :=
  let written := match s.mode with
    | .append => files.append s.path output.bytes
    | .overwrite => files.overwrite s.path output.bytes
  written.toOption.getD files

end Sync

/-! ## The state of a run -/

structure Selectors where
  crossover : Selector
  mutation : Selector
  reproduction : Selector
deriving DecidableEq, Repr

namespace Selectors

def ofConfiguration (c : Configuration) : Selectors where
  crossover := .ofKind c.crossoverSelection
  mutation := .ofKind c.mutationSelection
  reproduction := .ofKind c.reproductionSelection

def prepare (s : Selectors) (pop : Population) (stats : Statistics) :
    Except SelectionError Selectors := do
  return {
    crossover := ← s.crossover.prepare pop stats
    mutation := ← s.mutation.prepare pop stats
    reproduction := ← s.reproduction.prepare pop stats }

end Selectors

structure Run (C : Type) where
  palette : Palette C
  configuration : Configuration
  root : TypeId
  /-- The weights of crossover, mutation and reproduction. -/
  variation : Weights
  selectors : Selectors
  population : Population
  next : Population
  stats : Statistics
  history : List Statistics
  generation : Nat
  phase : Phase
  solved : Bool
  stopRequested : Bool
  sync : Option Sync

namespace Run

variable {C : Type}

/-- A run before its first step. -/
def new (p : Palette C) (c : Configuration) : Except Fault (Except RunError (Run C)) := do
  if let .error e := c.validate then return .error (.configuration e)
  let (root, _) ← p.pickRootType.run (.ofSeed c.seed)
  match root with
  | .error _ => return .error (.configuration .emptyRootType)
  | .ok root =>
    match ← Weights.ofList c.chances with
    | none => return .error (.configuration .invalidChances)
    | some variation => return .ok {
        palette := p
        configuration := c
        root
        variation
        selectors := .ofConfiguration c
        population := []
        next := []
        stats := .zero
        history := []
        generation := 0
        phase := .initial
        solved := false
        stopRequested := false
        sync := none }

variable (r : Run C)

/-! ## Planting -/

/-- The stream of a slot of a generation. -/
def stream (generation slot : Nat) : Random :=
  .forTask r.configuration.seed (UInt64.ofNat generation) (UInt64.ofNat slot)

/-- The initial tree of a slot. -/
def plant (slot : Nat) : Except Fault (Except GenerationError Tree) := do
  let c := r.configuration
  let attempt := c.initializer.plant r.palette slot r.root c.initialDepth c.growTerminalChance
  return (← attempt.run (r.stream 0 slot)).1

/-- Plants an initial population and starts over. -/
def plantAll : Except Fault (Except RunError (Run C)) := do
  let trees ← (List.range r.configuration.populationSize).mapM r.plant
  match trees.mapM (m := Except GenerationError) id with
  | .error e => return .error (.generation e)
  | .ok trees => return .ok { r with
      population := trees.map .ofTree
      next := []
      history := []
      generation := 0
      solved := false
      phase := .evaluate }

/-! ## Scoring -/

/-- Scores individuals in order up to the first failure; those behind it keep their scores. -/
def scoreFrom (p : Palette C) (objective : Objective C) :
    Nat → Population → Except Fault (Population × Except String Bool)
  | _, [] => return ([], .ok false)
  | i, x :: xs => do
    match ← objective p x.tree i with
    | .error e => return (x :: xs, .error e)
    | .ok verdict =>
      let (rest, solved) ← scoreFrom p objective (i + 1) xs
      return (⟨x.tree, verdict.fitness.finalize⟩ :: rest, solved.map (verdict.solved || ·))

/-- Scores the population; also answers whether an individual solves the problem. -/
def score (objective : Objective C) : Except Fault (Run C × Except RunError Bool) := do
  let (population, solved) ← scoreFrom r.palette objective 0 r.population
  match solved with
  | .error e => return ({ r with population }, .error (.fitness e))
  | .ok solved => return ({ r with population, stats := .ofPopulation population }, .ok solved)

/-! ## Varying -/

/-- A child that is too deep gives way to its parent. -/
def capped (child parent : Tree) : Tree :=
  if r.configuration.maxTreeDepth < child.depth r.palette then parent.duplicate else child

/-- A mutant of a tree, or a copy where the mutation fails. -/
def mutant (parent : Tree) : Draw Tree := do
  match ← r.configuration.mutation.apply r.palette parent.duplicate with
  | .ok child => return r.capped child parent
  | .error _ => return parent.duplicate

/-- Two trees picked by a selector. -/
def pickPair (s : Selector) : Draw ((Tree × Tree) × Selector) := do
  let (t, s) ← s.pickTree r.population
  let (u, s) ← s.pickTree r.population
  return ((t, u), s)

/-- Two children of two parents; where crossover fails, the parents are mutated or copied. -/
def cross (t u : Tree) : Draw (Tree × Tree) := do
  match ← r.configuration.crossover.apply r.palette t u with
  | .ok (left, right) => return (r.capped left t, r.capped right u)
  | .error _ =>
    if r.configuration.mutateOnFailure then return (← r.mutant t, ← r.mutant u)
    else return (t.duplicate, u.duplicate)

/-- Two trees of the next generation. -/
def vary (s : Selectors) : Draw ((Tree × Tree) × Selectors) := do
  match ← r.variation.index with
  | 0 =>
    let ((t, u), crossover) ← r.pickPair s.crossover
    return (← r.cross t u, { s with crossover })
  | 1 =>
    let ((t, u), mutation) ← r.pickPair s.mutation
    return ((← r.mutant t, ← r.mutant u), { s with mutation })
  | _ =>
    let ((t, u), reproduction) ← r.pickPair s.reproduction
    return ((t.duplicate, u.duplicate), { s with reproduction })

/-- The trees of `count` pairs from a slot on, each pair from a stream of its own. -/
def offspring : Nat → Nat → Selectors → Except Fault (List Tree × Selectors)
  | _, 0, s => return ([], s)
  | slot, count + 1, s => do
    let (((t, u), s), _) ← (r.vary s).run (r.stream (r.generation + 1) slot)
    let (rest, s) ← offspring (slot + 1) count s
    return (t :: u :: rest, s)

/-- The bytes that are set aside for an individual. -/
def individualSize : Nat := 120

/-- Breeds the next generation: the elites, and then offspring.  Room for all of them is set aside
first. -/
def breed : Except Fault (Except RunError (Run C)) := do
  match r.selectors.prepare r.population r.stats with
  | .error e => return .error (.selection e)
  | .ok selectors =>
    let size := r.configuration.populationSize
    let _ ← demandBlock (individualSize * size)
    let elites := (r.population.bestIndividuals r.configuration.elites).map (·.tree.duplicate)
    let pairs := (size - elites.length + 1) / 2
    let (children, selectors) ← r.offspring 0 pairs selectors
    let trees := elites ++ children.take (size - elites.length)
    return .ok { r with selectors, next := trees.map .ofTree }

/-- Makes the next generation the current one. -/
def advance : Run C :=
  { r with
    population := r.next
    next := []
    generation := r.generation + 1
    solved := false }

/-! ## Saving and loading -/

def saved : SavedState := ⟨r.history, r.stats, r.population⟩

def writeState : Output := r.saved.write r.palette

def writeGeneration : Output := r.population.write

/-- Continues from a saved state: its last reported generation is varied next. -/
def resume (s : SavedState) : Run C :=
  { r with
    generation := s.history.length - 1
    history := s.history
    stats := s.stats
    population := s.population
    next := []
    solved := false
    phase := if s.population.isEmpty then .initial else .selectAndVary }

/-- Reads a saved state; a stream that is refused changes nothing. -/
def loadState (bytes : Bytes) : Except StreamError (Run C) := do
  let (s, _) ← (SavedState.read r.palette).run bytes
  return r.resume s

/-- Reads a generation, which is scored next. -/
def loadGeneration (bytes : Bytes) : Except StreamError (Run C) := do
  let (population, _) ← (Population.read r.palette).run bytes
  return { r with population, next := [], solved := false, phase := .evaluate }

/-! ## Stepping -/

/-- What a due sync writes. -/
def flush (files : Files) : Files :=
  match r.sync with
  | some s =>
    if s.due r.generation then
      s.flush (match s.target with
        | .generation => r.writeGeneration
        | .state => r.writeState) files
    else files
  | none => files

/-- Whether the current generation is the last one. -/
def isFinished : Bool := r.solved || r.configuration.maxGenerations ≤ r.generation

/-- The result of a step: a run, files, and an error if the step failed. -/
structure Stepped (C : Type) where
  run : Run C
  files : Files
  failure : Option RunError

/-- A step that touches no files; `r` stays as it is where it fails. -/
def stepped (r : Run C) (files : Files) (phase : Phase) :
    Except RunError (Run C) → Stepped C
  | .ok next => ⟨{ next with phase }, files, none⟩
  | .error e => ⟨r, files, some e⟩

/-- Does what the phase asks for. -/
def perform (objective : Objective C) (files : Files) : Except Fault (Stepped C) := do
  match r.phase with
  | .initial => return stepped r files .evaluate (← r.plantAll)
  | .evaluate =>
    match ← r.score objective with
    | (scored, .ok solved) => return ⟨{ scored with solved, phase := .report }, files, none⟩
    | (scored, .error e) => return ⟨scored, files, some e⟩
  | .report =>
    let reported := { r with history := r.history ++ [r.stats] }
    let phase := if reported.isFinished then .terminate else .selectAndVary
    return ⟨{ reported with phase }, reported.flush files, none⟩
  | .selectAndVary => return stepped r files .swap (← r.breed)
  | .swap => return ⟨{ r.advance with phase := .evaluate }, files, none⟩
  | .terminate => return ⟨r, files, none⟩

/-- Advances a run by one step; a request to stop comes first. -/
def step (objective : Objective C) (files : Files) : Except Fault (Stepped C) :=
  let r := if r.stopRequested then { r with phase := .terminate } else r
  r.perform objective files

def runFor (objective : Objective C) : Nat → Run C → Files → Except Fault (Stepped C)
  | 0, r, files => return ⟨r, files, none⟩
  | steps + 1, r, files => do
    let result ← r.step objective files
    if result.failure.isSome || result.run.phase = .terminate then return result
    runFor objective steps result.run result.files

/-- Steps until the run terminates or fails.  Planting takes one step and each generation up to the
last one takes four, so the steps suffice wherever the run stands. -/
def finish (objective : Objective C) (files : Files) : Except Fault (Stepped C) :=
  runFor objective (4 * r.configuration.maxGenerations + 8) r files

end Run

end GeneticProgramming
