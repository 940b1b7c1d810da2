import GeneticProgramming.Json.Reader
import GeneticProgramming.Run.Configuration

/-!
# Configurations as documents

A configuration is written as a JSON record.  Fields that are missing at the top take their standard
value, those of the records inside have to be there.
-/

namespace GeneticProgramming

namespace Document

/-- The fields of a record by name, each given or missing. -/
abbrev Fields := List (String × Option Json)

def fields? (names : List String) (j : Json) : Option Fields :=
  (j.fields? names).map names.zip

/-- A field that may be missing if there is a standard value. -/
def field {α : Type} (fs : Fields) (name : String) (standard : Option α) (read : Json → Option α) :
    Option α :=
  match (fs.lookup name).join with
  | some j => read j
  | none => standard

/-- A whole number below `2 ^ 32`. -/
def natHalf? (j : Json) : Option Nat := do
  let n ← j.toNat?
  if n < 2 ^ 32 then some n else none

/-- A variant that holds nothing. -/
def bare? {α : Type} (variants : List (String × α)) (j : Json) : Option α := do
  let (name, content) ← j.variant?
  let value ← variants.lookup name
  if Json.isBare content then some value else none

def initializer? : Json → Option Initializer :=
  bare? [("Grow", .grow), ("Full", .full), ("HalfHalf", .halfHalf),
    ("RampedHalfHalf", .rampedHalfHalf)]

def crossoverKind? : Json → Option CrossoverKind :=
  bare? [("Subtree", .subtree), ("OnePoint", .onePoint), ("Advanced", .advanced)]

def mutationKind? : Json → Option MutationKind := bare? [("Point", .point), ("Advanced", .advanced)]

def generator? (j : Json) : Option Generator := do
  match ← j.variant? with
  | ("Grow", some content) =>
    let fs ← fields? ["terminal_chance"] content
    return .grow (← field fs "terminal_chance" none Json.toDouble?)
  | ("Full", content) => if Json.isBare content then some .full else none
  | _ => none

def selectionKind? (j : Json) : Option SelectionKind := do
  match ← j.variant? with
  | ("Tournament", some content) =>
    let fs ← fields? ["size"] content
    return .tournament (← field fs "size" none Json.toNat?)
  | _ =>
    bare? [("Best", .best), ("Worst", .worst), ("Random", .random),
      ("FitnessProportionate", .fitnessProportionate)] j

def mutationChances? (j : Json) : Option MutationChances := do
  let fs ← fields? ["expression", "adjust", "sub", "jump", "copy"] j
  let chance (name : String) := field fs name none Json.toDouble?
  return {
    expression := ← chance "expression"
    adjust := ← chance "adjust"
    sub := ← chance "sub"
    jump := ← chance "jump"
    copy := ← chance "copy" }

/-- The fields of a point selector among those of a record. -/
def points? (fs : Fields) (standard : Option PointSelector) : Option PointSelector := do
  return {
    terminalChance := ← field fs "terminal_chance" (standard.map (·.terminalChance)) Json.toDouble?
    traverse := ← field fs "traverse" (standard.map (·.traverse)) Json.toBool?
    depthMultiplier :=
      ← field fs "depth_multiplier" (standard.map (·.depthMultiplier)) Json.toDouble? }

/-- The depths of replacements among the fields of a record. -/
def replacement? (fs : Fields) (standard : Option DepthWindow) : Option DepthWindow := do
  return {
    least := ← field fs "replacement_min_depth" (standard.map (·.least)) Json.toNat?
    most := ← field fs "replacement_max_depth" (standard.map (·.most)) Json.toNat? }

/-- A record of a point selector; missing fields are taken from `standard`. -/
def pointSelector? (standard : Option PointSelector) (j : Json) : Option PointSelector := do
  points? (← fields? ["terminal_chance", "traverse", "depth_multiplier"] j) standard

/-- A record of a crossover; missing fields are taken from `standard`. -/
def crossover? (standard : Option Crossover) (j : Json) : Option Crossover := do
  let fs ← fields? ["kind", "max_crossover_tries", "min_tree_size", "depth_multiplier",
    "terminal_chance", "traverse", "replacement_min_depth", "replacement_max_depth", "generator"] j
  return {
    kind := ← field fs "kind" (standard.map (·.kind)) crossoverKind?
    tries := ← field fs "max_crossover_tries" (standard.map (·.tries)) natHalf?
    minTreeSize := ← field fs "min_tree_size" (standard.map (·.minTreeSize)) Json.toNat?
    points := ← points? fs (standard.map (·.points))
    replacement := ← replacement? fs (standard.map (·.replacement))
    generator := ← field fs "generator" (standard.map (·.generator)) generator? }

/-- A record of a mutation; missing fields are taken from `standard`. -/
def mutation? (standard : Option Mutation) (j : Json) : Option Mutation := do
  let fs ← fields? ["kind", "replacement_min_depth", "replacement_max_depth", "generator",
    "terminal_chance", "traverse", "depth_multiplier", "per_node_mutation_chance", "chances"] j
  return {
    kind := ← field fs "kind" (standard.map (·.kind)) mutationKind?
    replacement := ← replacement? fs (standard.map (·.replacement))
    generator := ← field fs "generator" (standard.map (·.generator)) generator?
    points := ← points? fs (standard.map (·.points))
    perTreeChance :=
      ← field fs "per_node_mutation_chance" (standard.map (·.perTreeChance)) Json.toDouble?
    chances := ← field fs "chances" (standard.map (·.chances)) mutationChances? }

/-- A record of a configuration; missing fields have their standard value. -/
def configuration? (j : Json) : Option Configuration := do
  let fs ← fields? ["population_size", "max_generations", "initial_min_tree_size",
    "initial_max_tree_size", "max_tree_depth", "crossover_chance", "mutation_chance",
    "reproduction_chance", "elites", "try_mutation_on_crossover_failure", "threads",
    "evaluation_size", "seed", "grow_terminal_chance", "initializer", "crossover", "mutation",
    "crossover_selection", "mutation_selection", "reproduction_selection"] j
  let s := Configuration.standard
  let nat (name : String) (standard : Nat) := field fs name (some standard) Json.toNat?
  let chance (name : String) (standard : Double) := field fs name (some standard) Json.toDouble?
  let selection (name : String) := field fs name (some SelectionKind.standard) selectionKind?
  return {
    populationSize := ← nat "population_size" s.populationSize
    maxGenerations := ← nat "max_generations" s.maxGenerations
    initialDepth := {
      least := ← nat "initial_min_tree_size" s.initialDepth.least
      most := ← nat "initial_max_tree_size" s.initialDepth.most }
    maxTreeDepth := ← nat "max_tree_depth" s.maxTreeDepth
    crossoverChance := ← chance "crossover_chance" s.crossoverChance
    mutationChance := ← chance "mutation_chance" s.mutationChance
    reproductionChance := ← chance "reproduction_chance" s.reproductionChance
    elites := ← nat "elites" s.elites
    mutateOnFailure :=
      ← field fs "try_mutation_on_crossover_failure" (some s.mutateOnFailure) Json.toBool?
    threads := ← nat "threads" s.threads
    evaluationSize := ← nat "evaluation_size" s.evaluationSize
    seed := UInt64.ofNat (← nat "seed" s.seed.toNat)
    growTerminalChance := ← chance "grow_terminal_chance" s.growTerminalChance
    initializer := ← field fs "initializer" (some s.initializer) initializer?
    crossover := ← field fs "crossover" (some s.crossover) (crossover? none)
    mutation := ← field fs "mutation" (some s.mutation) (mutation? none)
    crossoverSelection := ← selection "crossover_selection"
    mutationSelection := ← selection "mutation_selection"
    reproductionSelection := ← selection "reproduction_selection" }

end Document

/-- Reads the text of a configuration. -/
def Configuration.read (text : String) : Option Configuration := do
  Document.configuration? (← Json.read text)

end GeneticProgramming
