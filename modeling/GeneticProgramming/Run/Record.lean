import GeneticProgramming.Palette.Document
import GeneticProgramming.Population.Document
import GeneticProgramming.Run.Basic
import GeneticProgramming.Run.Document
import GeneticProgramming.Stream.Document

/-!
# Runs and configurations as records

A configuration is put into the record that `Document.configuration?` reads.  The form of its
chances is chosen by the caller: numbers, which are read back, or the words that store them.
-/

namespace GeneticProgramming

/-! ## Errors -/

def ConfigurationError.document (e : ConfigurationError) : Json :=
  let kind := match e with
    | .emptyPopulation => "EmptyPopulation"
    | .tooManyElites _ _ => "TooManyElites"
    | .invalidChances => "InvalidChances"
    | .invalidDepth _ _ => "InvalidDepth"
    | .emptyRootType => "EmptyRootType"
  .failure "ConfigError" kind e.message

/-- An error of a run is that of its cause. -/
def RunError.document (e : RunError) : Json :=
  match e with
  | .configuration cause => cause.document
  | .generation cause => cause.document
  | .selection cause => cause.document
  | .fitness _ => .failure "FitnessError" "FitnessError" e.message
  | .stream cause => cause.document

/-! ## Configurations -/

namespace Document

variable (chance : Double → Json)

def ofGenerator : Generator → Json
  | .grow terminalChance => .object [("Grow", .object [("terminal_chance", chance terminalChance)])]
  | .full => .string "Full"

def ofInitializer : Initializer → Json
  | .grow => .string "Grow"
  | .full => .string "Full"
  | .halfHalf => .string "HalfHalf"
  | .rampedHalfHalf => .string "RampedHalfHalf"

def ofCrossoverKind : CrossoverKind → Json
  | .subtree => .string "Subtree"
  | .onePoint => .string "OnePoint"
  | .advanced => .string "Advanced"

def ofMutationKind : MutationKind → Json
  | .point => .string "Point"
  | .advanced => .string "Advanced"

def ofSelectionKind : SelectionKind → Json
  | .tournament size => .object [("Tournament", .object [("size", .ofNat size)])]
  | .best => .string "Best"
  | .worst => .string "Worst"
  | .random => .string "Random"
  | .fitnessProportionate => .string "FitnessProportionate"

def ofMutationChances (c : MutationChances) : Json := .object [
  ("expression", chance c.expression),
  ("adjust", chance c.adjust),
  ("sub", chance c.sub),
  ("jump", chance c.jump),
  ("copy", chance c.copy)]

def ofCrossover (c : Crossover) : Json := .object [
  ("kind", ofCrossoverKind c.kind),
  ("max_crossover_tries", .ofNat c.tries),
  ("min_tree_size", .ofNat c.minTreeSize),
  ("depth_multiplier", chance c.points.depthMultiplier),
  ("terminal_chance", chance c.points.terminalChance),
  ("traverse", .bool c.points.traverse),
  ("replacement_min_depth", .ofNat c.replacement.least),
  ("replacement_max_depth", .ofNat c.replacement.most),
  ("generator", ofGenerator chance c.generator)]

def ofMutation (m : Mutation) : Json := .object [
  ("kind", ofMutationKind m.kind),
  ("replacement_min_depth", .ofNat m.replacement.least),
  ("replacement_max_depth", .ofNat m.replacement.most),
  ("generator", ofGenerator chance m.generator),
  ("terminal_chance", chance m.points.terminalChance),
  ("traverse", .bool m.points.traverse),
  ("depth_multiplier", chance m.points.depthMultiplier),
  ("per_node_mutation_chance", chance m.perTreeChance),
  ("chances", ofMutationChances chance m.chances)]

def ofConfiguration (c : Configuration) : Json := .object [
  ("population_size", .ofNat c.populationSize),
  ("max_generations", .ofNat c.maxGenerations),
  ("initial_min_tree_size", .ofNat c.initialDepth.least),
  ("initial_max_tree_size", .ofNat c.initialDepth.most),
  ("max_tree_depth", .ofNat c.maxTreeDepth),
  ("crossover_chance", chance c.crossoverChance),
  ("mutation_chance", chance c.mutationChance),
  ("reproduction_chance", chance c.reproductionChance),
  ("elites", .ofNat c.elites),
  ("try_mutation_on_crossover_failure", .bool c.mutateOnFailure),
  ("threads", .ofNat c.threads),
  ("evaluation_size", .ofNat c.evaluationSize),
  ("seed", .ofNat c.seed.toNat),
  ("grow_terminal_chance", chance c.growTerminalChance),
  ("initializer", ofInitializer c.initializer),
  ("crossover", ofCrossover chance c.crossover),
  ("mutation", ofMutation chance c.mutation),
  ("crossover_selection", ofSelectionKind c.crossoverSelection),
  ("mutation_selection", ofSelectionKind c.mutationSelection),
  ("reproduction_selection", ofSelectionKind c.reproductionSelection)]

end Document

/-- A configuration, whether it is valid, and the chances of its variations. -/
def Configuration.document (c : Configuration) : Json := .object [
  ("valid", match c.validate with
    | .ok () => .string "ok"
    | .error e => e.document),
  ("chances", .ofList Double.document c.chances),
  ("config", Document.ofConfiguration Double.document c)]

/-! ## Runs -/

/-- A number of generations, or one of seconds: none are always over, others never. -/
def SyncTrigger.ofDocument? (j : Json) : Option SyncTrigger :=
  match j.nat? "generations", j.nat? "seconds" with
  | some n, _ => some (.everyGenerations n)
  | none, some 0 => some .always
  | none, some _ => some .never
  | none, none => none

def Phase.document : Phase → Json
  | .initial => .string "Initial"
  | .evaluate => .string "Evaluate"
  | .selectAndVary => .string "SelectAndVary"
  | .swap => .string "Swap"
  | .report => .string "Report"
  | .terminate => .string "Terminate"

/-- Where a run stands. -/
def Run.document {C : Type} (r : Run C) : Json := .object [
  ("state", r.phase.document),
  ("generation", .ofNat r.generation),
  ("history", .ofNat r.history.length),
  ("population", .ofNat r.population.length)]

/-- How many trees of a run are not well-formed, and how deep the trees are. -/
def Run.checkDocument {C : Type} (r : Run C) : Json :=
  let trees := r.population.map (·.tree)
  .object [
    ("bad", .ofNat (trees.countP fun t => !(t.check r.palette).isOk)),
    ("depths", .ofList (fun t => .ofNat (t.depth r.palette)) trees)]

/-- The files that an object lists by their paths. -/
def Files.ofDocument (j : Json) : Files :=
  match j with
  | .object members =>
    members.foldl (fun files (path, content) =>
      files.put (Location.ofPath path).path (Bytes.ofDocument content)) .empty
  | _ => .empty

end GeneticProgramming
