import GeneticProgramming.Regression.Help
import GeneticProgramming.Regression.Problem
import GeneticProgramming.Run.Document

/-!
# Executing commands

A command reads and writes a directory of files and ends with the text that it prints, or with a
message.
-/

namespace GeneticProgramming

namespace Regression

/-- Why a command ends early. -/
inductive Failure where
  /-- The document of the configuration cannot be read. -/
  | document
  | unreadable (path : String) (cause : FileError)
  | unopenable (path : String) (cause : FileError)
  | unloadable (path : String) (cause : Failure)
  | file (cause : FileError)
  /-- The file is there, but nothing can be read from it. -/
  | read (cause : FileError)
  | run (cause : RunError)
deriving DecidableEq, Repr

def Failure.message : Failure → String
  | .document => "JSON"
  | .unreadable path cause => s!"Failed to read {path}: {cause.message}"
  | .unopenable path cause => s!"Failed to open {path}: {cause.message}"
  | .unloadable path cause => s!"Failed to load {path}: {cause.message}"
  | .file cause => cause.message
  | .read cause => s!"invalid read: {cause.message}"
  | .run cause => cause.message

/-- What a command leaves behind: files, and what it prints. -/
structure Outcome where
  files : Files
  printed : Except Failure String

/-- A computation on files that may fail; what was written before stays. -/
abbrev Session := ExceptT Failure (StateT Files (Except Fault))

namespace Session

def lift {α : Type} (x : Except Fault α) : Session α :=
  ExceptT.mk do
    let a ← x
    return .ok a

def ofExcept {α ε : Type} (wrap : ε → Failure) : Except ε α → Session α
  | .ok a => return a
  | .error e => throw (wrap e)

/-- The outcome of a computation. -/
def outcome (s : Session String) (files : Files) : Except Fault Outcome := do
  let (printed, files) ← s.run.run files
  return ⟨files, printed⟩

end Session

/-- The configuration of a command: that of a document, or else the standard one, with some fields
replaced. -/
def configuration (o : Evolve) : Session Configuration := do
  let c ← match o.configuration with
    | none => pure Configuration.standard
    | some path =>
      let text ← Session.ofExcept (.unreadable path) ((← get).readText path)
      match Configuration.read text with
      | some c => pure c
      | none => throw .document
  return { c with
    populationSize := o.population.getD c.populationSize
    maxGenerations := o.generations.getD c.maxGenerations
    seed := (o.seed.map UInt64.ofNat).getD c.seed
    threads := o.threads.getD c.threads }

/-- A run of the problem before its first step. -/
def newRun (c : Configuration) : Session (Run Single) := do
  match palette with
  | .error _ => throw (.run (.configuration .emptyRootType))
  | .ok p => Session.ofExcept .run (← Session.lift (Run.new p c))

/-- Loads a state file into a run. -/
def load (r : Run Single) (path : String) : Session (Run Single) := do
  match (← get).read path with
  | .ok bytes => Session.ofExcept (fun e => .run (.stream e)) (r.loadState bytes)
  | .error .isDirectory => throw (.read .isDirectory)
  | .error e => throw (.unopenable path e)

/-- Saves a run; what was written stays where the writer fails. -/
def save (r : Run Single) (path : String) : Session Unit := do
  let output := r.writeState
  set (← Session.ofExcept .file ((← get).overwrite path output.bytes))
  if let some e := output.failure then throw (.run (.stream e))

/-- Steps to the end. -/
def finish (r : Run Single) : Session (Run Single) := do
  let result ← Session.lift (r.finish objective (← get))
  set result.files
  match result.failure with
  | some e => throw (.run e)
  | none => return result.run

def report (r : Run Single) (top : Nat) (format : Report.Format) : Session String := do
  return (← Session.lift (Report.ofRun r top)).render format

/-- When the state is written while a run goes on. -/
def sync (o : Evolve) : Option Sync := do
  return ⟨.everyGenerations (← o.syncEvery), .overwrite, .state, ← o.save⟩

def evolve (o : Evolve) : Session String := do
  let r ← newRun (← configuration o)
  let r ← match o.resume with
    | some path => load r path
    | none => pure r
  let r ← finish { r with sync := sync o }
  if let some path := o.save then save r path
  report r o.top o.format

/-- A saved run is loaded into one of the standard configuration. -/
def inspect (o : Inspect) : Session String := do
  let r ← newRun { Configuration.standard with threads := 1 }
  let r ← tryCatch (load r o.state) fun
    | .unopenable path e => throw (.unopenable path e)
    | e => throw (.unloadable o.state e)
  report r o.top o.format

/-- Executes a command on a directory of files. -/
def execute (c : Command) (files : Files) : Except Fault Outcome :=
  match c with
  | .evolve o => (evolve o).outcome files
  | .inspect o => (inspect o).outcome files
  | .help topic form => .ok ⟨files, .ok (topic.text form)⟩
  | .version => .ok ⟨files, .ok "stgp 0.1.0\n"⟩

end Regression

end GeneticProgramming
