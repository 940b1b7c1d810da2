import GeneticProgramming.Regression.Report

/-!
# Command lines

The arguments of a command are options and positionals.  An option is named by a letter or by a
word; its value follows after an equals sign, in the next argument, or, for a letter, in the rest of
the same one.  No option may be given twice.
-/

namespace GeneticProgramming

namespace Regression

/-- An option: the word and the letter that name it, what it is for, and whether it has a value.
`standard` is the value where it is not given; where only a few values are allowed, `choices` lists
them with what each means. -/
structure OptionRule where
  word : String
  letter : Option Char
  about : String
  hasValue : Bool
  standard : Option String
  choices : List (String × String)
deriving DecidableEq, Repr

namespace OptionRule

/-- An option without a value. -/
def flag (word : String) (letter : Option Char) (about : String) : OptionRule :=
  ⟨word, letter, about, false, none, []⟩

/-- An option with a value that need not be given. -/
def optional (word : String) (letter : Option Char) (about : String) : OptionRule :=
  ⟨word, letter, about, true, none, []⟩

end OptionRule

/-- How much a help text says. -/
inductive HelpForm where
  | brief
  | full
deriving DecidableEq, Repr

/-- What was given: options by word with their values, positionals, and whether help was asked
for. -/
structure Given where
  options : List (String × String)
  positionals : List String
  help : Option HelpForm
deriving DecidableEq, Repr

namespace Given

def empty : Given := ⟨[], [], none⟩

def addOption (g : Given) (word value : String) : Option Given :=
  if g.options.any (·.1 = word) then none
  else some { g with options := g.options ++ [(word, value)] }

def addPositionals (g : Given) (more : List String) : Given :=
  { g with positionals := g.positionals ++ more }

def value? (g : Given) (word : String) : Option String := g.options.lookup word

end Given

/-- Whether an argument can only be an option. -/
private def looksLikeOption (a : String) : Bool := a.startsWith "-" && a ≠ "-"

/-- The text before and after the first equals sign. -/
private def splitAtEquals (s : List Char) : String × Option String :=
  match s.dropWhile (· ≠ '=') with
  | _ :: rest => (String.ofList (s.takeWhile (· ≠ '=')), some (String.ofList rest))
  | [] => (String.ofList s, none)

/-- Finds the option that an argument names, and the value in the same argument. -/
private def openOption (rules : List OptionRule) (a : String) :
    Option (OptionRule × Option String) :=
  match a.toList with
  | '-' :: '-' :: rest => do
    let (word, value) := splitAtEquals rest
    return (← rules.find? (·.word = word), value)
  | '-' :: c :: rest => do
    let rule ← rules.find? (·.letter = some c)
    match rest with
    | [] => return (rule, none)
    | '=' :: value => return (rule, some (String.ofList value))
    | value => return (rule, some (String.ofList value))
  | _ => none

/-- Whether an argument asks for help; nothing that follows the letter is looked at. -/
def asksHelp (a : String) : Option HelpForm :=
  if a = "--help" then some .full else if a.startsWith "-h" then some .brief else none

/-- Whether an argument asks for the version; nothing that follows the letter is looked at. -/
def asksVersion (a : String) : Bool := a = "--version" || a.startsWith "-V"

/-- Sorts arguments into options and positionals; after two dashes all are positionals.  What
follows the question for help is not looked at. -/
def collect (rules : List OptionRule) : List String → Given → Option Given
  | [], g => some g
  | a :: as, g =>
    if a = "--" then some (g.addPositionals as)
    else if let some form := asksHelp a then some { g with help := some form }
    else if looksLikeOption a then do
      match ← openOption rules a with
      | (rule, some value) =>
        if rule.hasValue then collect rules as (← g.addOption rule.word value) else none
      | (rule, none) =>
        if rule.hasValue then
          match as with
          | value :: as =>
            if looksLikeOption value then none
            else collect rules as (← g.addOption rule.word value)
          | [] => none
        else collect rules as (← g.addOption rule.word "")
    else collect rules as (g.addPositionals [a])

/-! ## Values -/

/-- A whole number that fits a word; a plus sign may come first. -/
def readCount (s : String) : Option Nat :=
  let digits := match s.toList with
    | '+' :: rest => rest
    | all => all
  if digits.isEmpty || digits.any (!·.isDigit) then none
  else
    let n := digits.foldl (fun n c => n * 10 + (c.toNat - '0'.toNat)) 0
    if n < 2 ^ 64 then some n else none

/-- A path is any text but the empty one. -/
def readPath (s : String) : Option String := if s.isEmpty then none else some s

def readFormat : String → Option Report.Format
  | "text" => some .text
  | "json" => some .document
  | _ => none

/-- The value of an option, if it is given; a value that cannot be read is an error. -/
def Given.read {α : Type} (g : Given) (word : String) (reader : String → Option α) :
    Option (Option α) :=
  match g.value? word with
  | none => some none
  | some s => (reader s).map some

/-! ## Commands -/

structure Evolve where
  configuration : Option String
  population : Option Nat
  generations : Option Nat
  seed : Option Nat
  threads : Option Nat
  save : Option String
  resume : Option String
  syncEvery : Option Nat
  top : Nat
  format : Report.Format
deriving DecidableEq, Repr

structure Inspect where
  state : String
  top : Nat
  format : Report.Format
deriving DecidableEq, Repr

/-- What a help text is about. -/
inductive Topic where
  /-- The program as a whole. -/
  | program
  | evolve
  | inspect
  | help
deriving DecidableEq, Repr

inductive Command where
  /-- Breeds a run and reports on it. -/
  | evolve (options : Evolve)
  /-- Reports on a saved run. -/
  | inspect (options : Inspect)
  | help (topic : Topic) (form : HelpForm)
  | version
deriving DecidableEq, Repr

namespace Command

/-- How many trees a report shows: `standard` of them unless the option gives a number. -/
private def topRule (standard : Nat) : OptionRule :=
  ⟨"top", some 't', "Number of best trees to print", true, some (toString standard), []⟩

private def formatRule : OptionRule :=
  ⟨"format", some 'f', "Output format: text or json", true, some "text",
    [("text", "Human-readable text output"), ("json", "Machine-readable JSON output")]⟩

def evolveTop : Nat := 3

def inspectTop : Nat := 5

def evolveRules : List OptionRule := [
  .optional "config" (some 'c')
    "JSON file with a program configuration (missing fields use defaults)",
  .optional "population" (some 'p') "Population size",
  .optional "generations" (some 'g') "Number of generations",
  .optional "seed" (some 's') "Random seed",
  .optional "threads" (some 'j') "Worker threads (0 = CPU count)",
  .optional "save" none "Write the final state to this file",
  .optional "resume" none "Continue from a saved state",
  .optional "sync-every" none "Also write the state to --save every N generations",
  topRule evolveTop,
  formatRule,
  .flag "progress" none "Show progress bar"]

def inspectRules : List OptionRule := [topRule inspectTop, formatRule]

/-- An interval of synchronization needs a file to write to, unless help is asked for. -/
def readEvolve (arguments : List String) : Option Command := do
  let g ← collect evolveRules arguments .empty
  if !g.positionals.isEmpty then none
  let options : Evolve := {
    configuration := ← g.read "config" readPath
    population := ← g.read "population" readCount
    generations := ← g.read "generations" readCount
    seed := ← g.read "seed" readCount
    threads := ← g.read "threads" readCount
    save := ← g.read "save" readPath
    resume := ← g.read "resume" readPath
    syncEvery := ← g.read "sync-every" readCount
    top := (← g.read "top" readCount).getD evolveTop
    format := (← g.read "format" readFormat).getD .text }
  match g.help with
  | some form => return .help .evolve form
  | none => if options.syncEvery.isSome && options.save.isNone then none else return .evolve options

/-- A state has to be named, unless help is asked for. -/
def readInspect (arguments : List String) : Option Command := do
  let g ← collect inspectRules arguments .empty
  let states ← g.positionals.mapM readPath
  let top := (← g.read "top" readCount).getD inspectTop
  let format := (← g.read "format" readFormat).getD .text
  match states, g.help with
  | [], some form | [_], some form => return .help .inspect form
  | [state], none => return .inspect ⟨state, top, format⟩
  | _, _ => none

/-- Help on a command that is named, or on the program. -/
def readHelp : List String → Option Command
  | [] => some (.help .program .full)
  | ["regress"] => some (.help .evolve .full)
  | ["inspect"] => some (.help .inspect .full)
  | ["help"] => some (.help .help .full)
  | _ => none

/-- The command that a command line asks for; there is none if it is malformed.  Whatever follows
the question for the version is not looked at. -/
def read : List String → Option Command
  | "regress" :: arguments => readEvolve arguments
  | "inspect" :: arguments => readInspect arguments
  | "help" :: arguments => readHelp arguments
  | a :: _ => if asksVersion a then some .version else (asksHelp a).map (.help .program)
  | [] => none

end Command

end Regression

end GeneticProgramming
