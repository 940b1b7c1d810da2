import GeneticProgramming.Regression.Arguments

/-!
# Help texts

What the program and its commands say of themselves: what they are for, how they are used, and
sections of entries.  A brief text has a line for each entry; a full one puts what an entry is for
below its label, and says more of its values.
-/

namespace GeneticProgramming

namespace Regression

/-- A line of a section: a label, what it is for, and the values it takes. -/
structure HelpEntry where
  label : String
  about : String
  standard : Option String
  choices : List (String × String)
deriving DecidableEq, Repr

/-- Puts blanks after a text until it is `width` characters long. -/
def padRight (width : Nat) (s : String) : String :=
  s ++ String.ofList (List.replicate (width - s.length) ' ')

namespace OptionRule

variable (o : OptionRule)

/-- The name that stands for the value of an option. -/
def valueName : String :=
  String.ofList (o.word.toList.map fun c => if c = '-' then '_' else c.toUpper)

/-- The letter, or blanks where there is none, the word, and a name for the value. -/
def label : String :=
  (match o.letter with
    | some c => String.ofList ['-', c, ',', ' ']
    | none => "    ") ++
  "--" ++ o.word ++ (if o.hasValue then s!" <{o.valueName}>" else "")

def entry : HelpEntry := ⟨o.label, o.about, o.standard, o.choices⟩

end OptionRule

namespace HelpEntry

def plain (label about : String) : HelpEntry := ⟨label, about, none, []⟩

variable (e : HelpEntry)

private def standardNote : List String :=
  match e.standard with
  | some value => [s!"[default: {value}]"]
  | none => []

private def choicesNote : List String :=
  if e.choices.isEmpty then []
  else ["[possible values: " ++ ", ".intercalate (e.choices.map (·.1)) ++ "]"]

/-- An entry on one line, with what it is for in the column after labels of `width` characters. -/
def brief (width : Nat) : String :=
  "  " ++ padRight width e.label ++ "  " ++
    " ".intercalate (e.about :: (e.standardNote ++ e.choicesNote)) ++ "\n"

private def margin : String := "\n          "

private def choicesList : String :=
  if e.choices.isEmpty then ""
  else "\n" ++ margin ++ "Possible values:" ++
    String.join (e.choices.map fun (name, about) => margin ++ s!"- {name}: {about}")

/-- An entry at length, below its label; the standard value is named last. -/
def full : String :=
  "  " ++ e.label ++ margin ++ e.about ++ e.choicesList ++
    String.join (e.standardNote.map fun note => margin ++ margin ++ note) ++ "\n"

end HelpEntry

/-- The entries of a section, with a blank line between full ones. -/
def helpSection (title : String) (form : HelpForm) (entries : List HelpEntry) : String :=
  let width := (entries.map (·.label.length)).foldl max 0
  title ++ ":\n" ++ match form with
    | .brief => String.join (entries.map (·.brief width))
    | .full => "\n".intercalate (entries.map (·.full))

namespace Topic

/-- What the topic is for, in a line. -/
def about : Topic → String
  | program => "stgp - A strongly-typed genetic programming engine"
  | evolve => "Evolve a program for x^4 + x^3 + x^2 + x over [-5, 5]"
  | inspect => "Print the history and best trees of a saved regression state"
  | help => "Print this message or the help of the given subcommand(s)"

def usage : Topic → String
  | program => "stgp_cli <COMMAND>"
  | evolve => "stgp_cli regress [OPTIONS]"
  | inspect => "stgp_cli inspect [OPTIONS] <STATE>"
  | help => "stgp_cli help [COMMAND]..."

private def helpRule (about : String) : OptionRule := .flag "help" (some 'h') about

private def options (rules : List OptionRule) (form : HelpForm) : String :=
  let self := helpRule <| match form with
    | .brief => "Print help (see more with '--help')"
    | .full => "Print help (see a summary with '-h')"
  helpSection "Options" form ((rules ++ [self]).map (·.entry))

/-- The sections of a help text; there is no more to say of the program and of help in full. -/
def sections (form : HelpForm) : Topic → List String
  | program => [
    helpSection "Commands" .brief [
      .plain "regress" evolve.about, .plain "inspect" inspect.about, .plain "help" help.about],
    helpSection "Options" .brief [
      (helpRule "Print help").entry,
      (OptionRule.flag "version" (some 'V') "Print version").entry]]
  | evolve => [options Command.evolveRules form]
  | inspect => [
    helpSection "Arguments" form [.plain "<STATE>" "State file written by `regress --save`"],
    options Command.inspectRules form]
  | help => [
    helpSection "Arguments" .brief [.plain "[COMMAND]..." "Print help for the subcommand(s)"]]

/-- The help text of a topic. -/
def text (t : Topic) (form : HelpForm) : String :=
  "\n".intercalate ((t.about ++ "\n") :: s!"Usage: {t.usage}\n" :: t.sections form)

end Topic

end Regression

end GeneticProgramming
