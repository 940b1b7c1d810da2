import GeneticProgramming.Regression.Execution

/-!
# The command line

Reads the files that a command names, executes the command, and writes back what it changed.
-/

namespace GeneticProgramming.Regression

/-- The files that a command names. -/
def namedFiles : Command → List String
  | .evolve o => [o.configuration, o.resume, o.save].filterMap id
  | .inspect o => [o.state]
  | .help .. => []
  | .version => []

/-- Adds what a location holds, a directory or a file, if anything is there. -/
def gatherAt (files : Files) (l : Location) : IO Files := do
  try
    let _ ← IO.FS.realPath (l.path ++ "/.")
    return { files with directories := l.path :: files.directories }
  catch _ =>
    try
      let bytes ← IO.FS.readBinFile l.path
      return files.put l.path bytes.toList
    catch _ => return files

/-- Adds what a path leads to, and what lies on its way. -/
def gather (files : Files) (path : String) : IO Files :=
  let names := pathNames path
  let ways := (List.range names.length).map fun n => names.take (n + 1)
  (ways.map fun way => way.foldl Location.step (.start path)).foldlM gatherAt files

/-- Writes the files that differ from what they were. -/
def release (before after : Files) : IO Unit :=
  for (path, bytes) in after.entries do
    if before.get? path ≠ some bytes then
      IO.FS.writeBinFile path ⟨bytes.toArray⟩

end GeneticProgramming.Regression

open GeneticProgramming Regression in
/-- The exit code is zero for success, one for a failure and two for a malformed command line. -/
def main (arguments : List String) : IO UInt32 := do
  match Command.read arguments with
  | none =>
    IO.eprintln "Usage: stgp regress [OPTIONS] | stgp inspect [OPTIONS] STATE"
    return 2
  | some command =>
    let files ← (namedFiles command).foldlM gather Files.empty
    match execute command files with
    | .error fault =>
      IO.eprintln (fault.message.getD "the command broke off")
      return 101
    | .ok outcome =>
      release files outcome.files
      match outcome.printed with
      | .ok text =>
        IO.print text
        return 0
      | .error failure =>
        IO.eprintln s!"Error: {failure.message}"
        return 1
