import GeneticProgramming.Run.Path
import GeneticProgramming.Stream.Bytes

/-!
# Files

A directory with files and further directories, as a finite map from paths to bytes.  Reading and
writing fail in the ways that a path can be wrong: every name but the last one has to lead to a
directory, and the last one must not.
-/

namespace GeneticProgramming

inductive FileError where
  | notFound
  | isDirectory
  | notDirectory
  | nameTooLong
  /-- No name holds the character zero. -/
  | invalidName
  | invalidText
deriving DecidableEq, Repr

def FileError.message : FileError → String
  | .notFound => "No such file or directory (os error 2)"
  | .isDirectory => "Is a directory (os error 21)"
  | .notDirectory => "Not a directory (os error 20)"
  | .nameTooLong => "File name too long (os error 36)"
  | .invalidName => "file name contained an unexpected NUL byte"
  | .invalidText => "stream did not contain valid UTF-8"

/-- Files and directories are kept under the shortest paths of their locations.  The directories at
which paths start are not listed, nor are those above them and those that are always there. -/
structure Files where
  directories : List String
  entries : List (String × Bytes)
deriving DecidableEq, Repr

namespace Files

def empty : Files := ⟨[], []⟩

instance : Inhabited Files := ⟨empty⟩

variable (files : Files)

def get? (path : String) : Option Bytes := files.entries.lookup path

/-- Replaces a file or makes a new one. -/
def put (name : String) (bytes : Bytes) : Files :=
  { files with entries := (name, bytes) :: files.entries.filter (·.1 ≠ name) }

/-! ## Following paths -/

/-- The bytes that a name may have. -/
def longestName : Nat := 255

/-- The bytes that a path may have. -/
def longestPath : Nat := 4095

/-- The directories that are always there. -/
def commonDirectories : List String := ["/dev", "/tmp"]

/-- A file that is always there: it is empty, and what is written to it is forgotten. -/
def nullDevice : String := "/dev/null"

def isDirectory (l : Location) : Bool :=
  l.isOutermost || commonDirectories.contains l.path || files.directories.contains l.path

/-- What the file at a location holds. -/
def content? (l : Location) : Option Bytes :=
  if l.path = nullDevice then some [] else files.get? l.path

def checkName (l : Location) : Except FileError Unit :=
  if l.names.head?.any (longestName < ·.utf8ByteSize) then .error .nameTooLong else .ok ()

/-- Follows a name that has to lead to a directory. -/
def enter (l : Location) (name : String) : Except FileError Location := do
  let next := l.step name
  if files.isDirectory next then return next
  checkName next
  if (files.content? next).isSome then throw .notDirectory
  throw .notFound

/-- Follows a path; what its last name leads to need not be there. -/
def locate (path : String) : Except FileError Location := do
  if path.isEmpty then throw .notFound
  if path.toList.contains '\x00' then throw .invalidName
  if longestPath < path.utf8ByteSize then throw .nameTooLong
  let names := pathNames path
  let directory ← names.dropLast.foldlM files.enter (.start path)
  return (names.getLast?.map directory.step).getD directory

/-! ## Reading and writing -/

/-- Reads a file; a slash at the end of its path asks for a directory. -/
def read (path : String) : Except FileError Bytes := do
  let l ← files.locate path
  if files.isDirectory l then throw .isDirectory
  checkName l
  match files.content? l with
  | some bytes => if path.endsWith "/" then throw .notDirectory else return bytes
  | none => throw .notFound

/-- Reads a file that holds text. -/
def readText (path : String) : Except FileError String := do
  match String.fromUTF8? ⟨(← files.read path).toArray⟩ with
  | some text => return text
  | none => throw .invalidText

/-- The kept path of a file that is written to, whether it is there or not. -/
def target (path : String) : Except FileError String := do
  let l ← files.locate path
  if path.endsWith "/" || files.isDirectory l then throw .isDirectory
  checkName l
  return l.path

/-- Makes a file hold exactly these bytes. -/
def overwrite (path : String) (bytes : Bytes) : Except FileError Files := do
  let name ← files.target path
  return if name = nullDevice then files else files.put name bytes

/-- Adds bytes at the end of a file. -/
def append (path : String) (bytes : Bytes) : Except FileError Files := do
  files.overwrite path ((files.get? (← files.target path)).getD [] ++ bytes)

/-! ## Laws -/

theorem lookup_cons_eq_ite (name key : String) (bytes : Bytes) (es : List (String × Bytes)) :
    ((key, bytes) :: es).lookup name = if name = key then some bytes else es.lookup name := by
  by_cases h : name = key
  · simp [h]
  · have hb : (name == key) = false := by simp [h]
    rw [List.lookup_cons, hb, if_neg h]

theorem lookup_filter_ne {other name : String} (h : other ≠ name)
    (entries : List (String × Bytes)) :
    (entries.filter (·.1 ≠ name)).lookup other = entries.lookup other := by
  induction entries with
  | nil => rfl
  | cons e es ih =>
    obtain ⟨key, bytes⟩ := e
    rw [List.filter_cons, lookup_cons_eq_ite]
    split
    · rw [lookup_cons_eq_ite, ih]
    · next hk =>
      have hk : key = name := by simpa using hk
      rw [ih, if_neg (by rw [hk]; exact h)]

@[simp] theorem get?_put_self (name : String) (bytes : Bytes) :
    (files.put name bytes).get? name = some bytes := by
  simp [put, get?]

theorem get?_put_of_ne {other name : String} (h : other ≠ name) (bytes : Bytes) :
    (files.put name bytes).get? other = files.get? other := by
  rw [put, get?, lookup_cons_eq_ite, if_neg h]
  exact lookup_filter_ne h files.entries

end Files

end GeneticProgramming
