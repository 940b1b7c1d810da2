/-!
# Paths

A path is a text of names between slashes.  It is followed name by name, from the root if it begins
with a slash and from the working directory if not: one dot stays where it is and two dots go back.
-/

namespace GeneticProgramming

/-- The names of a path; empty ones do not count. -/
def pathNames (path : String) : List String := (path.splitOn "/").filter (· ≠ "")

/-- The last name of a path; there is none where the path goes back at its end. -/
def lastName? (path : String) : Option String :=
  ((pathNames path).filter (· ≠ ".")).getLast?.filter (· ≠ "..")

/-- A place among directories: the names that lead there, the last one first.  Two dots stay among
them where there is nothing to go back from. -/
structure Location where
  fromRoot : Bool
  names : List String
deriving DecidableEq, Repr

namespace Location

/-- Where a path starts. -/
def start (path : String) : Location := ⟨path.startsWith "/", []⟩

/-- The directory above; the root lies above itself. -/
def up (l : Location) : Location :=
  match l.names with
  | [] => if l.fromRoot then l else { l with names := [".."] }
  | name :: rest => if name = ".." then { l with names := ".." :: name :: rest }
    else { l with names := rest }

/-- Follows one name. -/
def step (l : Location) (name : String) : Location :=
  if name = "." then l
  else if name = ".." then l.up
  else { l with names := name :: l.names }

/-- The location of a path, whatever its names lead to. -/
def ofPath (path : String) : Location := (pathNames path).foldl step (start path)

/-- The shortest path of a location; that of the working directory is empty. -/
def path (l : Location) : String :=
  (if l.fromRoot then "/" else "") ++ String.intercalate "/" l.names.reverse

/-- Whether a path starts here, or further down. -/
def isOutermost (l : Location) : Bool := l.names.all (· = "..")

@[simp] theorem step_dot (l : Location) : l.step "." = l := rfl

theorem up_step {l : Location} {name : String} (h : name ≠ ".") (hh : name ≠ "..") :
    (l.step name).up = l := by
  simp [step, up, h, hh]

end Location

end GeneticProgramming
