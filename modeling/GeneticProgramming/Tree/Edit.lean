import GeneticProgramming.Tree.Walk

/-!
# Editing trees

Every edit replaces a range of records, and with it the cells of the literals among them.
-/

namespace GeneticProgramming

namespace Tree

variable {C : Type} (p : Palette C) (t : Tree)

/-- The records of a range. -/
def recordsIn (start stop : Nat) : List Record := (t.records.take stop).drop start

/-- The words of the literals before an index. -/
def wordsBefore (i : Nat) : Nat := literalWords (t.records.take i)

/-- A range of records has to lie within the tree. -/
def checkRange (start stop : Nat) : Except Fault Unit :=
  if start ≤ stop && stop ≤ t.size then .ok () else .error .missingIndex

/-- The cells of the literals in a range. -/
def cellsIn (start stop : Nat) : Except Fault (List Cell) := do
  t.checkRange start stop
  trust (t.values.copyRun (t.wordsBefore start) (literalWords (t.recordsIn start stop)))

/-- Replaces a range of records and the cells of its literals. -/
def splice (start stop : Nat) (records : List Record) (cells : List Cell) : Except Fault Tree := do
  t.checkRange start stop
  let (result, values) :=
    t.values.splice (t.wordsBefore start) (literalWords (t.recordsIn start stop)) cells
  trust result
  return ⟨t.records.take start ++ records ++ t.records.drop stop, values⟩

/-- The subtree at the root. -/
def whole : Except Fault Subtree := t.subtree p 0

/-- Appends a subtree of `t` to another tree. -/
def copySubtree (s : Subtree) (out : Tree) : Except Fault Tree := do
  let cells ← t.cellsIn s.start s.stop
  return ⟨out.records ++ t.recordsIn s.start s.stop, out.values.pushRun cells⟩

def extractSubtree (s : Subtree) : Except Fault Tree := t.copySubtree s .empty

def deleteSubtree (s : Subtree) : Except Fault Tree := t.splice s.start s.stop [] []

/-- Inserts all of another tree before the record at an index. -/
def insertTree (i : Nat) (other : Tree) : Except Fault Tree :=
  t.splice i i other.records other.values.contents

/-- Replaces a subtree by a range of records of another tree. -/
def replaceByRange (s : Subtree) (other : Tree) (start stop : Nat) : Except Fault Tree := do
  let cells ← other.cellsIn start stop
  t.splice s.start s.stop (other.recordsIn start stop) cells

/-- Replaces a subtree by all of another tree. -/
def replaceSubtree (s : Subtree) (other : Tree) : Except Fault Tree :=
  t.replaceByRange s other 0 other.size

/-- Exchanges a subtree of one tree with a subtree of another. -/
def swapSubtrees (a : Subtree) (other : Tree) (b : Subtree) : Except Fault (Tree × Tree) := do
  let here ← t.cellsIn a.start a.stop
  let there ← other.cellsIn b.start b.stop
  let left ← t.splice a.start a.stop (other.recordsIn b.start b.stop) there
  let right ← other.splice b.start b.stop (t.recordsIn a.start a.stop) here
  return (left, right)

/-- Puts another operator in the place of one node; the value of a literal is drawn. -/
def modify (i : Nat) (id : OperatorId) : Draw Tree := do
  let e ← demand (p.entry? id)
  let cells := ((← p.produce id).map Value.cells).getD []
  t.splice i (i + 1) [recordOf e id] cells

end Tree

end GeneticProgramming
