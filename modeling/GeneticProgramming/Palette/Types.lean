import GeneticProgramming.Value.Type

/-!
# Type tables

The types of a palette are numbered in the order of their first appearance.
-/

namespace GeneticProgramming

abbrev TypeId := Nat

abbrev OperatorId := Nat

/-- How the number of a type is written in messages. -/
def typeTag (id : TypeId) : String := s!"type#{id}"

/-- How the number of an operator is written where it has no name. -/
def operatorTag (id : OperatorId) : String := s!"op#{id}"

structure TypeTable where
  types : List ValueType
deriving DecidableEq, Repr

namespace TypeTable

def empty : TypeTable := ⟨[]⟩

variable (table : TypeTable)

def count : Nat := table.types.length

def type? (id : TypeId) : Option ValueType := table.types[id]?

def find? (t : ValueType) : Option TypeId := table.types.idxOf? t

/-- The number of a type, which is a new one if the table lacks the type. -/
def register (t : ValueType) : TypeId × TypeTable :=
  match table.find? t with
  | some id => (id, table)
  | none => (table.count, ⟨table.types ++ [t]⟩)

/-- Registers types from left to right. -/
def registerAll : TypeTable → List ValueType → List TypeId × TypeTable
  | table, [] => ([], table)
  | table, t :: ts =>
    let (id, next) := table.register t
    let (ids, last) := registerAll next ts
    (id :: ids, last)

theorem type?_register (t : ValueType) :
    (table.register t).2.type? (table.register t).1 = some t := by
  unfold register
  split
  · next id h =>
    obtain ⟨hlt, heq, _⟩ := List.findIdx?_eq_some_iff_getElem.1 (by
      rw [find?, List.idxOf?] at h; exact h)
    simp only [type?, List.getElem?_eq_getElem hlt]
    simpa using heq
  · simp [type?, count]

end TypeTable

end GeneticProgramming
