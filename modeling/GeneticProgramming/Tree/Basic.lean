import GeneticProgramming.Palette.Basic

/-!
# Trees

A tree is written in pre-order as a list of records, one for each node, beside a stack with the
values of its literals in the same order.  `Tree.nodes` joins the two: it gives each record its own
cells.
-/

namespace GeneticProgramming

/-- A node: its operator, the bytes that the operator's values take, and its marks. -/
structure Record where
  operator : OperatorId
  size : Nat
  flags : Flags
deriving DecidableEq, Repr

namespace Record

/-- Whether the node owns a value. -/
def isLiteral (r : Record) : Bool := r.flags.ephemeral

/-- The words of the value that the node owns. -/
def words (r : Record) : Nat := if r.isLiteral then r.size / 8 else 0

end Record

/-- A record with the cells of its literal. -/
structure Node where
  record : Record
  literal : List Cell
deriving DecidableEq, Repr

structure Tree where
  records : List Record
  values : Stack
deriving DecidableEq, Repr

namespace Tree

def empty : Tree := ⟨[], .empty⟩

instance : Inhabited Tree := ⟨empty⟩

variable {C : Type} (p : Palette C) (t : Tree)

def size : Nat := t.records.length

def isEmpty : Bool := t.records.isEmpty

/-- The words of the literals among some records. -/
def literalWords (records : List Record) : Nat := (records.map Record.words).sum

/-- Gives each record its share of a run of cells. -/
def share : List Record → List Cell → List Node
  | [], _ => []
  | r :: rs, cells => ⟨r, cells.take r.words⟩ :: share rs (cells.drop r.words)

/-- The records with their literals. -/
def nodes : List Node := share t.records t.values.contents

@[simp] theorem literalWords_nil : literalWords [] = 0 := rfl

@[simp] theorem literalWords_cons (r : Record) (rs : List Record) :
    literalWords (r :: rs) = r.words + literalWords rs := by
  simp [literalWords]

@[simp] theorem literalWords_append (rs ss : List Record) :
    literalWords (rs ++ ss) = literalWords rs + literalWords ss := by
  simp [literalWords]

@[simp] theorem map_record_share (rs : List Record) (cells : List Cell) :
    (share rs cells).map Node.record = rs := by
  induction rs generalizing cells with
  | nil => rfl
  | cons r rs ih => simp [share, ih]

/-! ## Growing -/

/-- The record of a node under an operator. -/
def recordOf (e : Entry C) (id : OperatorId) : Record :=
  ⟨id, e.operator.returns.size, e.flags⟩

/-- Appends a node; the value of a literal is drawn. -/
def push (id : OperatorId) : Draw Tree := do
  let e ← demand (p.entry? id)
  let values ← match ← p.produce id with
    | some v => pure (t.values.push v.type v.content)
    | none => pure t.values
  return ⟨t.records ++ [recordOf e id], values⟩

/-- Forgets all nodes. -/
def clear : Tree := ⟨[], t.values.reset⟩

/-- A copy of a tree. -/
def duplicate : Tree := ⟨t.records, t.values.duplicate⟩

end Tree

/-! ## Errors -/

inductive TreeError where
  | byteMismatch (expected actual : Nat)
  | unbalancedArity (stop length : Nat)
  | typeMismatch (index : Nat) (expected found : TypeId)
  | literalMismatch (index : Nat) (expected : String)
  | unknownOperator (index : Nat) (id : OperatorId)
deriving DecidableEq, Repr

def TreeError.message : TreeError → String
  | .byteMismatch expected actual =>
    s!"value bytes mismatch: records describe {expected} bytes, stack holds {actual}"
  | .unbalancedArity stop length => s!"arity walk ends at {stop} but tree has {length} records"
  | .typeMismatch index expected found =>
    s!"child at {index} returns type {typeTag found} where {typeTag expected} is required"
  | .literalMismatch index expected =>
    s!"record {index} expects a literal of type " ++ "`" ++ expected ++ "`"
  | .unknownOperator index id => s!"record {index} references unknown operator {id}"

namespace Tree

/-- Appends a literal with a given value. -/
def pushLiteral {C : Type} (p : Palette C) (t : Tree) (id : OperatorId) (v : Value) :
    Except Fault (Except TreeError Tree) := do
  let e ← demand (p.entry? id)
  let record := recordOf e id
  if record.isLiteral && e.operator.returns = v.type then
    return .ok ⟨t.records ++ [record], t.values.push v.type v.content⟩
  else return .error (.literalMismatch t.size e.operator.returns.label)

end Tree

end GeneticProgramming
