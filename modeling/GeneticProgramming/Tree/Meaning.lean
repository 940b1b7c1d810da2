import GeneticProgramming.Tree.Basic

/-!
# Meanings

A well-typed tree means a function from contexts to values of its type.  A literal means its stored
value; any other node means what its operator makes of the context and of the values of its
arguments.  The types are compared once for the tree, not once for each context.
-/

namespace GeneticProgramming

/-- A value of a type for each context. -/
structure Meaning (C : Type) where
  type : ValueType
  value : C → type.Carrier

namespace Meaning

variable {C : Type}

/-- The function of a meaning, if it is one into the given type. -/
def as? (m : Meaning C) (t : ValueType) : Option (C → t.Carrier) :=
  if h : m.type = t then some (h ▸ m.value) else none

/-- The arguments of the given types, the first one first, and the meanings behind them. -/
def arguments? : (ts : List ValueType) → List (Meaning C) →
    Option ((C → Arguments ts) × List (Meaning C))
  | [], ms => some (fun _ => (), ms)
  | _ :: _, [] => none
  | t :: ts, m :: ms => do
    let x ← m.as? t
    let (xs, ms) ← arguments? ts ms
    return (fun c => (x c, xs c), ms)

/-- Replaces the meanings of the arguments by that of a node over them. -/
def over? (op : Operator C) (ms : List (Meaning C)) : Option (List (Meaning C)) :=
  match op.rule with
  | .compute arguments returns run => do
    let (xs, ms) ← arguments? arguments ms
    return ⟨returns, fun c => run (xs c)⟩ :: ms
  | .consult arguments returns run => do
    let (xs, ms) ← arguments? arguments ms
    return ⟨returns, fun c => run c (xs c)⟩ :: ms
  | .literal _ _ => none

/-- The meanings of the trees that follow each other in a list of nodes. -/
def ofNodes? (p : Palette C) : List Node → Option (List (Meaning C))
  | [] => some []
  | n :: ns => do
    let ms ← ofNodes? p ns
    let e ← p.entry? n.record.operator
    if n.record ≠ Tree.recordOf e n.record.operator || n.literal.length ≠ n.record.words then none
    else if n.record.isLiteral then
      let x := e.operator.returns.load n.literal
      return ⟨e.operator.returns, fun _ => x⟩ :: ms
    else over? e.operator ms

end Meaning

/-- The meaning of a tree, if it is complete and well-typed. -/
def Tree.meaning? {C : Type} (p : Palette C) (t : Tree) : Option (Meaning C) := do
  if t.values.words ≠ literalWords t.records then none
  else match ← Meaning.ofNodes? p t.nodes with
    | [m] => some m
    | _ => none

end GeneticProgramming
