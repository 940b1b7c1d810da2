import GeneticProgramming.Random.Draw
import GeneticProgramming.Stack.Basic
import GeneticProgramming.Text.Quoted

/-!
# Operators

An operator takes values of fixed types and returns one value.  It computes from its arguments
alone, or also consults a context, or is a literal: its value is drawn when a node is made and
belongs to that node from then on.
-/

namespace GeneticProgramming

/-- The values of an argument list. -/
@[reducible] def Arguments : List ValueType → Type
  | [] => Unit
  | t :: ts => t.Carrier × Arguments ts

/-- How an operator comes by its value. -/
inductive Rule (C : Type) where
  | compute (arguments : List ValueType) (returns : ValueType)
      (run : Arguments arguments → returns.Carrier)
  | consult (arguments : List ValueType) (returns : ValueType)
      (run : C → Arguments arguments → returns.Carrier)
  | literal (returns : ValueType) (draw : Draw returns.Carrier)

structure Operator (C : Type) where
  name : Option String
  rule : Rule C

namespace Operator

variable {C : Type} (op : Operator C)

def arguments : List ValueType :=
  match op.rule with
  | .compute arguments _ _ => arguments
  | .consult arguments _ _ => arguments
  | .literal _ _ => []

def returns : ValueType :=
  match op.rule with
  | .compute _ returns _ => returns
  | .consult _ returns _ => returns
  | .literal returns _ => returns

def arity : Nat := op.arguments.length

def consultsContext : Bool :=
  match op.rule with
  | .consult _ _ _ => true
  | _ => false

def isLiteral : Bool :=
  match op.rule with
  | .literal _ _ => true
  | _ => false

/-- The bytes of all arguments. -/
def argumentSize : Nat := (op.arguments.map ValueType.size).sum

def describe : String :=
  let flag (b : Bool) := if b then "true" else "false"
  s!"Operator \x7b name: {Text.quotedOption op.name}, argc: {op.arity}, " ++
    s!"returns: {Text.quoted op.returns.label}, uses_context: {flag op.consultsContext}, " ++
    s!"ephemeral: {flag op.isLiteral} \x7d"

/-- Reads argument values from the stack, the first one on top. -/
def readArguments (s : Stack) : (ts : List ValueType) → Nat → Except StackError (Arguments ts)
  | [], _ => .ok ()
  | t :: ts, offset => do
    let x ← s.valueAt t offset
    let xs ← readArguments s ts (offset + t.size)
    return (x, xs)

def replaceArguments (s : Stack) (arguments : List ValueType) (returns : ValueType)
    (run : Arguments arguments → returns.Carrier) : Except StackError Stack := do
  let xs ← readArguments s arguments 0
  let rest ← s.drop (arguments.map ValueType.words).sum
  return rest.push returns (run xs)

/-- Replaces the arguments on the stack by the value; a literal has nothing to compute. -/
def invoke? (context : C) (s : Stack) : Option (Except StackError Stack) :=
  match op.rule with
  | .compute arguments returns run => some (replaceArguments s arguments returns run)
  | .consult arguments returns run => some (replaceArguments s arguments returns (run context))
  | .literal _ _ => none

/-- The value of a fresh literal. -/
def produce? : Option (Draw Value) :=
  match op.rule with
  | .literal returns draw => some (Value.mk returns <$> draw)
  | _ => none

end Operator

end GeneticProgramming
