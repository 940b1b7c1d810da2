import GeneticProgramming.Number.Naturals
import GeneticProgramming.Stack.Error

/-!
# Faults

A fault ends a computation because its caller broke a promise, such as asking for a node that a tree
does not have.  It is kept apart from the errors of the domain, which callers are meant to handle.
-/

namespace GeneticProgramming

inductive Fault where
  /-- An operator found something else on the stack than its arguments. -/
  | brokenStack (cause : StackError)
  /-- An index lies past the end. -/
  | missingIndex
  /-- A probability is no number between zero and one. -/
  | badProbability
  /-- A range of numbers to draw from is empty, or has no finite width. -/
  | badRange
  /-- A count does not fit what has to hold it. -/
  | overflow
  /-- Two trees of different palettes are to be put together. -/
  | foreignTree
deriving DecidableEq, Repr

/-- What is known about a fault, where something is. -/
def Fault.message : Fault → Option String
  | .brokenStack cause => some s!"evaluation stack invariant violated: {cause.message}"
  | _ => none

/-- Reads an element that has to be there. -/
def demand {α : Type u} : Option α → Except Fault α
  | some a => .ok a
  | none => .error .missingIndex

@[simp] theorem demand_some {α : Type u} (a : α) : demand (some a) = .ok a := rfl
@[simp] theorem demand_none {α : Type u} : demand (none : Option α) = .error .missingIndex := rfl

/-- A count that has to fit a machine word. -/
def demandWord (n : Nat) : Except Fault Nat := if n < 2 ^ 64 then .ok n else .error .overflow

/-- A number of bytes that have to fit one block of memory.  A block of more than 2^63 - 1 bytes
cannot be asked for; a smaller one is taken to be available, however large it is. -/
def demandBlock (bytes : Nat) : Except Fault Nat :=
  if bytes < 2 ^ 63 then .ok bytes else .error .overflow

theorem demandWord_of_lt {n : Nat} (h : n < 2 ^ 64) : demandWord n = .ok n := if_pos h
theorem demandBlock_of_lt {n : Nat} (h : n < 2 ^ 63) : demandBlock n = .ok n := if_pos h

/-- Goes on from a request to a stack that has to be served. -/
def trust {α : Type u} : Except StackError α → Except Fault α
  | .ok a => .ok a
  | .error e => .error (.brokenStack e)

@[simp] theorem trust_ok {α : Type u} (a : α) : trust (.ok a) = .ok a := rfl
@[simp] theorem trust_error {α : Type u} (e : StackError) :
    trust (.error e : Except StackError α) = .error (.brokenStack e) := rfl

end GeneticProgramming
