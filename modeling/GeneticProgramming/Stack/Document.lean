import GeneticProgramming.Fault
import GeneticProgramming.Json.Forms
import GeneticProgramming.Stack.Basic

/-!
# Stacks in documents

The sizes of a stack, and what went wrong with one.
-/

namespace GeneticProgramming

def StackError.document (e : StackError) : Json :=
  let kind := match e with
    | .underflow _ _ => "Underflow"
    | .outOfRange _ _ _ => "OutOfRange"
  .failure "StackError" kind e.message

/-- A fault says what it knows. -/
def Fault.document (f : Fault) : Json :=
  .object (("error", .string "panic") :: match f.message with
    | some message => [("message", .string message)]
    | none => [])

def Stack.document (s : Stack) : Json := .object [
  ("size", .ofNat s.size),
  ("head", .ofNat s.headSize),
  ("empty", .bool s.isEmpty)]

end GeneticProgramming
