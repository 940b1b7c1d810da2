/-!
# Stack errors

What a stack answers to a request that it cannot serve, in bytes.
-/

namespace GeneticProgramming

inductive StackError where
  /-- More bytes were asked for than there are. -/
  | underflow (requested available : Nat)
  /-- A range of bytes leaves the stack, or straddles two pages. -/
  | outOfRange (offset size total : Nat)
deriving DecidableEq, Repr

def StackError.message : StackError → String
  | .underflow requested available =>
    s!"stack underflow: requested {requested} bytes, {available} available"
  | .outOfRange offset size total =>
    s!"stack access out of range: offset {offset} + {size} bytes exceeds {total}"

end GeneticProgramming
