import GeneticProgramming.Number.Naturals

/-!
# Binary floating-point layouts

A floating-point word is read as a natural number: its sign bit, a field of exponent bits and a
field of fraction bits.  Order and classification need no arithmetic beyond comparing such numbers,
and a finite word stands for `mantissa * 2 ^ scale`.
-/

namespace GeneticProgramming

/-- The widths of the fraction and exponent fields. -/
structure Layout where
  fraction : Nat
  exponent : Nat
deriving DecidableEq, Repr

namespace Layout

def single : Layout := ⟨23, 8⟩

def double : Layout := ⟨52, 11⟩

variable (l : Layout)

/-- The value of the sign bit. -/
def signBit : Nat := 2 ^ (l.fraction + l.exponent)

/-- The word of positive infinity. -/
def infinity : Nat := (2 ^ l.exponent - 1) * 2 ^ l.fraction

/-- The word without its sign. -/
def magnitude (bits : Nat) : Nat := bits % l.signBit

def isNegative (bits : Nat) : Bool := l.signBit ≤ bits

def isNaN (bits : Nat) : Bool := l.infinity < l.magnitude bits

def isFinite (bits : Nat) : Bool := l.magnitude bits < l.infinity

/-- Where a word that is no NaN stands on the number line; both zeros stand at zero. -/
def position (bits : Nat) : Int :=
  if l.isNegative bits then -(l.magnitude bits : Int) else l.magnitude bits

/-- The place of a word in the total order of IEEE 754: negative zero comes just below zero, and
NaNs lie beyond the infinities on the side of their sign. -/
def rank (bits : Nat) : Int :=
  if l.isNegative bits then -(l.magnitude bits : Int) - 1 else l.magnitude bits

/-- The exponent field. -/
def exponentField (bits : Nat) : Nat := l.magnitude bits / 2 ^ l.fraction

/-- The significand of a finite word as an integer, the hidden bit included. -/
def mantissa (bits : Nat) : Nat :=
  let low := l.magnitude bits % 2 ^ l.fraction
  if l.exponentField bits = 0 then low else 2 ^ l.fraction + low

/-- The power of two that scales the mantissa of a finite word. -/
def scale (bits : Nat) : Int :=
  (max (l.exponentField bits) 1 : Nat) - (2 ^ (l.exponent - 1) - 1 + l.fraction : Nat)

end Layout

end GeneticProgramming
