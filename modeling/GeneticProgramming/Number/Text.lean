import GeneticProgramming.Number.Decimal
import GeneticProgramming.Number.Double

/-!
# The text of numbers

A `Spelling` records the decisions of one output format: how a tie between two shortest decimals is
broken, which places of the point are written without a power of ten, and whether a positive
exponent has a sign.
-/

namespace GeneticProgramming

structure Spelling where
  tie : Tie
  /-- The least place of the point that is written positionally. -/
  least : Int
  /-- The greatest place of the point that is written positionally. -/
  greatest : Int
  /-- Whether a positive exponent has a sign. -/
  signed : Bool
deriving Repr

namespace Spelling

/-- In expressions a number from a ten-thousandth up to `10 ^ 16` is written positionally. -/
def expression : Spelling := ⟨.up, -3, 16, false⟩

/-- In documents a number from a hundred-thousandth up to `10 ^ 16` is written positionally, and any
exponent has a sign. -/
def document : Spelling := ⟨.even, -4, 16, true⟩

/-- The shortest text of a finite word of a layout. -/
def finite (s : Spelling) (l : Layout) (bits : Nat) : String :=
  let sign := if l.isNegative bits then "-" else ""
  if l.magnitude bits = 0 then sign ++ "0.0"
  else
    let narrow := l.magnitude bits % 2 ^ l.fraction = 0 && 1 < l.exponentField bits
    let (digits, point) := ((Interval.around (l.mantissa bits) (l.scale bits) narrow).shortest
      s.tie).spread
    let body := if s.least ≤ point && point ≤ s.greatest then Decimal.positional digits point
      else Decimal.scientific s.signed digits point
    sign ++ String.ofList body

/-- The text of a word of a layout, with names for what is no finite number. -/
def word (s : Spelling) (l : Layout) (bits : Nat) : String :=
  if l.isNaN bits then "NaN"
  else if l.isFinite bits then s.finite l bits
  else if l.isNegative bits then "-inf" else "inf"

end Spelling

/-- The text of a single in an expression. -/
def Single.text (x : Single) : String := Spelling.expression.word .single x.bits.toNat

/-- The text of a double in an expression. -/
def Double.text (x : Double) : String := Spelling.expression.word .double x.bits.toNat

/-- The text of a double in a document; what is no finite number has none. -/
def Double.documentText (x : Double) : Option String :=
  if x.isFinite then some (Spelling.document.finite .double x.bits.toNat) else none

/-- The text of a double with a fixed number of places. -/
def Double.fixedText (x : Double) (places : Nat) : String :=
  let bits := x.bits.toNat
  if x.isNaN then "NaN"
  else
    let sign := if x.isNegative then "-" else ""
    if x.isFinite then
      sign ++ String.ofList
        (Decimal.fixed places (Layout.double.mantissa bits) (Layout.double.scale bits))
    else sign ++ "inf"

end GeneticProgramming
