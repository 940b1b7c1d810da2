import GeneticProgramming.Number.Naturals

/-!
# Decimal digits of binary numbers

The shortest decimal that reads back is found by testing, for one digit, two digits and so on, the
two neighbours of the number on the grid of decimals with that many digits; fixed places are one
exact division.  Everything is exact arithmetic on natural numbers.
-/

namespace GeneticProgramming

/-- The number `digits * 10 ^ exponent`. -/
structure Decimal where
  digits : Nat
  exponent : Int
deriving DecidableEq, Repr

/-- Where a number goes that lies midway between two decimals. -/
inductive Tie where
  | up
  | even
deriving DecidableEq, Repr

/-- A number `value * 2 ^ unit` with the ends of the interval of reals that round to it. -/
structure Interval where
  low : Nat
  value : Nat
  high : Nat
  unit : Int
  closed : Bool
deriving DecidableEq, Repr

namespace Interval

/-- The interval of `mantissa * 2 ^ scale`; below a power of two the gap may be half as wide. -/
def around (mantissa : Nat) (scale : Int) (narrow : Bool) : Interval where
  low := if narrow then 4 * mantissa - 1 else 4 * mantissa - 2
  value := 4 * mantissa
  high := 4 * mantissa + 2
  unit := scale - 2
  closed := mantissa % 2 = 0

variable (i : Interval)

/-- Multiplier of a decimal `d * 10 ^ k` when it is compared with a multiple of the unit. -/
def decimalSide (k : Int) : Nat := 10 ^ k.toNat * 2 ^ (-i.unit).toNat

/-- Multiplier of a multiple of the unit when it is compared with a decimal `d * 10 ^ k`. -/
def binarySide (k : Int) : Nat := 2 ^ i.unit.toNat * 10 ^ (-k).toNat

def contains (k : Int) (d : Nat) : Bool :=
  let x := d * i.decimalSide k
  if i.closed then i.low * i.binarySide k ≤ x && x ≤ i.high * i.binarySide k
  else i.low * i.binarySide k < x && x < i.high * i.binarySide k

/-- The decimal on the grid of step `10 ^ k` that reads back and lies nearest, if there is one. -/
def onGrid (tie : Tie) (k : Int) : Option Decimal :=
  let d := i.value * i.binarySide k / i.decimalSide k
  match i.contains k d, i.contains k (d + 1) with
  | false, false => none
  | true, false => some ⟨d, k⟩
  | false, true => some ⟨d + 1, k⟩
  | true, true =>
    let middle := (2 * d + 1) * i.decimalSide k
    let here := 2 * i.value * i.binarySide k
    if here < middle then some ⟨d, k⟩
    else if middle < here then some ⟨d + 1, k⟩
    else match tie with
      | .up => some ⟨d + 1, k⟩
      | .even => some ⟨d + d % 2, k⟩

/-- The exponent of the leading decimal digit. -/
def leading : Int :=
  let guess := ((Nat.log2 i.value + i.unit) * 30103).fdiv 100000
  if i.decimalSide (guess + 1) ≤ i.value * i.binarySide (guess + 1) then guess + 1 else guess

/-- The decimal with the fewest digits that reads back; seventeen digits always suffice for the
layouts in use. -/
def shortest (tie : Tie) : Decimal :=
  let found := (List.range 17).findSome? fun (n : Nat) => i.onGrid tie (i.leading - n)
  found.getD ⟨i.value * 2 ^ i.unit.toNat, 0⟩

end Interval

namespace Decimal

/-- The digits without trailing zeros, and the place of the point: `0.ddd * 10 ^ point`. -/
def spread (d : Decimal) : List Char × Int :=
  let all := Nat.toDigits 10 d.digits
  let trimmed := (all.reverse.dropWhile (· == '0')).reverse
  (trimmed, d.exponent + all.length)

/-- Digits around a point, with at least one on either side. -/
def positional (digits : List Char) (point : Int) : List Char :=
  if point ≤ 0 then '0' :: '.' :: (List.replicate (-point).toNat '0' ++ digits)
  else
    let whole := digits.take point.toNat
    let pad := List.replicate (point.toNat - whole.length) '0'
    let rest := digits.drop point.toNat
    whole ++ pad ++ '.' :: (if rest.isEmpty then ['0'] else rest)

/-- One digit before the point, and a power of ten; a positive exponent may have a sign too. -/
def scientific (signed : Bool) (digits : List Char) (point : Int) : List Char :=
  let mantissa := match digits with
    | [] => ['0']
    | [d] => [d]
    | d :: rest => d :: '.' :: rest
  let sign := if signed && 1 < point then ['+'] else []
  mantissa ++ 'e' :: (sign ++ (toString (point - 1)).toList)

/-- A division rounded to the nearest integer, a half to the even one. -/
def roundDiv (num den : Nat) : Nat :=
  let q := num / den
  let twice := 2 * (num % den)
  if twice < den then q else if den < twice then q + 1 else q + q % 2

/-- `mantissa * 2 ^ scale` with a fixed number of places, one at least. -/
def fixed (places mantissa : Nat) (scale : Int) : List Char :=
  let n := roundDiv (mantissa * 10 ^ places * 2 ^ scale.toNat) (2 ^ (-scale).toNat)
  let digits := Nat.toDigits 10 n
  let padded := List.replicate (places + 1 - digits.length) '0' ++ digits
  let whole := padded.take (padded.length - places)
  whole ++ '.' :: padded.drop (padded.length - places)

end Decimal

end GeneticProgramming
