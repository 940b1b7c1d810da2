/-!
# Hexadecimal text

Numbers and bytes in hexadecimal digits.  Written digits are lower case; both cases are read.
-/

namespace GeneticProgramming.Text

/-- The digits of a number, filled up with zeros to a width. -/
def hexNat (width n : Nat) : String :=
  let digits := Nat.toDigits 16 n
  String.ofList (List.replicate (width - digits.length) '0' ++ digits)

/-- Two digits for each byte. -/
def hexBytes (bytes : List UInt8) : String := bytes.foldl (fun s b => s ++ hexNat 2 b.toNat) ""

def hexDigit? (c : Char) : Option Nat :=
  if c.isDigit then some (c.toNat - '0'.toNat)
  else if 'a' ≤ c && c ≤ 'f' then some (c.toNat - 'a'.toNat + 10)
  else if 'A' ≤ c && c ≤ 'F' then some (c.toNat - 'A'.toNat + 10)
  else none

/-- The number that some digits spell. -/
def readHexNat (digits : List Char) : Option Nat :=
  if digits.isEmpty then none
  else digits.foldlM (fun n c => do return n * 16 + (← hexDigit? c)) 0

private def readPairs : List Char → Option (List UInt8)
  | [] => some []
  | [_] => none
  | a :: b :: rest => do
    return UInt8.ofNat (16 * (← hexDigit? a) + (← hexDigit? b)) :: (← readPairs rest)

/-- The bytes that pairs of digits spell. -/
def readHexBytes (s : String) : Option (List UInt8) := readPairs s.toList

end GeneticProgramming.Text
