import GeneticProgramming.Json.Basic

/-!
# Reading JSON

A reader over the characters of a text.  Each value, element and member takes one unit of fuel.  A
character that opens a value pays for two of them at most, so twice the number of characters is
enough.  Half of a surrogate pair spells no character, but the text around it is read on.
-/

namespace GeneticProgramming

namespace Json

/-- Skips blanks. -/
def skipBlanks : List Char → List Char
  | c :: cs => if c = ' ' || c = '\n' || c = '\t' || c = '\r' then skipBlanks cs else c :: cs
  | [] => []

private def digitValue (c : Char) : Nat := c.toNat - '0'.toNat

/-- The digits at the front. -/
private def readDigits (s : List Char) : List Nat × List Char :=
  ((s.takeWhile Char.isDigit).map digitValue, s.dropWhile Char.isDigit)

/-- Digits that have to be there. -/
private def readSomeDigits (s : List Char) : Option (List Nat × List Char) :=
  match readDigits s with
  | ([], _) => none
  | found => some found

private def readFraction : List Char → Option (Option (List Nat) × List Char)
  | '.' :: cs => (readSomeDigits cs).map fun (ds, rest) => (some ds, rest)
  | cs => some (none, cs)

private def readSign : List Char → Bool × List Char
  | '-' :: cs => (true, cs)
  | '+' :: cs => (false, cs)
  | cs => (false, cs)

private def readExponent : List Char → Option (Option (Bool × List Nat) × List Char)
  | c :: cs =>
    if c = 'e' || c = 'E' then
      let (negative, cs) := readSign cs
      (readSomeDigits cs).map fun (ds, rest) => (some (negative, ds), rest)
    else some (none, c :: cs)
  | [] => some (none, [])

/-- A number; a leading zero stands alone before the point. -/
private def readNumber (s : List Char) : Option (Json × List Char) := do
  let (negative, s) := match s with
    | '-' :: cs => (true, cs)
    | cs => (false, cs)
  let (whole, s) ← readSomeDigits s
  if whole.head? = some 0 && 1 < whole.length then none
  let (fraction, s) ← readFraction s
  let (exponent, s) ← readExponent s
  return (.number ⟨negative, whole, fraction, exponent⟩, s)

private def hexValue (c : Char) : Option Nat :=
  if c.isDigit then some (digitValue c)
  else if 'a' ≤ c && c ≤ 'f' then some (c.toNat - 'a'.toNat + 10)
  else if 'A' ≤ c && c ≤ 'F' then some (c.toNat - 'A'.toNat + 10)
  else none

/-- Four hexadecimal digits. -/
private def readEscapedUnit : List Char → Option (Nat × List Char)
  | a :: b :: c :: d :: rest => do
    let value := 4096 * (← hexValue a) + 256 * (← hexValue b) + 16 * (← hexValue c) + (← hexValue d)
    return (value, rest)
  | _ => none

private def isHighHalf (unit : Nat) : Bool := 0xD800 ≤ unit && unit ≤ 0xDBFF

private def isLowHalf (unit : Nat) : Bool := 0xDC00 ≤ unit && unit ≤ 0xDFFF

/-- The lower half of a surrogate pair, if it comes next. -/
private def readLowHalf : List Char → Option (Nat × List Char)
  | '\\' :: 'u' :: rest => (readEscapedUnit rest).filter fun (low, _) => isLowHalf low
  | _ => none

/-- The character of a code unit, or of a surrogate pair; half of a pair has none. -/
private def readUnit (s : List Char) : Option (Option Char × List Char) := do
  let (unit, rest) ← readEscapedUnit s
  if isLowHalf unit then return (none, rest)
  else if isHighHalf unit then
    match readLowHalf rest with
    | some (low, rest) =>
      return (some (Char.ofNat (0x10000 + (unit - 0xD800) * 0x400 + (low - 0xDC00))), rest)
    | none => return (none, rest)
  else return (some (Char.ofNat unit), rest)

private def escaped : Char → Option Char
  | '"' => some '"'
  | '\\' => some '\\'
  | '/' => some '/'
  | 'b' => some '\x08'
  | 'f' => some '\x0c'
  | 'n' => some '\n'
  | 'r' => some '\r'
  | 't' => some '\t'
  | _ => none

/-- The rest of a string after its opening quote, given its characters so far, the newest first; a
string with half of a surrogate pair has none. -/
private def readText : Nat → Option (List Char) → List Char → Option (Option String × List Char)
  | 0, _, _ => none
  | fuel + 1, done, s =>
    match s with
    | '"' :: rest => some (done.map fun cs => String.ofList cs.reverse, rest)
    | '\\' :: 'u' :: rest => do
      let (c, rest) ← readUnit rest
      readText fuel (do return (← c) :: (← done)) rest
    | '\\' :: c :: rest => do
      let c ← escaped c
      readText fuel (done.map (c :: ·)) rest
    | c :: rest => if c.toNat < 0x20 then none else readText fuel (done.map (c :: ·)) rest
    | [] => none

private def ofText : Option String → Json
  | some s => .string s
  | none => .garbled

private def ofMembers : Option (List (String × Json)) → Json
  | some members => .object members.reverse
  | none => .garbled

private def readWord (word : List Char) (value : Json) (s : List Char) :
    Option (Json × List Char) :=
  if s.take word.length = word then some (value, s.drop word.length) else none

mutual

private def readValue : Nat → List Char → Option (Json × List Char)
  | 0, _ => none
  | fuel + 1, s =>
    match skipBlanks s with
    | '"' :: rest =>
      (readText (fuel + 1) (some []) rest).map fun (text, rest) => (ofText text, rest)
    | '[' :: rest =>
      match skipBlanks rest with
      | ']' :: rest => some (.array [], rest)
      | rest => readElements fuel [] rest
    | '\x7b' :: rest =>
      match skipBlanks rest with
      | '\x7d' :: rest => some (.object [], rest)
      | rest => readMembers fuel (some []) rest
    | 'n' :: rest => readWord "null".toList .null ('n' :: rest)
    | 't' :: rest => readWord "true".toList (.bool true) ('t' :: rest)
    | 'f' :: rest => readWord "false".toList (.bool false) ('f' :: rest)
    | rest => readNumber rest

private def readElements : Nat → List Json → List Char → Option (Json × List Char)
  | 0, _, _ => none
  | fuel + 1, done, s => do
    let (value, rest) ← readValue fuel s
    match skipBlanks rest with
    | ',' :: rest => readElements fuel (value :: done) rest
    | ']' :: rest => some (.array (value :: done).reverse, rest)
    | _ => none

private def readMembers :
    Nat → Option (List (String × Json)) → List Char → Option (Json × List Char)
  | 0, _, _ => none
  | fuel + 1, done, s =>
    match skipBlanks s with
    | '"' :: rest => do
      let (name, rest) ← readText (fuel + 1) (some []) rest
      match skipBlanks rest with
      | ':' :: rest =>
        let (value, rest) ← readValue fuel rest
        let done : Option (List (String × Json)) := do return (← name, value) :: (← done)
        match skipBlanks rest with
        | ',' :: rest => readMembers fuel done rest
        | '\x7d' :: rest => some (ofMembers done, rest)
        | _ => none
      | _ => none
    | _ => none

end

/-- A whole text, with blanks around its value. -/
def read (text : String) : Option Json :=
  let s := text.toList
  match readValue (2 * s.length + 2) s with
  | some (value, rest) => if (skipBlanks rest).isEmpty then some value else none
  | none => none

end Json

end GeneticProgramming
