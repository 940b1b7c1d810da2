import GeneticProgramming.Json.Reader
import GeneticProgramming.Number.Text

/-!
# Writing JSON

A document is written on one line without blanks, or over many lines where each level is indented by
two blanks.  A number is written with the digits that it keeps.
-/

namespace GeneticProgramming

namespace Json

/-- The shortest number that reads back as a double; what is not finite is null. -/
def ofDouble (x : Double) : Json := (x.documentText.bind read).getD .null

private def digitChars (ds : List Nat) : List Char := ds.map Nat.digitChar

/-- The digits of a number as they were written; an exponent has a sign. -/
def Number.text (n : Number) : String :=
  let sign := if n.negative then ['-'] else []
  let fraction := match n.fraction with
    | some ds => '.' :: digitChars ds
    | none => []
  let exponent := match n.exponent with
    | some (true, ds) => 'e' :: '-' :: digitChars ds
    | some (false, ds) => 'e' :: '+' :: digitChars ds
    | none => []
  String.ofList (sign ++ digitChars n.whole ++ fraction ++ exponent)

def ofNat (n : Nat) : Json :=
  .number ⟨false, (Nat.toDigits 10 n).map fun c => c.toNat - '0'.toNat, none, none⟩

def ofInt (n : Int) : Json :=
  match ofNat n.natAbs with
  | .number digits => .number { digits with negative := n < 0 }
  | other => other

/-- How one character is written in a string. -/
def escapeChar (c : Char) : List Char :=
  if c = '"' then ['\\', '"']
  else if c = '\\' then ['\\', '\\']
  else if c = '\n' then ['\\', 'n']
  else if c = '\r' then ['\\', 'r']
  else if c = '\t' then ['\\', 't']
  else if c = '\x08' then ['\\', 'b']
  else if c = '\x0c' then ['\\', 'f']
  else if c.toNat < 0x20 then
    ['\\', 'u', '0', '0', Nat.digitChar (c.toNat / 16), Nat.digitChar (c.toNat % 16)]
  else [c]

def quote (s : String) : String := String.ofList ('"' :: (s.toList.flatMap escapeChar ++ ['"']))

/-- The text of a value that holds no others, or of an empty one; what is no value is null. -/
def leafText : Json → String
  | .null => "null"
  | .bool b => if b then "true" else "false"
  | .number n => n.text
  | .string s => quote s
  | .array _ => "[]"
  | .object _ => "\x7b\x7d"
  | .garbled => "null"

/-- A line break and the blanks before a value of a level. -/
private def newLine (level : Nat) : String := String.ofList ('\n' :: List.replicate (2 * level) ' ')

mutual

/-- Appends a document over many lines, from a level on. -/
def prettyOnto (level : Nat) (out : String) : Json → String
  | .array (x :: xs) =>
    prettyElements (level + 1) (prettyOnto (level + 1) (out ++ "[" ++ newLine (level + 1)) x) xs ++
      newLine level ++ "]"
  | .object ((name, x) :: xs) =>
    prettyMembers (level + 1)
      (prettyOnto (level + 1) (out ++ "\x7b" ++ newLine (level + 1) ++ quote name ++ ": ") x) xs ++
      newLine level ++ "\x7d"
  | leaf => out ++ leafText leaf

private def prettyElements (level : Nat) (out : String) : List Json → String
  | [] => out
  | x :: xs => prettyElements level (prettyOnto level (out ++ "," ++ newLine level) x) xs

private def prettyMembers (level : Nat) (out : String) : List (String × Json) → String
  | [] => out
  | (name, x) :: xs =>
    prettyMembers level
      (prettyOnto level (out ++ "," ++ newLine level ++ quote name ++ ": ") x) xs

end

def pretty (j : Json) : String := prettyOnto 0 "" j

mutual

/-- Appends a document on one line. -/
def compactOnto (out : String) : Json → String
  | .array (x :: xs) => compactElements (compactOnto (out ++ "[") x) xs ++ "]"
  | .object ((name, x) :: xs) =>
    compactMembers (compactOnto (out ++ "\x7b" ++ quote name ++ ":") x) xs ++ "\x7d"
  | leaf => out ++ leafText leaf

private def compactElements (out : String) : List Json → String
  | [] => out
  | x :: xs => compactElements (compactOnto (out ++ ",") x) xs

private def compactMembers (out : String) : List (String × Json) → String
  | [] => out
  | (name, x) :: xs => compactMembers (compactOnto (out ++ "," ++ quote name ++ ":") x) xs

end

def compact (j : Json) : String := compactOnto "" j

end Json

end GeneticProgramming
