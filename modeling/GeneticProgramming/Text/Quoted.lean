import GeneticProgramming.Text.Printable

/-!
# Quoted text

Text between double quotes: quotes and backslashes are preceded by a backslash, the usual controls
have short names, and what cannot be printed is written as its code point.
-/

namespace GeneticProgramming.Text

/-- A backslash, `u`, and the code point in braces. -/
def codePoint (c : Char) : List Char :=
  '\\' :: 'u' :: '\x7b' :: (Nat.toDigits 16 c.toNat ++ ['\x7d'])

/-- How one character is written between quotes. -/
def escape (c : Char) : List Char :=
  if c = '"' then ['\\', '"']
  else if c = '\\' then ['\\', '\\']
  else if c = '\n' then ['\\', 'n']
  else if c = '\r' then ['\\', 'r']
  else if c = '\t' then ['\\', 't']
  else if c.toNat = 0 then ['\\', '0']
  else if c.toNat < 0x20 || c.toNat = 0x7F then codePoint c
  else if c.toNat < 0x7F then [c]
  else if isEscaped c then codePoint c
  else [c]

def quoted (s : String) : String :=
  String.ofList ('"' :: (s.toList.flatMap escape ++ ['"']))

/-- A name that may be missing. -/
def quotedOption : Option String → String
  | none => "None"
  | some s => "Some(" ++ quoted s ++ ")"

end GeneticProgramming.Text
