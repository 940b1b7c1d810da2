import GeneticProgramming.Number.Double
import GeneticProgramming.Text.Quoted
import GeneticProgramming.Tree.Basic

/-!
# Byte streams

Numbers are written with their lowest byte first.  A reader takes what it needs from the front of a
stream and leaves the rest; a writer may fail after some of its output is out.
-/

namespace GeneticProgramming

abbrev Bytes := List UInt8

inductive StreamError where
  /-- The stream ends too early. -/
  | shortRead
  | unexpectedSize (expected found : Nat)
  | invalidOperatorId (id : Nat)
  | invalidName (id : Nat) (expected found : Option String)
  | mismatchedBytes (id expected found : Nat)
  | mismatchedArity (id : Nat)
  | mismatchedReturnType (id : Nat)
  | mismatchedArgumentType (id position : Nat)
  | malformedTree (cause : TreeError)
  /-- Shared values are not written. -/
  | unserializableValue (id : Nat)
deriving DecidableEq, Repr

def StreamError.message : StreamError → String
  | .shortRead => "invalid read: failed to fill whole buffer"
  | .unexpectedSize expected found => s!"unexpected size: expected {expected}, found {found}"
  | .invalidOperatorId id => s!"invalid operator id {id}"
  | .invalidName id expected found =>
    s!"operator {id} name mismatch: expected {Text.quotedOption expected}, " ++
      s!"found {Text.quotedOption found}"
  | .mismatchedBytes id expected found =>
    s!"mismatched bytes for operator {id}: expected {expected}, found {found}"
  | .mismatchedArity id => s!"mismatched argc for operator {id}"
  | .mismatchedReturnType id => s!"mismatched return type for operator {id}"
  | .mismatchedArgumentType id position =>
    s!"mismatched argument type {position} for operator {id}"
  | .malformedTree cause => s!"malformed tree: {cause.message}"
  | .unserializableValue id =>
    s!"operator {id} produces values with destructors, which cannot be serialized"

/-! ## Writing -/

namespace Bytes

def ofWord (w : UInt64) : Bytes := Word.bytes w

/-- A number as a word. -/
def ofNat (n : Nat) : Bytes := ofWord (UInt64.ofNat n)

/-- A number as two bytes. -/
def ofNat16 (n : Nat) : Bytes := (ofNat n).take 2

def ofDouble (x : Double) : Bytes := ofWord x.bits

/-- The bytes of a text, after their number. -/
def ofString (s : String) : Bytes :=
  let bytes := s.toUTF8.toList
  ofNat bytes.length ++ bytes

/-- A list, after its length. -/
def ofList {α : Type} (write : α → Bytes) (xs : List α) : Bytes :=
  ofNat xs.length ++ xs.flatMap write

/-- Puts some bytes in the place of so many others. -/
def patch (bytes : Bytes) (start removed : Nat) (inserted : Bytes) : Bytes :=
  bytes.take start ++ inserted ++ bytes.drop (start + removed)

/-- Keeps the first bytes, so many, or all but the last ones if the number is negative. -/
def truncate (bytes : Bytes) (n : Int) : Bytes :=
  if n < 0 then bytes.take (bytes.length - n.natAbs) else bytes.take n.natAbs

end Bytes

/-- What a writer has put out, and why it stopped if it did. -/
structure Output where
  bytes : Bytes
  failure : Option StreamError
deriving DecidableEq, Repr

namespace Output

def ofBytes (bytes : Bytes) : Output := ⟨bytes, none⟩

def fail (e : StreamError) : Output := ⟨[], some e⟩

/-- Goes on writing unless the first writer failed. -/
def append (a b : Output) : Output :=
  if a.failure.isSome then a else ⟨a.bytes ++ b.bytes, b.failure⟩

instance : Append Output := ⟨append⟩

/-- Writes one after another. -/
def concat (os : List Output) : Output := os.foldr append (ofBytes [])

end Output

/-! ## Reading -/

abbrev Reader := StateT Bytes (Except StreamError)

namespace Reader

def split : Nat → Bytes → Option (Bytes × Bytes)
  | 0, rest => some ([], rest)
  | _ + 1, [] => none
  | n + 1, b :: bs => (split n bs).map fun (front, rest) => (b :: front, rest)

/-- Exactly `n` bytes. -/
def take (n : Nat) : Reader Bytes := fun s =>
  match split n s with
  | some r => .ok r
  | none => .error .shortRead

def byte : Reader UInt8 := return ((← take 1).head?).getD 0

def word : Reader UInt64 := return Word.ofBytes (← take 8)

def nat : Reader Nat := return (← word).toNat

def nat16 : Reader Nat := return (Word.ofBytes (← take 2)).toNat

def double : Reader Double := return ⟨← word⟩

/-- The same again and again. -/
def times {α : Type} (r : Reader α) : Nat → Reader (List α)
  | 0 => return []
  | n + 1 => do
    let x ← r
    return x :: (← times r n)

/-- A length, and so many of the same. -/
def list {α : Type} (r : Reader α) : Reader (List α) := do times r (← nat)

end Reader

end GeneticProgramming
