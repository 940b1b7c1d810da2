import GeneticProgramming.Json.Forms
import GeneticProgramming.Stream.Bytes

/-!
# Bytes in documents

A run of bytes is shown in full, or, if it is long, by its length and a digest.
-/

namespace GeneticProgramming

def StreamError.document (e : StreamError) : Json :=
  let kind := match e with
    | .shortRead => "InvalidRead"
    | .unexpectedSize _ _ => "UnexpectedSize"
    | .invalidOperatorId _ => "InvalidOperatorId"
    | .invalidName _ _ _ => "InvalidName"
    | .mismatchedBytes _ _ _ => "MismatchedBytes"
    | .mismatchedArity _ => "MismatchedArgc"
    | .mismatchedReturnType _ => "MismatchedReturnType"
    | .mismatchedArgumentType _ _ => "MismatchedArgType"
    | .malformedTree _ => "MalformedTree"
    | .unserializableValue _ => "UnserializableValue"
  .failure "SerializationError" kind e.message

namespace Bytes

/-- The 64-bit FNV-1a digest. -/
def digest (bytes : Bytes) : UInt64 :=
  bytes.foldl (fun h b => (h ^^^ b.toUInt64) * 0x100000001b3) 0xcbf29ce484222325

/-- The digits of the digest. -/
def digestText (bytes : Bytes) : String := Text.hexNat 16 bytes.digest.toNat

/-- The greatest number of bytes that are shown in full. -/
def shownInFull : Nat := 4096

def document (bytes : Bytes) : Json :=
  let length := bytes.length
  .object [("len", .ofNat length),
    if shownInFull < length then ("fnv", .string bytes.digestText)
    else ("hex", .string (Text.hexBytes bytes))]

/-- The bytes of a text, or those that are given by their digits. -/
def ofDocument (j : Json) : Bytes :=
  match j with
  | .string s => s.toUTF8.toList
  | _ => (Text.readHexBytes (j.textD "hex" "")).getD []

end Bytes

end GeneticProgramming
