import GeneticProgramming.Value.Type

/-!
# The catalogue of types

The types that operators of the catalogue are made of, by name.
-/

namespace GeneticProgramming

namespace Catalogue

abbrev pair : ValueType := .array .double 2
abbrev dozen : ValueType := .array .uint8 12
abbrev triple : ValueType := .array .uint64 3
abbrev big : ValueType := .array .uint8 4112

/-- The longest array of words that can be stored inline. -/
abbrev longest : ValueType := .array .uint64 8191

/-- An array that is one word too long to be stored inline. -/
abbrev huge : ValueType := .array .uint64 8192

/-- All types with their names. -/
def types : List (String × ValueType) := [
  ("b12", dozen), ("big", big), ("bool", .bool), ("f32", .single), ("f64", .double), ("huge", huge),
  ("i32", .scalar .int32), ("i64", .int64), ("max", longest), ("pair", pair), ("string", .text),
  ("triple", triple), ("u32", .uint32), ("u64", .uint64), ("u8", .uint8), ("unit", .unit),
  ("vec", .ints), ("wide", .wide)]

def type? (name : String) : Option ValueType := types.lookup name

end Catalogue

end GeneticProgramming
