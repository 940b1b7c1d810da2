import GeneticProgramming.Palette.Types

/-!
# Errors of palettes

Why operators do not make a palette, and why a palette cannot make a tree.
-/

namespace GeneticProgramming

inductive BuildError where
  | empty
  | unsupportedAlignment (type : String)
  | unsupportedSize (type : String)
  /-- No finite tree returns the type. -/
  | ungroundedType (type : String)
  | unknownRootType (type : String)
deriving DecidableEq, Repr

def BuildError.message : BuildError → String
  | .empty => "operator set is empty"
  | .unsupportedAlignment type =>
    "type `" ++ type ++ "` requires alignment above 8 bytes"
  | .unsupportedSize type => "type `" ++ type ++ "` is too large to store inline"
  | .ungroundedType type =>
    "type `" ++ type ++ "` has no terminal path and can never be generated"
  | .unknownRootType type => "root type `" ++ type ++ "` is not produced by any operator"

inductive GenerationError where
  /-- Nothing returns the type, or no point of the type was found. -/
  | noValidType (type : Option TypeId)
  | treeTooSmall (size least : Nat)
deriving DecidableEq, Repr

def GenerationError.message : GenerationError → String
  | .noValidType none => "no valid type"
  | .noValidType (some type) => s!"no valid type for {typeTag type}"
  | .treeTooSmall size least => s!"tree too small: {size} < {least}"

end GeneticProgramming
