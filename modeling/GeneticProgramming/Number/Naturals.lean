/-!
# Naturals

Powers and sums of naturals are those of the core library, whatever else a module imports.
-/

namespace GeneticProgramming

attribute [instance (high), default_instance 20000] instPowNat

attribute [instance (high)] Zero.ofOfNat0

end GeneticProgramming
