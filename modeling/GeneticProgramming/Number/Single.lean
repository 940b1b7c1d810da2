import GeneticProgramming.Number.Layout

/-!
# Single-precision numbers

A single is the word that stores it, so every word, NaN payloads included, survives storage.
Arithmetic rounds each operation to nearest; an operation without a numeric result gives the
negative quiet NaN, and a NaN operand is passed on, the left one first.
-/

namespace GeneticProgramming

structure Single where
  bits : UInt32
deriving DecidableEq, Repr, Inhabited

namespace Single

def zero : Single := ⟨0⟩
def one : Single := ⟨0x3F800000⟩
def infinity : Single := ⟨0x7F800000⟩
def nan : Single := ⟨0x7FC00000⟩

/-- The word without its sign. -/
def magnitude (x : Single) : UInt32 := x.bits &&& 0x7FFFFFFF

def isNaN (x : Single) : Bool := 0x7F800000 < x.magnitude
def isNegative (x : Single) : Bool := 0x80000000 ≤ x.bits

/-- The place on the number line of a single that is no NaN. -/
def position (x : Single) : Int32 :=
  if x.isNegative then -x.magnitude.toInt32 else x.magnitude.toInt32

/-- Numeric comparison: false whenever an operand is a NaN. -/
def lt (x y : Single) : Bool := !x.isNaN && !y.isNaN && x.position < y.position

def neg (x : Single) : Single := ⟨x.bits ^^^ 0x80000000⟩
def abs (x : Single) : Single := ⟨x.bits &&& 0x7FFFFFFF⟩

/-- A NaN with its quiet bit set. -/
def quiet (x : Single) : Single := ⟨x.bits ||| 0x00400000⟩

def toFloat32 (x : Single) : Float32 := Float32.ofBits x.bits

def ofFloat32 (x : Float32) : Single := ⟨x.toBits⟩

@[inline] private def arithmetic (op : Float32 → Float32 → Float32) (x y : Single) : Single :=
  if x.isNaN then x.quiet
  else if y.isNaN then y.quiet
  else
    let r := ofFloat32 (op x.toFloat32 y.toFloat32)
    if r.isNaN then ⟨0xFFC00000⟩ else r

def add : Single → Single → Single := arithmetic (· + ·)
def sub : Single → Single → Single := arithmetic (· - ·)
def mul : Single → Single → Single := arithmetic (· * ·)
def div : Single → Single → Single := arithmetic (· / ·)

instance : Add Single := ⟨add⟩
instance : Sub Single := ⟨sub⟩
instance : Mul Single := ⟨mul⟩
instance : Div Single := ⟨div⟩
instance : Neg Single := ⟨neg⟩

/-- Division is one where the divisor is less than a millionth. -/
def guardedDiv (x y : Single) : Single := if y.abs.lt ⟨0x358637BD⟩ then one else x / y

/-- The nearest single. -/
def ofNat (n : Nat) : Single := ofFloat32 (Float32.ofNat n)

/-- The nearest single. -/
def ofInt64 (n : Int64) : Single := ofFloat32 n.toFloat32

/-- The integer part, cut to the range of the words; a NaN gives zero. -/
def toInt64 (x : Single) : Int64 := x.toFloat32.toInt64

/-- The next word towards zero. -/
def step (x : Single) : Single := ⟨x.bits - 1⟩

/-! ## Words and layout -/

theorem toNat_magnitude (x : Single) :
    x.magnitude.toNat = Layout.single.magnitude x.bits.toNat := by
  simp only [magnitude, UInt32.toNat_and]
  exact Nat.and_two_pow_sub_one_eq_mod _ 31

theorem isNaN_eq (x : Single) : x.isNaN = Layout.single.isNaN x.bits.toNat := by
  simp only [isNaN, UInt32.lt_iff_toNat_lt, toNat_magnitude]; rfl

theorem isNegative_eq (x : Single) : x.isNegative = Layout.single.isNegative x.bits.toNat := by
  simp only [isNegative, UInt32.le_iff_toNat_le]; rfl

theorem toInt_position (x : Single) :
    x.position.toInt = Layout.single.position x.bits.toNat := by
  have hm : x.magnitude.toNat < 2 ^ 31 := x.toNat_magnitude ▸ Nat.mod_lt _ (by decide)
  have h : x.magnitude.toInt32.toInt = x.magnitude.toNat := by
    change x.magnitude.toBitVec.toInt = _
    rw [BitVec.toInt_eq_toNat_of_lt (by simpa using by omega)]; rfl
  unfold position Layout.position
  rw [isNegative_eq, ← toNat_magnitude]
  split
  · rw [Int32.toInt_neg, h, Int.bmod_eq_of_le (by omega) (by omega)]
  · exact h

@[simp] theorem bits_neg (x : Single) : x.neg.bits = x.bits ^^^ 0x80000000 := rfl

end Single

end GeneticProgramming
