import GeneticProgramming.Number.Single

/-!
# Double-precision numbers

A double is the word that stores it.  Arithmetic follows the rules of `Single`, and the two
conversions carry the sign and the leading payload bits of a NaN.
-/

namespace GeneticProgramming

structure Double where
  bits : UInt64
deriving DecidableEq, Repr, Inhabited

namespace Double

def zero : Double := ⟨0⟩
def negZero : Double := ⟨0x8000000000000000⟩
def one : Double := ⟨0x3FF0000000000000⟩
def infinity : Double := ⟨0x7FF0000000000000⟩
def negInfinity : Double := ⟨0xFFF0000000000000⟩
def nan : Double := ⟨0x7FF8000000000000⟩

/-- The word without its sign. -/
def magnitude (x : Double) : UInt64 := x.bits &&& 0x7FFFFFFFFFFFFFFF

def isNaN (x : Double) : Bool := 0x7FF0000000000000 < x.magnitude
def isFinite (x : Double) : Bool := x.magnitude < 0x7FF0000000000000
def isNegative (x : Double) : Bool := 0x8000000000000000 ≤ x.bits

/-- The key of the total order of IEEE 754. -/
def rank (x : Double) : Int := Layout.double.rank x.bits.toNat

/-- The place on the number line of a double that is no NaN. -/
def position (x : Double) : Int64 :=
  if x.isNegative then -x.magnitude.toInt64 else x.magnitude.toInt64

/-- Numeric comparison: false whenever an operand is a NaN. -/
def lt (x y : Double) : Bool := !x.isNaN && !y.isNaN && x.position < y.position

/-- Numeric comparison: false whenever an operand is a NaN. -/
def le (x y : Double) : Bool := !x.isNaN && !y.isNaN && x.position ≤ y.position

/-- Numeric equality: both zeros are equal and a NaN equals nothing. -/
def eq (x y : Double) : Bool := !x.isNaN && !y.isNaN && x.position = y.position

def neg (x : Double) : Double := ⟨x.bits ^^^ 0x8000000000000000⟩
def abs (x : Double) : Double := ⟨x.bits &&& 0x7FFFFFFFFFFFFFFF⟩

/-- A NaN with its quiet bit set. -/
def quiet (x : Double) : Double := ⟨x.bits ||| 0x0008000000000000⟩

def toFloat (x : Double) : Float := Float.ofBits x.bits

def ofFloat (x : Float) : Double := ⟨x.toBits⟩

@[inline] private def arithmetic (op : Float → Float → Float) (x y : Double) : Double :=
  if x.isNaN then x.quiet
  else if y.isNaN then y.quiet
  else
    let r := ofFloat (op x.toFloat y.toFloat)
    if r.isNaN then ⟨0xFFF8000000000000⟩ else r

def add : Double → Double → Double := arithmetic (· + ·)
def sub : Double → Double → Double := arithmetic (· - ·)
def mul : Double → Double → Double := arithmetic (· * ·)
def div : Double → Double → Double := arithmetic (· / ·)

instance : Add Double := ⟨add⟩
instance : Sub Double := ⟨sub⟩
instance : Mul Double := ⟨mul⟩
instance : Div Double := ⟨div⟩
instance : Neg Double := ⟨neg⟩

/-- The nearest double. -/
def ofNat (n : Nat) : Double := ofFloat (Float.ofNat n)

/-- The nearest single; beyond its range an infinity. -/
def toSingle (x : Double) : Single :=
  if x.isNaN then
    let sign : UInt64 := (x.bits >>> 32) &&& 0x80000000
    let payload : UInt64 := (x.bits >>> 29) &&& 0x3FFFFF
    ⟨(sign ||| payload).toUInt32 ||| 0x7FC00000⟩
  else Single.ofFloat32 x.toFloat.toFloat32

/-- Every single is a double. -/
def ofSingle (x : Single) : Double :=
  if x.isNaN then
    let sign : UInt64 := (x.bits &&& 0x80000000).toUInt64 <<< 32
    let payload : UInt64 := (x.bits &&& 0x3FFFFF).toUInt64 <<< 29
    ⟨sign ||| payload ||| 0x7FF8000000000000⟩
  else ofFloat x.toFloat32.toFloat

/-- The integer part, cut to the range of the words; a NaN gives zero. -/
def toInt64 (x : Double) : Int64 := x.toFloat.toInt64

/-- Keeps a number between `0` and `1`; a NaN stays a NaN. -/
def clampUnit (x : Double) : Double :=
  if x.lt zero then zero else if one.lt x then one else x

/-- The greater of two numbers; the second of equal ones. -/
def max (x y : Double) : Double := if y.lt x then x else y

/-- The smaller of two numbers; the second of equal ones. -/
def min (x y : Double) : Double := if x.lt y then x else y

/-- The next word towards zero. -/
def step (x : Double) : Double := ⟨x.bits - 1⟩

/-- The whole part of `x * 2 ^ k` for a finite `x` that is not negative. -/
def floorScaled (x : Double) (k : Nat) : Nat :=
  let bits := x.bits.toNat
  let shift := Layout.double.scale bits + k
  let m := Layout.double.mantissa bits
  if 0 ≤ shift then m * 2 ^ shift.toNat else m / 2 ^ (-shift).toNat

/-! ## Words and layout -/

theorem toNat_magnitude (x : Double) :
    x.magnitude.toNat = Layout.double.magnitude x.bits.toNat := by
  simp only [magnitude, UInt64.toNat_and]
  exact Nat.and_two_pow_sub_one_eq_mod _ 63

theorem isNaN_eq (x : Double) : x.isNaN = Layout.double.isNaN x.bits.toNat := by
  simp only [isNaN, UInt64.lt_iff_toNat_lt, toNat_magnitude]; rfl

theorem isFinite_eq (x : Double) : x.isFinite = Layout.double.isFinite x.bits.toNat := by
  simp only [isFinite, UInt64.lt_iff_toNat_lt, toNat_magnitude]; rfl

theorem isNegative_eq (x : Double) : x.isNegative = Layout.double.isNegative x.bits.toNat := by
  simp only [isNegative, UInt64.le_iff_toNat_le]; rfl

theorem toInt_position (x : Double) :
    x.position.toInt = Layout.double.position x.bits.toNat := by
  have hm : x.magnitude.toNat < 2 ^ 63 := x.toNat_magnitude ▸ Nat.mod_lt _ (by decide)
  have h : x.magnitude.toInt64.toInt = x.magnitude.toNat := by
    change x.magnitude.toBitVec.toInt = _
    rw [BitVec.toInt_eq_toNat_of_lt (by simpa using by omega)]; rfl
  unfold position Layout.position
  rw [isNegative_eq, ← toNat_magnitude]
  split
  · rw [Int64.toInt_neg, h, Int.bmod_eq_of_le (by omega) (by omega)]
  · exact h

@[simp] theorem bits_neg (x : Double) : x.neg.bits = x.bits ^^^ 0x8000000000000000 := rfl

end Double

end GeneticProgramming
