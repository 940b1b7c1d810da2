import GeneticProgramming.Proofs.Value.Storage

/-!
# Bytes that no value has

Most types have a value for any bytes, but those of a truth value are zero or one.
`ValueType.isStored_iff` says that there is no other exception: cells of data store a value of a
type exactly if each of the truth values in them is such a byte.
-/

namespace GeneticProgramming

namespace Scalar

variable {s : Scalar} {bs cs : List UInt8} {n : Nat}

/-- Bytes that values of a type may have. -/
def Allows (s : Scalar) (bs : List UInt8) : Prop := s = .bool → ∀ b ∈ bs, b = 0 ∨ b = 1

theorem allows_append : s.Allows (bs ++ cs) ↔ s.Allows bs ∧ s.Allows cs := by
  simp only [Allows, List.forall_mem_append]
  exact ⟨fun h => ⟨fun hs => (h hs).1, fun hs => (h hs).2⟩, fun h hs => ⟨h.1 hs, h.2 hs⟩⟩

/-- A value that is no truth value keeps the low bytes of the word it is read from. -/
theorem toWord_ofWord (hs : s ≠ .bool) (w : UInt64) :
    s.toWord (s.ofWord w) = Word.low s.width w := by
  apply UInt64.toNat_inj.1
  rw [Word.toNat_low w s.width_le]
  cases s with
  | bool => contradiction
  | single => simp [toWord, ofWord, width]
  | int32 => simp [toWord, ofWord, width]
  | uint32 => simp [toWord, ofWord, width]
  | uint8 => simp [toWord, ofWord, width]
  | double => exact (Nat.mod_eq_of_lt w.toNat_lt).symm
  | uint64 => exact (Nat.mod_eq_of_lt w.toNat_lt).symm
  | int64 =>
    rw [toWord, ofWord, UInt64.toUInt64_toInt64]
    exact (Nat.mod_eq_of_lt w.toNat_lt).symm

theorem bytes_false : bytes .bool false = [0] := by decide

theorem bytes_true : bytes .bool true = [1] := by decide

theorem allows_bytes (s : Scalar) (x : s.Carrier) : s.Allows (s.bytes x) := by
  rintro rfl b hb
  cases x with
  | false =>
    rw [bytes_false] at hb
    exact .inl (List.mem_singleton.1 hb)
  | true =>
    rw [bytes_true] at hb
    exact .inr (List.mem_singleton.1 hb)

/-- Each run of bytes that a type allows is that of a value. -/
theorem exists_bytes (hlen : bs.length = s.width) (h : s.Allows bs) : ∃ x, s.bytes x = bs := by
  by_cases hs : s = .bool
  · subst hs
    obtain ⟨b, rfl⟩ := List.length_eq_one_iff.1 hlen
    rcases h rfl b List.mem_cons_self with rfl | rfl
    · exact ⟨false, bytes_false⟩
    · exact ⟨true, bytes_true⟩
  · have hshort : bs.length ≤ 8 := hlen ▸ s.width_le
    refine ⟨s.ofWord (Word.ofBytes bs), ?_⟩
    rw [bytes, toWord_ofWord hs, ← hlen, Word.low_ofBytes hshort, Word.bytes_ofBytes hshort,
      List.take_left]

theorem exists_flatMap_bytes (hlen : bs.length = s.width * n) (h : s.Allows bs) :
    ∃ xs : List s.Carrier, xs.length = n ∧ xs.flatMap s.bytes = bs := by
  induction n generalizing bs with
  | zero => exact ⟨[], rfl, (List.length_eq_zero_iff.1 hlen).symm⟩
  | succ n ih =>
    rw [Nat.mul_succ] at hlen
    rw [← List.take_append_drop s.width bs, allows_append] at h
    obtain ⟨x, hx⟩ := exists_bytes (List.length_take_of_le (by omega)) h.1
    obtain ⟨xs, rfl, hxs⟩ := ih (by rw [List.length_drop]; omega) h.2
    exact ⟨x :: xs, rfl, by rw [List.flatMap_cons, hx, hxs, List.take_append_drop]⟩

end Scalar

namespace ValueType

variable {t : ValueType} {cells : List Cell}

/-- Cells that store a value, whatever lies behind it. -/
def IsStored (t : ValueType) (cells : List Cell) : Prop :=
  ∃ x, t.ownBytes cells = t.ownBytes (t.store x)

/-- The type of the values that a stored value is made of, if it is not made of words. -/
def element? : ValueType → Option Scalar
  | .scalar s => some s
  | .array s _ => some s
  | _ => none

/-- Cells in which each truth value is a bit. -/
def IsClean (t : ValueType) (cells : List Cell) : Prop :=
  ∀ s, t.element? = some s → s.Allows (t.ownBytes cells)

theorem ownBytes_store_scalar (s : Scalar) (x : s.Carrier) :
    ownBytes (.scalar s) (store (.scalar s) x) = s.bytes x := by
  simp [ownBytes, store, width, Cell.bytes, Cell.toWord, Scalar.bytes]

theorem ownBytes_store_array (s : Scalar) {n : Nat} (xs : Vector s.Carrier n) :
    ownBytes (.array s n) (store (.array s n) xs) = xs.toList.flatMap s.bytes := by
  obtain ⟨k, hk⟩ := Cell.flatMap_bytes_ofBytes (xs.toList.flatMap s.bytes)
  have hlen : (xs.toList.flatMap s.bytes).length = s.width * n := by
    rw [length_flatMap_bytes, Vector.length_toList]
  rw [ownBytes, store, hk, width, List.take_left' hlen]

theorem length_ownBytes (h : cells.length = t.words) : (t.ownBytes cells).length = t.width := by
  rw [ownBytes, List.length_take, Cell.length_flatMap_bytes, h]
  refine Nat.min_eq_left ?_
  cases t with
  | scalar s => simpa [width] using s.width_le
  | array s n => simp only [width, words]; omega
  | _ => decide

/-- A value of words is stored in any cells. -/
theorem isStored_of_words (hshared : t.isShared = false) (hlen : cells.length = t.words)
    (h : t.element? = none) : t.IsStored cells := by
  cases t with
  | scalar s => contradiction
  | array s n => contradiction
  | text => contradiction
  | ints => contradiction
  | unit => exact ⟨(), by rw [List.length_eq_zero_iff.1 hlen]; rfl⟩
  | wide =>
    obtain ⟨c, d, rfl⟩ := List.length_eq_two.1 hlen
    exact ⟨(c.toWord, d.toWord), rfl⟩

theorem isStored_iff (hshared : t.isShared = false) (hlen : cells.length = t.words) :
    t.IsStored cells ↔ t.IsClean cells := by
  have hown := length_ownBytes hlen
  constructor
  · rintro ⟨x, hx⟩ s hs
    rw [hx]
    cases t with
    | scalar s' =>
      obtain rfl := Option.some.inj hs
      rw [ownBytes_store_scalar]
      exact Scalar.allows_bytes _ x
    | array s' n =>
      obtain rfl := Option.some.inj hs
      rw [ownBytes_store_array]
      intro hbool b hb
      obtain ⟨y, -, hb⟩ := List.mem_flatMap.1 hb
      exact Scalar.allows_bytes _ y hbool b hb
    | _ => contradiction
  · intro hclean
    cases t with
    | scalar s =>
      obtain ⟨x, hx⟩ := Scalar.exists_bytes hown (hclean s rfl)
      exact ⟨x, by rw [ownBytes_store_scalar, hx]⟩
    | array s n =>
      obtain ⟨xs, hxs, hbytes⟩ := Scalar.exists_flatMap_bytes hown (hclean s rfl)
      subst hxs
      refine ⟨⟨xs.toArray, by simp⟩, ?_⟩
      rw [ownBytes_store_array]
      simpa using hbytes.symm
    | _ => exact isStored_of_words hshared hlen rfl

end ValueType

end GeneticProgramming
