import GeneticProgramming.Proofs.Value.Bytes
import Mathlib.Data.List.Basic

/-!
# Stored values

A value of any type comes back from the cells that store it, whatever lay there before, because
`load` looks at nothing but the value's own bytes.  `load_storeOver` says so; `trim_storeOver` says
that two stored forms of one value differ in nothing but the bytes behind it.
-/

namespace GeneticProgramming

namespace Scalar

theorem width_le (s : Scalar) : s.width ≤ 8 := by cases s <;> decide

/-- A value fits the bytes that its type takes. -/
theorem toNat_toWord_lt (s : Scalar) (x : s.Carrier) : (s.toWord x).toNat < 256 ^ s.width := by
  cases s with
  | single => simpa [toWord, width] using x.bits.toNat_lt
  | double => simpa [toWord, width] using x.bits.toNat_lt
  | bool => cases x <;> decide
  | int32 => simpa [toWord, width] using x.toUInt32.toNat_lt
  | int64 => simpa [toWord, width] using x.toUInt64.toNat_lt
  | uint8 => simpa [toWord, width] using x.toNat_lt
  | uint32 => simpa [toWord, width] using x.toNat_lt
  | uint64 => simpa [toWord, width] using x.toNat_lt

theorem low_toWord (s : Scalar) (x : s.Carrier) : Word.low s.width (s.toWord x) = s.toWord x := by
  apply UInt64.toNat_inj.1
  rw [Word.toNat_low _ s.width_le, Nat.mod_eq_of_lt (s.toNat_toWord_lt x)]

/-- Reading a value looks at its own bytes only. -/
theorem ofWord_low (s : Scalar) (w : UInt64) : s.ofWord (Word.low s.width w) = s.ofWord w := by
  have h := Word.toNat_low w s.width_le
  have h32 : s.width = 4 → (Word.low s.width w).toUInt32 = w.toUInt32 := by
    intro hs
    apply UInt32.toNat_inj.1
    rw [UInt64.toNat_toUInt32, UInt64.toNat_toUInt32, h, hs]
    norm_num
  have h8 : s.width = 1 → (Word.low s.width w).toUInt8 = w.toUInt8 := by
    intro hs
    apply UInt8.toNat_inj.1
    rw [UInt64.toNat_toUInt8, UInt64.toNat_toUInt8, h, hs]
    norm_num
  cases s with
  | single => exact congrArg Single.mk (h32 rfl)
  | double => exact congrArg Double.mk (Word.low_of_le w le_rfl)
  | bool => exact congrArg (· != 0) (h8 rfl)
  | int32 => exact congrArg UInt32.toInt32 (h32 rfl)
  | int64 => exact congrArg UInt64.toInt64 (Word.low_of_le w le_rfl)
  | uint8 => exact h8 rfl
  | uint32 => exact h32 rfl
  | uint64 => exact Word.low_of_le w le_rfl

theorem length_bytes (s : Scalar) (x : s.Carrier) : (s.bytes x).length = s.width := by
  simp [bytes, Word.length_bytes, s.width_le]

@[simp] theorem ofBytes_bytes (s : Scalar) (x : s.Carrier) : s.ofBytes (s.bytes x) = x := by
  rw [ofBytes, List.take_of_length_le (by rw [length_bytes]), bytes]
  exact (s.ofWord_low (s.toWord x)).trans (s.ofWord_toWord x)

end Scalar

namespace ValueType

theorem length_flatMap_bytes (s : Scalar) (xs : List s.Carrier) :
    (xs.flatMap s.bytes).length = s.width * xs.length := by
  induction xs with
  | nil => rfl
  | cons x xs ih => simp [ih, s.length_bytes, Nat.mul_add, Nat.add_comm]

/-- The bytes of the elements of an array stand one after another. -/
theorem take_drop_flatMap_bytes (s : Scalar) {xs : List s.Carrier} {i : Nat} (h : i < xs.length) :
    ((xs.flatMap s.bytes).drop (i * s.width)).take s.width = s.bytes xs[i] := by
  induction xs generalizing i with
  | nil => exact absurd h (Nat.not_lt_zero i)
  | cons x xs ih =>
    rw [List.flatMap_cons]
    cases i with
    | zero => simp [List.take_left' (s.length_bytes x)]
    | succ i =>
      rw [Nat.succ_mul, Nat.add_comm, ← List.drop_drop, List.drop_left' (s.length_bytes x)]
      exact ih (by simpa using h)

@[simp] theorem length_store (t : ValueType) (x : t.Carrier) : (t.store x).length = t.words := by
  cases t with
  | array s n => rw [store, Cell.length_ofBytes, length_flatMap_bytes, Vector.length_toList]; rfl
  | _ => rfl

/-- The cells of a stored value, with zeros behind it. -/
theorem trim_store (t : ValueType) (x : t.Carrier) :
    Cell.trim t.width (t.store x) = t.store x := by
  cases t with
  | scalar s => simp [store, width, Cell.trim, s.low_toWord]
  | array s n =>
    have h := Cell.trim_ofBytes (x.toList.flatMap s.bytes)
    rwa [length_flatMap_bytes, Vector.length_toList] at h
  | wide => simp [store, width, Cell.trim, Word.low_of_le]
  | _ => rfl

/-- Two stored forms of a value differ only in the bytes behind it. -/
theorem trim_storeOver (t : ValueType) (x : t.Carrier) (before : List UInt64) :
    Cell.trim t.width (t.storeOver x before) = t.store x := by
  unfold storeOver
  split
  · exact t.trim_store x
  · rw [Cell.trim_overlay, t.trim_store]

/-- The value of an array is told by the bytes of its elements. -/
theorem load_array {s : Scalar} {n : Nat} {xs : Vector s.Carrier n} {cells : List Cell}
    (h : (cells.flatMap Cell.bytes).take (s.width * n) = xs.toList.flatMap s.bytes) :
    load (.array s n) cells = xs := by
  apply Vector.ext
  intro i hi
  have hlen : i < xs.toList.length := by simpa using hi
  have hfits : i * s.width + s.width ≤ s.width * n := by
    rw [← Nat.succ_mul, Nat.mul_comm]; exact Nat.mul_le_mul_left _ hi
  have hchunk : (((cells.flatMap Cell.bytes).toArray.extract (i * s.width)
      ((i + 1) * s.width)).toList) = s.bytes xs[i] := by
    rw [← Vector.getElem_toList (h := hlen), ← take_drop_flatMap_bytes s hlen, ← h, List.drop_take,
      List.take_take, Nat.min_eq_left (by omega)]
    simp [Nat.succ_mul, List.take_drop, Nat.add_comm]
  simp only [load, Vector.getElem_ofFn]
  rw [hchunk, s.ofBytes_bytes]

/-- Reading a value looks at its own bytes only. -/
theorem load_trim (t : ValueType) {cells : List Cell} (h : cells.length = t.words) :
    t.load (Cell.trim t.width cells) = t.load cells := by
  cases t with
  | scalar s =>
    obtain ⟨c, rfl⟩ := List.length_eq_one_iff.1 h
    cases c with
    | word w => simp [Cell.trim, load, width, Cell.toWord, s.ofWord_low]
    | _ => rfl
  | array s n =>
    simp only [load, width]
    congr 1
    funext i
    have hfits : (i + 1) * s.width ≤ s.width * n := by
      rw [Nat.mul_comm]; exact Nat.mul_le_mul_left _ i.2
    have hcut : ∀ bs : List UInt8, (bs.toArray.extract (i * s.width) ((i + 1) * s.width)).toList =
        ((bs.take (s.width * n)).drop (i * s.width)).take s.width := by
      intro bs
      rw [List.drop_take, List.take_take, Nat.min_eq_left (by rw [Nat.succ_mul] at hfits; omega)]
      simp [Nat.succ_mul, List.take_drop, Nat.add_comm]
    rw [hcut, hcut, Cell.take_flatMap_trim]
  | unit => rfl
  | text =>
    obtain ⟨c, rfl⟩ := List.length_eq_one_iff.1 h
    cases c <;> rfl
  | ints =>
    obtain ⟨c, rfl⟩ := List.length_eq_one_iff.1 h
    cases c <;> rfl
  | wide =>
    obtain ⟨c, d, rfl⟩ := List.length_eq_two.1 h
    cases c <;> cases d <;> simp [Cell.trim, load, width, Cell.toWord, Word.low_of_le]

@[simp] theorem load_store (t : ValueType) (x : t.Carrier) : t.load (t.store x) = x := by
  cases t with
  | scalar s => exact load_store_scalar s x
  | array s n =>
    apply load_array
    obtain ⟨k, hk⟩ := Cell.flatMap_bytes_ofBytes (x.toList.flatMap s.bytes)
    have hlen : (x.toList.flatMap s.bytes).length = s.width * n := by
      rw [length_flatMap_bytes, Vector.length_toList]
    rw [store, hk, List.take_left' hlen]
  | _ => rfl

/-- A value comes back from its cells, whatever lay there before. -/
@[simp] theorem load_storeOver (t : ValueType) (x : t.Carrier) (before : List UInt64) :
    t.load (t.storeOver x before) = x := by
  rw [← t.load_trim (by simp), t.trim_storeOver, t.load_store]

/-- A stored value is made of references or of data. -/
theorem isShared_of_mem_store {t : ValueType} {x : t.Carrier} {c : Cell} (h : c ∈ t.store x) :
    c.isShared = t.isShared := by
  cases t with
  | scalar s => simp [store] at h; subst h; rfl
  | array s n =>
    exact Cell.isShared_of_mem_ofBytes _ c h
  | unit => simp [store] at h
  | text => simp [store] at h; subst h; rfl
  | ints => simp [store] at h; subst h; rfl
  | wide => simp [store] at h; rcases h with rfl | rfl <;> rfl

theorem isShared_of_mem_overlay {width : Nat} {before : List UInt64} {cells : List Cell} {b : Bool}
    (h : ∀ c ∈ cells, c.isShared = b) : ∀ c ∈ Cell.overlay width before cells, c.isShared = b := by
  induction cells generalizing width before with
  | nil => simp [Cell.overlay]
  | cons c cells ih =>
    obtain ⟨hc, hcs⟩ := List.forall_mem_cons.1 h
    cases c with
    | word w => exact List.forall_mem_cons.2 ⟨hc, ih hcs⟩
    | _ => exact List.forall_mem_cons.2 ⟨hc, ih hcs⟩

theorem isShared_of_mem_storeOver {t : ValueType} {x : t.Carrier} {before : List UInt64} {c : Cell}
    (h : c ∈ t.storeOver x before) : c.isShared = t.isShared := by
  unfold storeOver at h
  split at h
  · exact isShared_of_mem_store h
  · exact isShared_of_mem_overlay (fun _ hd => isShared_of_mem_store hd) c h

end ValueType

end GeneticProgramming
