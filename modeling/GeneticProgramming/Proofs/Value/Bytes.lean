import GeneticProgramming.Value.Cell
import Mathlib.Tactic.NormNum

/-!
# Words and their bytes

A word and its eight bytes determine each other, and a run of bytes that is packed into cells comes
back from them with nothing but zeros behind it.  Both are reduced to the digits of a natural number
to the base 256.
-/

namespace GeneticProgramming

namespace Word

theorem length_bytes (w : UInt64) : (bytes w).length = 8 := by simp [bytes]

theorem toNat_shift (w : UInt64) {i : Nat} (h : i < 8) :
    (w >>> (8 * i).toUInt64).toNat = w.toNat / 256 ^ i := by
  have hi : (8 * i).toUInt64.toNat % 64 = 8 * i := by
    rw [Nat.toUInt64_eq, UInt64.toNat_ofNat_of_lt' (by simp [UInt64.size]; omega)]; omega
  rw [UInt64.toNat_shiftRight, hi, Nat.shiftRight_eq_div_pow, Nat.pow_mul]

/-- A byte of a word is a digit of its number. -/
theorem toNat_getElem_bytes (w : UInt64) {i : Nat} (h : i < (bytes w).length) :
    (bytes w)[i].toNat = w.toNat / 256 ^ i % 256 := by
  have hi : i < 8 := by rwa [length_bytes] at h
  simp only [bytes, List.getElem_map, List.getElem_range, UInt64.toNat_toUInt8, toNat_shift w hi]

/-- A new lowest byte moves the others up, as long as they fit. -/
theorem toNat_ofBytes_cons (b : UInt8) (bs : List UInt8)
    (h : (ofBytes bs).toNat < 256 ^ 7) :
    (ofBytes (b :: bs)).toNat = b.toNat + 256 * (ofBytes bs).toNat := by
  have hb : b.toNat < 2 ^ 8 := b.toNat_lt
  have hs : (ofBytes bs <<< 8).toNat = 2 ^ 8 * (ofBytes bs).toNat := by
    rw [UInt64.toNat_shiftLeft, show (8 : UInt64).toNat % 64 = 8 from rfl, Nat.shiftLeft_eq,
      Nat.mod_eq_of_lt (by norm_num at h ⊢; omega), Nat.mul_comm]
  rw [ofBytes, UInt64.toNat_or, hs, UInt8.toNat_toUInt64, Nat.or_comm,
    ← Nat.two_pow_add_eq_or_of_lt hb, Nat.add_comm]

theorem toNat_ofBytes_lt {bs : List UInt8} (h : bs.length ≤ 8) :
    (ofBytes bs).toNat < 256 ^ bs.length := by
  induction bs with
  | nil => simp [ofBytes]
  | cons b bs ih =>
    have hlt := ih (by simp at h; omega)
    have hseven : (ofBytes bs).toNat < 256 ^ 7 :=
      lt_of_lt_of_le hlt (Nat.pow_le_pow_right (by decide) (Nat.le_of_succ_le_succ h))
    have hb : b.toNat < 256 := b.toNat_lt
    rw [toNat_ofBytes_cons b bs hseven, List.length_cons, Nat.pow_succ]
    omega

/-- The digits of the number of some bytes are the bytes. -/
theorem toNat_ofBytes_div {bs : List UInt8} (h : bs.length ≤ 8) (i : Nat) :
    (ofBytes bs).toNat / 256 ^ i % 256 = (bs[i]?.map UInt8.toNat).getD 0 := by
  induction bs generalizing i with
  | nil => simp [ofBytes]
  | cons b bs ih =>
    have hl : bs.length ≤ 7 := Nat.le_of_succ_le_succ h
    have hseven : (ofBytes bs).toNat < 256 ^ 7 :=
      lt_of_lt_of_le (toNat_ofBytes_lt (by omega)) (Nat.pow_le_pow_right (by decide) hl)
    have hb : b.toNat < 256 := b.toNat_lt
    rw [toNat_ofBytes_cons b bs hseven]
    cases i with
    | zero => simp
    | succ i =>
      have hdiv : (b.toNat + 256 * (ofBytes bs).toNat) / 256 ^ (i + 1) =
          (ofBytes bs).toNat / 256 ^ i := by
        rw [Nat.pow_succ', ← Nat.div_div_eq_div_mul, Nat.add_mul_div_left _ _ (by decide),
          Nat.div_eq_of_lt hb, Nat.zero_add]
      rw [hdiv, ih (by omega)]
      rfl

/-- A word has the bytes that it was made of, and zeros above them. -/
theorem bytes_ofBytes {bs : List UInt8} (h : bs.length ≤ 8) :
    bytes (ofBytes bs) = bs ++ List.replicate (8 - bs.length) 0 := by
  apply List.ext_getElem
  · simp [length_bytes]; omega
  · intro i hi hj
    apply UInt8.toNat_inj.1
    rw [toNat_getElem_bytes, toNat_ofBytes_div h]
    by_cases hb : i < bs.length
    · simp [hb, List.getElem_append_left]
    · rw [List.getElem_append_right (by omega), List.getElem_replicate]
      simp [hb]

/-- Some low bytes of a word make its number modulo a power of 256. -/
theorem toNat_ofBytes_take (w : UInt64) {k : Nat} (h : k ≤ 8) :
    (ofBytes ((bytes w).take k)).toNat = w.toNat % 256 ^ k := by
  -- the digits decide: both numbers have the bytes of `w` below `k` and none above
  have hlen : ((bytes w).take k).length = k := by simp [length_bytes, h]
  have hshort : ((bytes w).take k).length ≤ 8 := by rwa [hlen]
  have key : ∀ n, n ≤ k → (ofBytes ((bytes w).take k)).toNat % 256 ^ n = w.toNat % 256 ^ n := by
    intro n hn
    induction n with
    | zero => simp [Nat.mod_one]
    | succ n ih =>
      have hdigit := toNat_ofBytes_div hshort n
      have hnb : n < (bytes w).length := by rw [length_bytes]; omega
      rw [List.getElem?_take_of_lt (by omega), List.getElem?_eq_getElem hnb, Option.map_some,
        Option.getD_some, toNat_getElem_bytes] at hdigit
      rw [Nat.pow_succ, Nat.mod_mul, Nat.mod_mul, ih (by omega), hdigit]
  have hlt := toNat_ofBytes_lt hshort
  rw [hlen] at hlt
  rw [← Nat.mod_eq_of_lt hlt, key k le_rfl]

@[simp] theorem ofBytes_bytes (w : UInt64) : ofBytes (bytes w) = w := by
  apply UInt64.toNat_inj.1
  have h := toNat_ofBytes_take w (k := 8) le_rfl
  rw [List.take_of_length_le (by rw [length_bytes])] at h
  rw [h, Nat.mod_eq_of_lt (by have := w.toNat_lt; norm_num; omega)]

/-- A word of which only the lowest bytes, so many, are left. -/
def low (k : Nat) (w : UInt64) : UInt64 := ofBytes ((bytes w).take k)

theorem toNat_low (w : UInt64) {k : Nat} (h : k ≤ 8) : (low k w).toNat = w.toNat % 256 ^ k :=
  toNat_ofBytes_take w h

theorem low_of_le (w : UInt64) {k : Nat} (h : 8 ≤ k) : low k w = w := by
  rw [low, List.take_of_length_le (by rwa [length_bytes]), ofBytes_bytes]

theorem low_ofBytes {bs : List UInt8} (h : bs.length ≤ 8) :
    low bs.length (ofBytes bs) = ofBytes bs := by
  rw [low, bytes_ofBytes h, List.take_left]

/-- What lies above the written bytes does not show in them. -/
theorem toNat_overlay_mod (k : Nat) (w rest : UInt64) (h : k ≤ 8) :
    (overlay k w rest).toNat % 256 ^ k = w.toNat % 256 ^ k := by
  unfold overlay
  split
  · next hk =>
    have hbits : (8 * k).toUInt64.toNat % 64 = 8 * k := by
      rw [Nat.toUInt64_eq, UInt64.toNat_ofNat_of_lt' (by simp [UInt64.size]; omega)]; omega
    have hzero : ((rest >>> (8 * k).toUInt64) <<< (8 * k).toUInt64).toNat % 2 ^ (8 * k) = 0 := by
      rw [UInt64.toNat_shiftLeft, hbits, Nat.shiftLeft_eq,
        Nat.mod_mod_of_dvd _ (Nat.pow_dvd_pow 2 (by omega)), Nat.mul_mod_left]
    rw [show 256 ^ k = 2 ^ (8 * k) by rw [Nat.pow_mul], UInt64.toNat_or, Nat.or_mod_two_pow, hzero,
      Nat.or_zero]
  · rfl

theorem low_overlay (k : Nat) (w rest : UInt64) : low k (overlay k w rest) = low k w := by
  by_cases h : k ≤ 8
  · apply UInt64.toNat_inj.1
    rw [toNat_low _ h, toNat_low _ h, toNat_overlay_mod k w rest h]
  · rw [overlay, if_neg (by omega)]

end Word

namespace Cell

theorem ofBytes_nil : ofBytes [] = [] := by rw [ofBytes]

theorem ofBytes_of_ne_nil {bs : List UInt8} (h : bs ≠ []) :
    ofBytes bs = .word (Word.ofBytes (bs.take 8)) :: ofBytes (bs.drop 8) := by
  cases bs with
  | nil => exact absurd rfl h
  | cons b bs => rw [ofBytes]; rfl

theorem length_bytes (c : Cell) : c.bytes.length = 8 := Word.length_bytes _

theorem length_flatMap_bytes (cells : List Cell) :
    (cells.flatMap Cell.bytes).length = 8 * cells.length := by
  induction cells with
  | nil => rfl
  | cons c cells ih => simp [ih, length_bytes]; omega

theorem drop_flatMap_bytes (cells : List Cell) (n : Nat) :
    (cells.flatMap Cell.bytes).drop (8 * n) = (cells.drop n).flatMap Cell.bytes := by
  induction n generalizing cells with
  | zero => rfl
  | succ n ih =>
    cases cells with
    | nil => rw [List.flatMap_nil, List.drop_nil, List.drop_nil, List.flatMap_nil]
    | cons c cells =>
      rw [List.flatMap_cons, Nat.mul_succ, Nat.add_comm, ← List.drop_drop,
        List.drop_left' (length_bytes c), ih, List.drop_succ_cons]

theorem take_flatMap_bytes (cells : List Cell) (n : Nat) :
    (cells.flatMap Cell.bytes).take (8 * n) = (cells.take n).flatMap Cell.bytes := by
  have hsplit : cells.flatMap Cell.bytes =
      (cells.take n).flatMap Cell.bytes ++ (cells.drop n).flatMap Cell.bytes := by
    rw [← List.flatMap_append, List.take_append_drop]
  rcases Nat.le_total n cells.length with hle | hle
  · rw [hsplit, List.take_left' (by rw [length_flatMap_bytes, List.length_take_of_le hle])]
  · rw [List.take_of_length_le (i := n) hle,
      List.take_of_length_le (by rw [length_flatMap_bytes]; omega)]

@[simp] theorem length_ofBytes (bs : List UInt8) : (ofBytes bs).length = (bs.length + 7) / 8 := by
  induction bs using ofBytes.induct with
  | case1 => simp [ofBytes_nil]
  | case2 b bs ih =>
    rw [ofBytes, List.length_cons, ih, List.length_drop, List.length_cons]
    omega

/-- Packed bytes come back with zeros up to the end of the last cell. -/
theorem flatMap_bytes_ofBytes (bs : List UInt8) :
    ∃ k, (ofBytes bs).flatMap Cell.bytes = bs ++ List.replicate k 0 := by
  induction bs using ofBytes.induct with
  | case1 => exact ⟨0, by simp [ofBytes_nil]⟩
  | case2 b bs ih =>
    obtain ⟨k, hk⟩ := ih
    rw [ofBytes_of_ne_nil (List.cons_ne_nil b bs), List.flatMap_cons, bytes, toWord,
      List.drop_succ_cons]
    by_cases hl : 8 ≤ (b :: bs).length
    · refine ⟨k, ?_⟩
      rw [hk, Word.bytes_ofBytes (by simp), List.length_take, Nat.min_eq_left hl, Nat.sub_self,
        List.replicate_zero, List.append_nil, ← List.append_assoc]
      exact congrArg (· ++ _) (List.take_append_drop 8 (b :: bs))
    · have hnil : bs.drop 7 = [] := List.drop_eq_nil_of_le (by simp at hl; omega)
      refine ⟨8 - (b :: bs).length, ?_⟩
      rw [hnil, ofBytes_nil, List.flatMap_nil, List.append_nil,
        List.take_of_length_le (by omega), Word.bytes_ofBytes (by omega)]

/-- Whole words come back from the cells that they are packed into. -/
theorem flatMap_bytes_ofBytes_of_dvd {bs : List UInt8} (h : 8 ∣ bs.length) :
    (ofBytes bs).flatMap Cell.bytes = bs := by
  obtain ⟨k, hk⟩ := flatMap_bytes_ofBytes bs
  have hlen := congrArg List.length hk
  rw [length_flatMap_bytes, length_ofBytes, List.length_append,
    List.length_replicate] at hlen
  have hzero : k = 0 := by omega
  rw [hk, hzero, List.replicate_zero, List.append_nil]

/-- Cells of data are told by their bytes. -/
theorem ofBytes_flatMap_bytes {cells : List Cell} (h : ∀ c ∈ cells, c.isShared = false) :
    ofBytes (cells.flatMap Cell.bytes) = cells := by
  induction cells with
  | nil => exact ofBytes_nil
  | cons c cells ih =>
    obtain ⟨hc, hcs⟩ := List.forall_mem_cons.1 h
    have hne : c.bytes ++ cells.flatMap Cell.bytes ≠ [] := by
      intro hnil
      have := congrArg List.length hnil
      simp [length_bytes] at this
    rw [List.flatMap_cons, ofBytes_of_ne_nil hne, List.take_left' (length_bytes c),
      List.drop_left' (length_bytes c), ih hcs]
    cases c with
    | word w => rw [bytes, toWord, Word.ofBytes_bytes]
    | text s => simp [isShared] at hc
    | ints xs => simp [isShared] at hc

/-- Cells that are filled up from bytes are data. -/
theorem isShared_of_mem_ofBytes (bs : List UInt8) : ∀ c ∈ ofBytes bs, c.isShared = false := by
  induction bs using ofBytes.induct with
  | case1 => simp [ofBytes_nil]
  | case2 b bs ih =>
    rw [ofBytes]
    exact List.forall_mem_cons.2 ⟨rfl, ih⟩

/-! ## Cells without what lies behind a value -/

/-- Cells of which only the first bytes, so many, are kept; the others become zero. -/
def trim : Nat → List Cell → List Cell
  | _, [] => []
  | width, .word w :: cells => .word (Word.low width w) :: trim (width - 8) cells
  | width, c :: cells => c :: trim (width - 8) cells

theorem trim_overlay (width : Nat) (before : List UInt64) (cells : List Cell) :
    trim width (overlay width before cells) = trim width cells := by
  induction cells generalizing width before with
  | nil => rfl
  | cons c cells ih => cases c <;> simp [overlay, trim, ih, Word.low_overlay]

theorem trim_ofBytes (bs : List UInt8) : trim bs.length (ofBytes bs) = ofBytes bs := by
  induction bs using ofBytes.induct with
  | case1 => rw [ofBytes_nil]; rfl
  | case2 b bs ih =>
    rw [ofBytes_of_ne_nil (List.cons_ne_nil b bs), trim]
    have hrest : trim ((b :: bs).length - 8) (ofBytes ((b :: bs).drop 8)) =
        ofBytes ((b :: bs).drop 8) := by
      rw [← List.length_drop]; exact ih
    rw [hrest]
    by_cases hl : 8 ≤ (b :: bs).length
    · rw [Word.low_of_le _ hl]
    · rw [List.take_of_length_le (by omega), Word.low_ofBytes (by omega)]

/-- The written bytes of an overlay are those of the cells. -/
theorem take_flatMap_trim (width : Nat) (cells : List Cell) :
    ((trim width cells).flatMap Cell.bytes).take width = (cells.flatMap Cell.bytes).take width := by
  induction cells generalizing width with
  | nil => rfl
  | cons c cells ih =>
    have hcons : ∀ d : Cell, (trim width (c :: cells)) = d :: trim (width - 8) cells →
        d.bytes.take width = c.bytes.take width →
        ((trim width (c :: cells)).flatMap Cell.bytes).take width =
          ((c :: cells).flatMap Cell.bytes).take width := by
      intro d hd hbytes
      rw [hd, List.flatMap_cons, List.flatMap_cons, List.take_append, List.take_append, hbytes,
        length_bytes, length_bytes, ih]
    cases c with
    | word w =>
      refine hcons _ rfl ?_
      by_cases hl : width ≤ 8
      · have hlen : ((Word.bytes w).take width).length = width := by
          simp [Word.length_bytes, hl]
        change (Word.bytes (Word.low width w)).take width = (Word.bytes w).take width
        rw [Word.low, Word.bytes_ofBytes (by omega), List.take_left' hlen]
      · rw [Word.low_of_le w (by omega)]
    | text s => exact hcons _ rfl rfl
    | ints xs => exact hcons _ rfl rfl

end Cell

end GeneticProgramming
