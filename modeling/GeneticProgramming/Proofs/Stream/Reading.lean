import GeneticProgramming.Proofs.Outcome
import GeneticProgramming.Proofs.Value.Bytes
import GeneticProgramming.Stream.Bytes

/-!
# Reading what was written

`Reader.Reads r bs a` says that a reader finds a value in the bytes at the front of any stream and
leaves what follows them.  Readers in sequence read their bytes in sequence, so a round trip is put
together from those of its fields.
-/

namespace GeneticProgramming

/-! ## Texts -/

theorem Bytes.toList_loop_eq (bs : ByteArray) (i : Nat) (r : List UInt8) :
    ByteArray.toList.loop bs i r = r.reverse ++ bs.data.toList.drop i := by
  unfold ByteArray.toList.loop
  split
  · next h =>
    have hi : i < bs.data.toList.length := by rw [Array.length_toList]; exact h
    have hget : bs.get! i = bs.data.toList[i] := by
      rw [Array.getElem_toList]
      exact getElem!_pos bs.data i h
    rw [toList_loop_eq bs (i + 1), List.drop_eq_getElem_cons hi, hget, List.reverse_cons,
      List.append_assoc, List.singleton_append]
  · next h =>
    have hi : bs.data.toList.length ≤ i := by rw [Array.length_toList]; exact Nat.le_of_not_lt h
    rw [List.drop_eq_nil_of_le hi, List.append_nil]
termination_by bs.size - i

theorem Bytes.toList_eq (bs : ByteArray) : bs.toList = bs.data.toList :=
  toList_loop_eq bs 0 []

/-- The bytes of a text spell it. -/
theorem fromUTF8?_bytes (s : String) : String.fromUTF8? ⟨s.toUTF8.toList.toArray⟩ = some s := by
  have hbytes : (⟨s.toUTF8.toList.toArray⟩ : ByteArray) = s.toByteArray := by
    rw [Bytes.toList_eq, Array.toArray_toList]
    rfl
  rw [hbytes, String.fromUTF8?, dif_pos s.isValidUTF8]
  rfl

namespace Reader

variable {α β : Type} {r : Reader α} {f : α → Reader β} {bs cs : Bytes} {a : α} {b : β}

/-- Whatever follows the bytes, a value is read from them and the rest is left. -/
def Reads (r : Reader α) (bs : Bytes) (a : α) : Prop := ∀ rest, r (bs ++ rest) = .ok (a, rest)

namespace Reads

theorem pure (a : α) : Reads (pure a) [] a := fun _ => rfl

/-- After its bytes are read, the next reader goes on with the rest. -/
theorem bind_eq (hr : Reads r bs a) (f : α → Reader β) (rest : Bytes) :
    (r >>= f) (bs ++ rest) = f a rest := bind_apply_of_ok (hr rest)

theorem bind (hr : Reads r bs a) (hf : Reads (f a) cs b) : Reads (r >>= f) (bs ++ cs) b := by
  intro rest
  rw [List.append_assoc, hr.bind_eq]
  exact hf rest

/-- Something that needs no bytes of its own comes after. -/
theorem andThen (hr : Reads r bs a) (hf : Reads (f a) [] b) : Reads (r >>= f) bs b := by
  have h := hr.bind hf
  rwa [List.append_nil] at h

/-- A check that holds is passed. -/
theorem past {c : Prop} [Decidable c] {e : StreamError} {k : α → Reader β} {s : Reader β}
    (hc : ¬ c) (hs : Reads s bs b) : Reads (if c then throw e >>= k else s) bs b := by
  rw [if_neg hc]
  exact hs

end Reads

/-! ## Numbers -/

theorem split_append (bs rest : Bytes) : split bs.length (bs ++ rest) = some (bs, rest) := by
  induction bs with
  | nil => rfl
  | cons b bs ih => rw [List.length_cons, List.cons_append, split, ih]; rfl

theorem take_reads {n : Nat} (h : bs.length = n) : Reads (take n) bs bs := by
  intro rest
  rw [take, ← h, split_append]

theorem byte_reads (b : UInt8) : Reads byte [b] b :=
  Reads.andThen (take_reads rfl) (Reads.pure b)

theorem word_reads (w : UInt64) : Reads word (Bytes.ofWord w) w := by
  refine Reads.andThen (take_reads (Word.length_bytes w)) ?_
  rw [Bytes.ofWord, Word.ofBytes_bytes]
  exact Reads.pure w

/-- Of a number that does not fit a word, the lowest digits are read. -/
theorem nat_reads_mod (n : Nat) : Reads nat (Bytes.ofNat n) (n % 2 ^ 64) := by
  refine Reads.andThen (word_reads (UInt64.ofNat n)) ?_
  rw [UInt64.toNat_ofNat']
  exact Reads.pure (n % 2 ^ 64)

theorem nat_reads {n : Nat} (h : n < 2 ^ 64) : Reads nat (Bytes.ofNat n) n := by
  have hread := nat_reads_mod n
  rwa [Nat.mod_eq_of_lt h] at hread

theorem nat16_reads_mod (n : Nat) : Reads nat16 (Bytes.ofNat16 n) (n % 2 ^ 16) := by
  have hlen : (Bytes.ofNat16 n).length = 2 := by
    rw [Bytes.ofNat16, List.length_take, Bytes.ofNat, Bytes.ofWord, Word.length_bytes]
    rfl
  have hvalue : (Word.ofBytes (Bytes.ofNat16 n)).toNat = n % 2 ^ 16 := by
    rw [Bytes.ofNat16, Bytes.ofNat, Bytes.ofWord, Word.toNat_ofBytes_take _ (by decide),
      UInt64.toNat_ofNat']
    exact Nat.mod_mod_of_dvd n (by decide)
  refine Reads.andThen (take_reads hlen) ?_
  rw [hvalue]
  exact Reads.pure (n % 2 ^ 16)

theorem nat16_reads {n : Nat} (h : n < 2 ^ 16) : Reads nat16 (Bytes.ofNat16 n) n := by
  have hread := nat16_reads_mod n
  rwa [Nat.mod_eq_of_lt h] at hread

theorem double_reads (x : Double) : Reads double (Bytes.ofDouble x) x :=
  Reads.andThen (word_reads x.bits) (Reads.pure x)

/-! ## Lists -/

theorem times_reads {write : β → Bytes} {value : β → α} {xs : List β}
    (h : ∀ x ∈ xs, Reads r (write x) (value x)) :
    Reads (times r xs.length) (xs.flatMap write) (xs.map value) := by
  induction xs with
  | nil => exact Reads.pure []
  | cons x xs ih =>
    obtain ⟨hx, hxs⟩ := List.forall_mem_cons.1 h
    rw [List.flatMap_cons]
    exact Reads.bind hx (Reads.andThen (ih hxs) (Reads.pure _))

theorem list_reads {write : β → Bytes} {value : β → α} {xs : List β}
    (hlen : xs.length < 2 ^ 64) (h : ∀ x ∈ xs, Reads r (write x) (value x)) :
    Reads (list r) (Bytes.ofList write xs) (xs.map value) :=
  Reads.bind (nat_reads hlen) (times_reads h)

theorem list_reads_self {write : α → Bytes} {xs : List α} (hlen : xs.length < 2 ^ 64)
    (h : ∀ x ∈ xs, Reads r (write x) x) : Reads (list r) (Bytes.ofList write xs) xs := by
  have hread := list_reads hlen (fun x hx => show Reads r (write x) (id x) from h x hx)
  rwa [List.map_id] at hread

end Reader

end GeneticProgramming
