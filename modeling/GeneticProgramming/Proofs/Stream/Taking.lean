import GeneticProgramming.Proofs.Stream.Agreement
import Mathlib.Data.List.Forall2

/-!
# What readers take

`Reader.Takes r P` says of a reader that succeeds, whatever its stream is, which bytes it has taken
from the front to find a value, and that it has left all the others.  It passes through `>>=` as
`Reader.Reads` does, in the other direction.  A tree is read from an encoding of it only, which
`Tree.read_takes` shows: nothing but the spare bits of its flags is up to the writer.
-/

namespace GeneticProgramming

/-! ## Readers -/

namespace Reader

variable {α β : Type} {r : Reader α} {f : α → Reader β} {P P' : Bytes → α → Prop}
  {Q : Bytes → β → Prop}

/-- Each value that is read has been found in the bytes that are missing from the rest. -/
def Takes (r : Reader α) (P : Bytes → α → Prop) : Prop :=
  ∀ s a rest, r s = .ok (a, rest) → ∃ front, s = front ++ rest ∧ P front a

namespace Takes

theorem pure {a : α} (h : P [] a) : Takes (pure a) P := by
  intro s b rest hread
  injection hread with hread
  injection hread with ha hs
  subst ha hs
  exact ⟨[], rfl, h⟩

/-- The next reader goes on behind the bytes that were taken. -/
theorem bind (hr : Takes r P)
    (hf : ∀ front a, P front a → Takes (f a) fun bs b => Q (front ++ bs) b) :
    Takes (r >>= f) Q := by
  intro s b rest hread
  obtain ⟨⟨a, middle⟩, hfirst, hnext⟩ := exists_of_bind_eq_ok hread
  obtain ⟨front, rfl, ha⟩ := hr s a middle hfirst
  obtain ⟨bs, rfl, hb⟩ := hf front a ha middle b rest hnext
  exact ⟨front ++ bs, (List.append_assoc _ _ _).symm, hb⟩

theorem mono (hr : Takes r P) (h : ∀ bs a, P bs a → P' bs a) : Takes r P' := by
  intro s a rest hread
  obtain ⟨front, hs, ha⟩ := hr s a rest hread
  exact ⟨front, hs, h front a ha⟩

theorem throw (e : StreamError) : Takes (throw e : Reader α) P := by
  intro s a rest hread
  contradiction

/-- A value is read only if no check has failed. -/
theorem past {c : Prop} [Decidable c] {e : StreamError} {k : β → Reader α}
    (hr : ¬ c → Takes r P) : Takes (if c then (MonadExcept.throw e : Reader β) >>= k else r) P := by
  intro s a rest hread
  obtain ⟨hc, hread⟩ := past_of_read hread
  exact hr hc s a rest hread

end Takes

/-- What is found in the front of a stream is found there whatever follows it. -/
def IsLocal (r : Reader α) : Prop := Takes r (Reads r)

namespace IsLocal

theorem pure (a : α) : IsLocal (pure a : Reader α) := Takes.pure (Reads.pure a)

theorem throw (e : StreamError) : IsLocal (throw e : Reader α) := Takes.throw e

theorem bind (hr : IsLocal r) (hf : ∀ a, IsLocal (f a)) : IsLocal (r >>= f) :=
  Takes.bind hr fun _ a ha => (hf a).mono fun _ _ hb => ha.bind hb

theorem past {c : Prop} [Decidable c] {e : StreamError} {k : β → Reader α}
    (hr : IsLocal r) : IsLocal (if c then (MonadExcept.throw e : Reader β) >>= k else r) :=
  Takes.past fun hc => hr.mono fun _ _ ha => Reads.past hc ha

end IsLocal

/-! ### Numbers -/

theorem take_takes (n : Nat) : Takes (take n) fun bs a => bs = a ∧ a.length = n := by
  intro s a rest hread
  unfold take at hread
  split at hread
  · next out hsplit =>
    injection hread with hread
    subst hread
    obtain ⟨hs, hlen⟩ := split_eq_some hsplit
    exact ⟨a, hs, rfl, hlen⟩
  · contradiction

theorem take_isLocal (n : Nat) : IsLocal (take n) := by
  refine (take_takes n).mono fun bs a ha => ?_
  obtain ⟨rfl, hlen⟩ := ha
  exact take_reads hlen

theorem byte_isLocal : IsLocal byte := .bind (take_isLocal 1) fun _ => .pure _

theorem nat_isLocal : IsLocal nat := .bind (.bind (take_isLocal 8) fun _ => .pure _) fun _ => .pure _

theorem nat16_isLocal : IsLocal nat16 := .bind (take_isLocal 2) fun _ => .pure _

theorem byte_takes : Takes byte fun bs b => bs = [b] := by
  refine Takes.bind (take_takes 1) fun front a ha => Takes.pure ?_
  obtain ⟨rfl, hlen⟩ := ha
  obtain ⟨b, rfl⟩ := List.length_eq_one_iff.1 hlen
  rfl

theorem word_takes : Takes word fun bs w => bs = Bytes.ofWord w := by
  refine Takes.bind (take_takes 8) fun front a ha => Takes.pure ?_
  obtain ⟨rfl, hlen⟩ := ha
  rw [List.append_nil, Bytes.ofWord, Word.bytes_ofBytes (Nat.le_of_eq hlen), hlen]
  exact (List.append_nil front).symm

theorem nat_takes : Takes nat fun bs n => bs = Bytes.ofNat n ∧ n < 2 ^ 64 := by
  refine Takes.bind word_takes fun front w hw => Takes.pure ⟨?_, w.toNat_lt⟩
  rw [List.append_nil, hw, Bytes.ofNat, UInt64.ofNat_toNat]

theorem nat16_takes : Takes nat16 fun bs n => bs = Bytes.ofNat16 n ∧ n < 2 ^ 16 := by
  refine Takes.bind (take_takes 2) fun front a ha => Takes.pure ?_
  obtain ⟨rfl, hlen⟩ := ha
  have hshort : front.length ≤ 8 := by omega
  have hlt := Word.toNat_ofBytes_lt hshort
  rw [hlen] at hlt
  refine ⟨?_, hlt⟩
  rw [List.append_nil, Bytes.ofNat16, Bytes.ofNat, Bytes.ofWord, UInt64.ofNat_toNat,
    Word.bytes_ofBytes hshort, List.take_left' hlen]

end Reader

open Reader

variable {C : Type} {p : Palette C}

/-! ## Records -/

/-- Bytes that a record is read from.  Of the byte of its flags only two bits are looked at. -/
def Record.IsEncoded (r : Record) (bs : Bytes) : Prop :=
  ∃ b, Flags.ofBits b = r.flags ∧ bs = Bytes.ofNat16 r.size ++ Bytes.ofNat r.operator ++ [b]

theorem Record.IsEncoded.length_eq {r : Record} {bs : Bytes} (h : r.IsEncoded bs) :
    bs.length = 11 := by
  obtain ⟨b, -, rfl⟩ := h
  simp [Bytes.ofNat16, Bytes.ofNat, Bytes.ofWord, Word.length_bytes]

namespace Tree

theorem readRecord_takes (p : Palette C) (index : Nat) :
    Takes (readRecord p index) fun bs r => r.IsEncoded bs := by
  unfold readRecord
  refine Takes.bind nat16_takes fun front size hsize => ?_
  refine Takes.bind nat_takes fun front' id hid => ?_
  refine Takes.bind byte_takes fun front'' b hb => ?_
  obtain ⟨rfl, -⟩ := hsize
  obtain ⟨rfl, -⟩ := hid
  subst hb
  dsimp only
  split
  · exact Takes.throw _
  · refine Takes.past fun _ => Takes.past fun _ => Takes.past fun _ => Takes.pure ⟨b, rfl, ?_⟩
    rw [List.append_nil, List.append_assoc]

theorem readRecords_takes (p : Palette C) (index n : Nat) :
    Takes (readRecords p index n) fun bs rs => rs.length = n ∧
      ∃ parts, bs = parts.flatten ∧ List.Forall₂ Record.IsEncoded rs parts := by
  induction n generalizing index with
  | zero => exact Takes.pure ⟨rfl, [], rfl, .nil⟩
  | succ n ih =>
    refine Takes.bind (readRecord_takes p index) fun front r hr => ?_
    refine Takes.bind (ih (index + 1)) fun front' rs hrs => Takes.pure ?_
    obtain ⟨hlen, parts, rfl, hparts⟩ := hrs
    refine ⟨congrArg Nat.succ hlen, front :: parts, ?_, .cons hr hparts⟩
    rw [List.append_nil, List.flatten_cons]

theorem readRecord_isLocal (p : Palette C) (index : Nat) : IsLocal (readRecord p index) := by
  refine .bind nat16_isLocal fun size => .bind nat_isLocal fun id => .bind byte_isLocal fun b => ?_
  dsimp only
  split
  · exact .throw _
  · exact .past (.past (.past (.pure _)))

theorem readRecords_isLocal (p : Palette C) (index n : Nat) : IsLocal (readRecords p index n) := by
  induction n generalizing index with
  | zero => exact .pure []
  | succ n ih =>
    exact .bind (readRecord_isLocal p index) fun r => .bind (ih (index + 1)) fun rs => .pure _

/-! ## Trees -/

/-- Bytes that a tree is read from. -/
def IsEncoded (t : Tree) (bs : Bytes) : Prop :=
  ∃ parts, List.Forall₂ Record.IsEncoded t.records parts ∧
    bs = Bytes.ofNat t.size ++ parts.flatten ++ Bytes.ofNat t.literalBytes.length ++ t.literalBytes

theorem length_flatten_of_isEncoded {rs : List Record} {parts : List Bytes}
    (h : List.Forall₂ Record.IsEncoded rs parts) : parts.flatten.length = 11 * rs.length := by
  induction h with
  | nil => rfl
  | cons hr _ ih =>
    rw [List.flatten_cons, List.length_append, hr.length_eq, ih, List.length_cons]
    omega

theorem IsEncoded.length_eq {t : Tree} {bs : Bytes} (h : t.IsEncoded bs) :
    bs.length = 16 + 11 * t.size + t.values.size := by
  obtain ⟨parts, hparts, rfl⟩ := h
  have hflat := length_flatten_of_isEncoded hparts
  simp only [List.length_append, Bytes.ofNat, Bytes.ofWord, Word.length_bytes, hflat,
    length_literalBytes, size]
  omega

theorem literalBytes_ofBytes (rs : List Record) {bs : Bytes} (h : 8 ∣ bs.length) :
    literalBytes ⟨rs, Stack.empty.pushRun (Cell.ofBytes bs)⟩ = bs := by
  have hcontents := Stack.contents_pushRun Stack.empty (Cell.ofBytes bs)
  rw [literalBytes, hcontents]
  exact Cell.flatMap_bytes_ofBytes_of_dvd h

theorem read_takes (p : Palette C) : Takes (read p) fun bs t => t.IsEncoded bs := by
  unfold read
  refine Takes.bind nat_takes fun front count hcount => ?_
  refine Takes.bind (readRecords_takes p 0 count) fun front' rs hrs => ?_
  obtain ⟨rfl, -⟩ := hcount
  obtain ⟨hlen, parts, rfl, hparts⟩ := hrs
  refine Takes.bind nat_takes fun front'' found hfound => Takes.past fun hsize => ?_
  obtain ⟨rfl, -⟩ := hfound
  rw [not_not] at hsize
  subst hsize
  refine Takes.bind (take_takes _) fun bytes _ hbytes => ?_
  obtain ⟨rfl, hbytes⟩ := hbytes
  dsimp only
  split
  · refine Takes.pure ⟨parts, hparts, ?_⟩
    have hliteral := literalBytes_ofBytes rs ⟨_, hbytes⟩
    rw [hliteral, hbytes, size, hlen]
    simp only [List.append_assoc, List.append_nil]
  · exact Takes.throw _

end Tree

end GeneticProgramming
