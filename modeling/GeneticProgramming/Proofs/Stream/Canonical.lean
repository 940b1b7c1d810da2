import GeneticProgramming.Proofs.Stream.Exact
import GeneticProgramming.Proofs.Stream.Taking

/-!
# Encodings of a tree

Of the byte that holds a record's flags, a reader looks at the lowest two bits only.  These spare
bits are all that a stream may hold beyond a tree: `Tree.cleared` takes them away, and what is left
is the written form of the tree.  `Tree.read_cleared` says so of all bytes that are read, and that
just the streams which differ in nothing else are read as the same tree.
-/

namespace GeneticProgramming

open Reader

variable {C : Type} {p : Palette C}

/-! ## Flags -/

namespace Flags

theorem bits_ofBits (b : UInt8) : (ofBits b).bits = b &&& 3 := by
  cases b with
  | ofBitVec b =>
    cases b with
    | ofFin b =>
      revert b
      decide +kernel

theorem ofBits_eq_iff {b : UInt8} {f : Flags} : ofBits b = f ↔ b &&& 3 = f.bits := by
  constructor
  · rintro rfl
    exact (bits_ofBits b).symm
  · intro h
    rw [← ofBits_bits f, ← h, ← bits_ofBits, ofBits_bits]

/-- A byte has no spare bits if it is less than four. -/
theorem and_three_eq_iff {b : UInt8} : b &&& 3 = b ↔ b < 4 := by
  have hmod : (b &&& 3).toNat = b.toNat % 4 := Nat.and_two_pow_sub_one_eq_mod b.toNat 2
  rw [← UInt8.toNat_inj, hmod, UInt8.lt_iff_toNat_lt]
  change _ ↔ b.toNat < 4
  omega

end Flags

/-! ## Records -/

namespace Record

/-- Clears the spare bits of the last one of each eleven bytes, which are those of a record. -/
def clear (k : Nat) (b : UInt8) : UInt8 := if k % 11 = 10 then b &&& 3 else b

theorem clear_add (k : Nat) (b : UInt8) : clear (k + 11) b = clear k b := by
  rw [clear, Nat.add_mod_right]
  rfl

theorem mapIdx_clear {front : Bytes} (h : front.length = 10) (b : UInt8) :
    (front ++ [b]).mapIdx clear = front ++ [b &&& 3] := by
  have hfront : front.mapIdx clear = front := by
    apply List.ext_getElem
    · exact List.length_mapIdx
    · intro k hk hk'
      rw [List.getElem_mapIdx, clear, if_neg (by omega)]
  rw [List.mapIdx_append, hfront, h]
  rfl

theorem toBytes_eq (r : Record) :
    r.toBytes = (Bytes.ofNat16 r.size ++ Bytes.ofNat r.operator) ++ [r.flags.bits] := rfl

theorem length_front (r : Record) :
    (Bytes.ofNat16 r.size ++ Bytes.ofNat r.operator).length = 10 := by
  simp [Bytes.ofNat16, Bytes.ofNat, Bytes.ofWord, Word.length_bytes]

theorem length_toBytes (r : Record) : r.toBytes.length = 11 := by
  rw [toBytes_eq, List.length_append, r.length_front]
  rfl

/-- A record is read from its written form with any spare bits. -/
theorem isEncoded_iff {r : Record} {bs : Bytes} :
    r.IsEncoded bs ↔ bs.mapIdx clear = r.toBytes := by
  constructor
  · rintro ⟨b, hflags, rfl⟩
    rw [mapIdx_clear r.length_front, Flags.ofBits_eq_iff.1 hflags, toBytes_eq]
  · intro h
    have hlen : bs.length = 11 := by
      rw [← List.length_mapIdx, h, r.length_toBytes]
    obtain ⟨front, b, rfl⟩ : ∃ front b, bs = front ++ [b] := by
      have hne : bs ≠ [] := by
        rintro rfl
        contradiction
      exact ⟨_, _, (List.dropLast_append_getLast hne).symm⟩
    rw [List.length_append, List.length_singleton] at hlen
    rw [mapIdx_clear (Nat.succ.inj hlen), toBytes_eq] at h
    obtain ⟨rfl, hflags⟩ := List.append_inj' h rfl
    injection hflags with hflags
    exact ⟨b, Flags.ofBits_eq_iff.2 hflags, rfl⟩

/-- So are records one after another. -/
theorem areEncoded_iff {rs : List Record} {bs : Bytes} :
    (∃ parts, List.Forall₂ IsEncoded rs parts ∧ bs = parts.flatten) ↔
      bs.mapIdx clear = rs.flatMap toBytes := by
  induction rs generalizing bs with
  | nil =>
    constructor
    · rintro ⟨parts, hparts, rfl⟩
      cases hparts
      rfl
    · intro h
      rw [List.flatMap_nil, List.mapIdx_eq_nil_iff] at h
      exact ⟨[], .nil, h⟩
  | cons r rs ih =>
    have hshift (part : Bytes) (hpart : part.length = 11) :
        (fun k => clear (k + part.length)) = clear := by
      funext k b
      rw [hpart, clear_add]
    constructor
    · rintro ⟨parts, hparts, rfl⟩
      cases hparts with
      | @cons _ part _ parts hpart hparts =>
        rw [List.flatten_cons, List.flatMap_cons, List.mapIdx_append, isEncoded_iff.1 hpart,
          hshift part hpart.length_eq, ih.1 ⟨parts, hparts, rfl⟩]
    · intro h
      have hlen : 11 ≤ bs.length := by
        rw [← List.length_mapIdx, h, List.flatMap_cons, List.length_append, r.length_toBytes]
        exact Nat.le_add_right 11 _
      have hpart : (bs.take 11).length = 11 := by
        rw [List.length_take, Nat.min_eq_left hlen]
      rw [← List.take_append_drop 11 bs, List.mapIdx_append, hshift _ hpart,
        List.flatMap_cons] at h
      obtain ⟨hfirst, hrest⟩ := List.append_inj h (by
        rw [List.length_mapIdx, hpart, r.length_toBytes])
      obtain ⟨parts, hparts, hbs⟩ := ih.2 hrest
      refine ⟨bs.take 11 :: parts, .cons (isEncoded_iff.2 hfirst) hparts, ?_⟩
      rw [List.flatten_cons, ← hbs, List.take_append_drop]

end Record

/-! ## Trees -/

namespace Tree

variable {t : Tree} {bs : Bytes}

/-- The bytes of a tree of so many records without the spare bits of its flags.  The records lie
behind the eight bytes of their number. -/
def cleared (records : Nat) (bs : Bytes) : Bytes :=
  bs.take 8 ++ ((bs.drop 8).take (11 * records)).mapIdx Record.clear ++ bs.drop (8 + 11 * records)

theorem length_cleared (records : Nat) (bs : Bytes) : (cleared records bs).length = bs.length := by
  simp only [cleared, List.length_append, List.length_take, List.length_mapIdx, List.length_drop]
  omega

theorem cleared_append {number records tail : Bytes} (hnumber : number.length = 8) {count : Nat}
    (hrecords : records.length = 11 * count) :
    cleared count (number ++ records ++ tail) = number ++ records.mapIdx Record.clear ++ tail := by
  have hfront : (number ++ records).length = 8 + 11 * count := by
    rw [List.length_append, hnumber, hrecords]
  rw [cleared, List.drop_left' hfront, List.append_assoc number, List.take_left' hnumber,
    List.drop_left' hnumber, List.take_left' hrecords]

theorem length_flatMap_toBytes (rs : List Record) :
    (rs.flatMap Record.toBytes).length = 11 * rs.length := by
  induction rs with
  | nil => rfl
  | cons r rs ih =>
    rw [List.flatMap_cons, List.length_append, r.length_toBytes, ih, List.length_cons]
    omega

theorem length_ofNat (n : Nat) : (Bytes.ofNat n).length = 8 := Word.length_bytes _

/-- A tree is read from its written form with any spare bits. -/
theorem isEncoded_iff : t.IsEncoded bs ↔ cleared t.size bs = t.toBytes := by
  have hbytes : t.toBytes = Bytes.ofNat t.size ++ t.records.flatMap Record.toBytes ++
      (Bytes.ofNat t.literalBytes.length ++ t.literalBytes) := by
    rw [toBytes, Bytes.ofList, List.append_assoc (Bytes.ofNat _ ++ _)]
    rfl
  constructor
  · rintro ⟨parts, hparts, rfl⟩
    have hflat : parts.flatten.length = 11 * t.size := length_flatten_of_isEncoded hparts
    rw [List.append_assoc (_ ++ parts.flatten), cleared_append (length_ofNat _) hflat,
      Record.areEncoded_iff.1 ⟨parts, hparts, rfl⟩, hbytes]
  · intro h
    have hlen : 8 + 11 * t.size ≤ bs.length := by
      rw [← length_cleared t.size bs, h, hbytes, List.length_append, List.length_append,
        length_ofNat, length_flatMap_toBytes]
      exact Nat.le_add_right _ _
    have hnumber : (bs.take 8).length = (Bytes.ofNat t.size).length := by
      rw [List.length_take, length_ofNat]
      omega
    have hrecords : (((bs.drop 8).take (11 * t.size)).mapIdx Record.clear).length =
        (t.records.flatMap Record.toBytes).length := by
      rw [List.length_mapIdx, List.length_take, List.length_drop, length_flatMap_toBytes]
      change min (11 * t.size) _ = 11 * t.size
      omega
    rw [cleared, hbytes] at h
    obtain ⟨hfront, htail⟩ := List.append_inj h (by
      rw [List.length_append, List.length_append, hnumber, hrecords])
    obtain ⟨hcount, hblock⟩ := List.append_inj hfront hnumber
    obtain ⟨parts, hparts, hflat⟩ := Record.areEncoded_iff.2 hblock
    refine ⟨parts, hparts, ?_⟩
    rw [List.append_assoc (_ ++ parts.flatten), ← hcount, ← hflat, ← htail, ← List.drop_drop,
      List.append_assoc, List.take_append_drop, List.take_append_drop]

/-- A stream holds no spare bits if the flags of each record are less than four. -/
theorem cleared_eq_iff {n : Nat} :
    cleared n bs = bs ↔ ∀ i < n, ∀ b, bs[18 + 11 * i]? = some b → b < 4 := by
  have hsplit : bs = bs.take 8 ++ (bs.drop 8).take (11 * n) ++ bs.drop (8 + 11 * n) := by
    rw [← List.drop_drop, List.append_assoc, List.take_append_drop, List.take_append_drop]
  have hblock : cleared n bs = bs ↔
      ((bs.drop 8).take (11 * n)).mapIdx Record.clear = (bs.drop 8).take (11 * n) := by
    rw [cleared]
    nth_rewrite 4 [hsplit]
    rw [List.append_left_inj, List.append_right_inj]
  rw [hblock, List.mapIdx_eq_iff]
  constructor
  · intro h i hi b hb
    have hget : ((bs.drop 8).take (11 * n))[10 + 11 * i]? = some b := by
      rw [List.getElem?_take_of_lt (by omega), List.getElem?_drop]
      convert hb using 2
      omega
    have hclear := h (10 + 11 * i)
    rw [hget, Option.map_some, Record.clear, if_pos (by omega)] at hclear
    exact Flags.and_three_eq_iff.1 (Option.some.inj hclear).symm
  · intro h k
    cases hget : ((bs.drop 8).take (11 * n))[k]? with
    | none => rfl
    | some b =>
      rw [Option.map_some, Record.clear]
      split
      · next hplace =>
        have hk : k < 11 * n := by
          have hlt := (List.getElem?_eq_some_iff.1 hget).1
          rw [List.length_take] at hlt
          exact Nat.lt_of_lt_of_le hlt (Nat.min_le_left _ _)
        have hb : bs[18 + 11 * (k / 11)]? = some b := by
          rw [List.getElem?_take_of_lt hk, List.getElem?_drop] at hget
          convert hget using 2
          omega
        have hlt : b < 4 := h (k / 11) (by omega) b hb
        rw [Flags.and_three_eq_iff.2 hlt]
      · rfl

/-! ## Reading -/

/-- A record that is read is read from all its encodings. -/
theorem readRecord_takes_isEncoded (p : Palette C) (index : Nat) :
    Takes (readRecord p index) fun _ r =>
      ∀ bs, r.IsEncoded bs → Reads (readRecord p index) bs r := by
  refine Takes.bind nat16_takes fun _ size hsize => Takes.bind nat_takes fun _ id hid => ?_
  refine Takes.bind byte_takes fun _ flags _ => ?_
  dsimp only
  split
  · exact Takes.throw _
  · next e he =>
    refine Takes.past fun hfits => Takes.past fun hshared => Takes.past fun hflags => Takes.pure ?_
    rintro _ ⟨b, hb, rfl⟩
    dsimp only at hb
    rw [List.append_assoc]
    refine Reads.bind (nat16_reads hsize.2) (Reads.bind (nat_reads hid.2) ?_)
    refine Reads.andThen (byte_reads b) ?_
    dsimp only
    rw [he, hb]
    exact Reads.past hfits (Reads.past hshared (Reads.past hflags (Reads.pure _)))

theorem readRecords_takes_areEncoded (p : Palette C) (index n : Nat) :
    Takes (readRecords p index n) fun _ rs => rs.length = n ∧
      ∀ parts, List.Forall₂ Record.IsEncoded rs parts →
        Reads (readRecords p index n) parts.flatten rs := by
  induction n generalizing index with
  | zero =>
    refine Takes.pure ⟨rfl, ?_⟩
    rintro _ ⟨⟩
    exact Reads.pure []
  | succ n ih =>
    refine Takes.bind (readRecord_takes_isEncoded p index) fun _ r hr => ?_
    refine Takes.bind (ih (index + 1)) fun _ rs ⟨hlen, hrs⟩ => Takes.pure ?_
    refine ⟨congrArg Nat.succ hlen, fun parts hparts => ?_⟩
    cases hparts with
    | cons hpart hparts =>
      rw [List.flatten_cons]
      exact Reads.bind (hr _ hpart) (Reads.andThen (hrs _ hparts) (Reads.pure (r :: rs)))

/-- A tree that is read is read from all its encodings. -/
theorem read_takes_isEncoded (p : Palette C) :
    Takes (read p) fun _ t => ∀ bs, t.IsEncoded bs → Reads (read p) bs t := by
  refine Takes.bind nat_takes fun _ count hcount => ?_
  refine Takes.bind (readRecords_takes_areEncoded p 0 count) fun _ rs ⟨hlen, hrs⟩ => ?_
  refine Takes.bind nat_takes fun _ found hfound => Takes.past fun hsize => ?_
  refine Takes.bind (take_takes _) fun front payload ⟨_, hpayload⟩ => ?_
  rw [not_not] at hsize
  have hliteral := literalBytes_ofBytes rs ⟨_, hpayload⟩
  dsimp only
  split
  · next hcheck =>
    refine Takes.pure ?_
    rintro _ ⟨parts, hparts, rfl⟩
    rw [hliteral, size, hlen, hpayload, ← hsize, List.append_assoc, List.append_assoc]
    exact reads_of_parts (nat_reads hcount.2) (hrs parts hparts) (hsize ▸ nat_reads hfound.2)
      hpayload hcheck
  · exact Takes.throw _

theorem read_eq_ok_iff {front other rest rest' : Bytes}
    (h : read p (front ++ rest) = .ok (t, rest)) :
    read p (other ++ rest') = .ok (t, rest') ↔ t.IsEncoded other := by
  constructor
  · intro hother
    obtain ⟨bs, hbs, hencoded⟩ := read_takes p _ _ _ hother
    rwa [List.append_cancel_right hbs]
  · intro hencoded
    obtain ⟨_, -, hall⟩ := read_takes_isEncoded p _ _ _ h
    exact hall other hencoded rest'

/-- The bytes that a tree is read from differ from those that are written for it in the spare bits
of the flags and in nothing else, and the tree is read from just the bytes that do not differ from
them in more. -/
theorem read_cleared {bytes rest : Bytes} (h : read p bytes = .ok (t, rest)) :
    ∃ front, bytes = front ++ rest ∧ t.write = .ofBytes (cleared t.size front) ∧
      (t.write = .ofBytes front ↔ ∀ i < t.size, ∀ b, front[18 + 11 * i]? = some b → b < 4) ∧
      ∀ other rest', read p (other ++ rest') = .ok (t, rest') ↔
        cleared t.size other = cleared t.size front := by
  obtain ⟨front, rfl, hencoded⟩ := read_takes p bytes t rest h
  have hplain : t.IsPlain := (read_yields p _ t rest h).2.2
  have hcleared : cleared t.size front = t.toBytes := isEncoded_iff.1 hencoded
  have hwrite : t.write = .ofBytes (cleared t.size front) := by
    rw [write_eq hplain, hcleared]
  refine ⟨front, rfl, hwrite, ?canonical, fun other rest' => ?others⟩
  case canonical =>
    rw [← cleared_eq_iff, hwrite]
    constructor
    · intro hfront
      injection hfront
    · intro hfront
      rw [hfront]
  case others => rw [read_eq_ok_iff h, isEncoded_iff, hcleared]

/-! ### A spare bit -/

/-- A letter alone. -/
def single : Tree := ⟨[⟨0, 8, ⟨true, false⟩⟩], Stack.empty.pushRun [.word 97]⟩

/-- The letter with a bit in its flags that has no meaning. -/
def spareBytes : Bytes :=
  [1, 0, 0, 0, 0, 0, 0, 0] ++ ([8, 0] ++ [0, 0, 0, 0, 0, 0, 0, 0] ++ [5]) ++
    [8, 0, 0, 0, 0, 0, 0, 0] ++ [97, 0, 0, 0, 0, 0, 0, 0]

theorem single_reads : Reads (read SavedState.letters) spareBytes single := by
  have hrecords : ∀ r ∈ single.records, ∃ e, SavedState.letters.entry? r.operator = some e ∧
      r = recordOf e r.operator ∧ e.flags.shared = false := by
    intro r hr
    obtain rfl := List.mem_singleton.1 hr
    exact ⟨_, rfl, rfl, rfl⟩
  have hstorable : single.Storable SavedState.letters :=
    storable_of_data hrecords (by decide) rfl ⟨by decide, by decide⟩
  have hreads := hstorable.reads SavedState.isBuilt_letters SavedState.portable_letters
  have hencoded : single.IsEncoded spareBytes :=
    isEncoded_iff.2 (by decide +kernel : cleared 1 spareBytes = single.toBytes)
  intro rest
  exact (read_eq_ok_iff (hreads [])).2 hencoded

/-- The letter is written without the bit. -/
theorem read_cleared_single : read SavedState.letters (spareBytes ++ [7]) = .ok (single, [7]) ∧
    ∃ front, spareBytes ++ [7] = front ++ [7] ∧
      single.write = .ofBytes (cleared single.size front) ∧
      (single.write = .ofBytes front ↔
        ∀ i < single.size, ∀ b, front[18 + 11 * i]? = some b → b < 4) ∧
      ∀ other rest', read SavedState.letters (other ++ rest') = .ok (single, rest') ↔
        cleared single.size other = cleared single.size front :=
  ⟨single_reads [7], read_cleared (single_reads [7])⟩

/-- Not all bytes that are read as a tree are those that are written for it. -/
theorem read_spare : ¬ ∀ bytes t rest, read SavedState.letters bytes = .ok (t, rest) →
    ∃ front, bytes = front ++ rest ∧ t.write = .ofBytes front := by
  intro h
  obtain ⟨front, hfront, hwrite⟩ := h _ single [] (single_reads [])
  have hwritten : single.write = .ofBytes single.toBytes := rfl
  rw [List.append_nil, List.append_nil] at hfront
  rw [hwritten, ← hfront] at hwrite
  injection hwrite with hbytes
  exact absurd hbytes (by decide +kernel)

end Tree

end GeneticProgramming
