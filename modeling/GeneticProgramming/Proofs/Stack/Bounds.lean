import GeneticProgramming.Proofs.Stack.Runs
import GeneticProgramming.Proofs.Value.Bytes

/-!
# Ranges at the limits of machine words

Ranges of bytes are looked up with machine words: the end of a range is a sum, and so are the ends of
the pages, which are taken off the size one after another.  A sum that is no word either ends the
computation, or only its low bits are kept; `Overflow` tells the two apart.  As long as the end of a
range is a word, the range is found if it lies on the stack and in one page, and it is refused
otherwise.  Where it is not, the range lies on no stack, and still it is never just refused: checked
sums end the computation, and wrapped ones pass the comparison with the size, so that the range is
found in spite of it.  Both are said by `Stack.access_bounded`.
-/

namespace GeneticProgramming

/-! ## Words -/

/-- What becomes of a result that is no machine word. -/
inductive Overflow where
  /-- It ends the computation. -/
  | faults
  /-- Its low bits are kept. -/
  | wraps
deriving DecidableEq, Repr

namespace Overflow

variable {a b c : Nat}

def add : Overflow → Nat → Nat → Except Fault Nat
  | faults, a, b => demandWord (a + b)
  | wraps, a, b => .ok ((a + b) % 2 ^ 64)

def sub : Overflow → Nat → Nat → Except Fault Nat
  | faults, a, b => if a < b then .error .overflow else .ok (a - b)
  | wraps, a, b => .ok ((a + (2 ^ 64 - b)) % 2 ^ 64)

theorem add_of_lt (o : Overflow) (h : a + b < 2 ^ 64) : o.add a b = .ok (a + b) := by
  cases o with
  | faults => exact demandWord_of_lt h
  | wraps => exact congrArg Except.ok (Nat.mod_eq_of_lt h)

theorem sub_of_le (o : Overflow) (hle : b ≤ a) (ha : a < 2 ^ 64) : o.sub a b = .ok (a - b) := by
  cases o with
  | faults => exact if_neg (Nat.not_lt.2 hle)
  | wraps =>
    refine congrArg Except.ok ?_
    omega

theorem add_faults (h : 2 ^ 64 ≤ a + b) : faults.add a b = .error .overflow :=
  if_neg (Nat.not_lt.2 h)

theorem add_wraps (h : a + b = 2 ^ 64 + c) (hc : c < 2 ^ 64) : wraps.add a b = .ok c := by
  refine congrArg Except.ok ?_
  rw [h, Nat.add_mod_left, Nat.mod_eq_of_lt hc]

theorem sub_wraps (h : a + 2 ^ 64 = b + c) (hb : b < 2 ^ 64) (hc : c < 2 ^ 64) :
    wraps.sub a b = .ok c := by
  refine congrArg Except.ok ?_
  omega

end Overflow

namespace Stack

/-! ## Looking ranges up -/

/-- Walks down the pages, the end of the first one being known. -/
def searchBy (o : Overflow) (start size : Nat) : List Page → Nat → Except Fault (Option Place)
  | [], _ => return none
  | p :: ps, stop => do
    let first ← o.sub stop (8 * p.used)
    if first ≤ start then
      if stop < (← o.add start size) then return none
      return some ⟨p, ← o.sub start first⟩
    else searchBy o start size ps first

/-- Finds a range of bytes by its distance from the oldest one. -/
def locateBy (s : Stack) (o : Overflow) (start size : Nat) :
    Except Fault (Except StackError Place) := do
  let refused := StackError.outOfRange start size s.size
  if s.size < (← o.add start size) then return .error refused
  if size = 0 then return .ok ⟨.new 0, 0⟩
  match ← searchBy o start size s.pages s.size with
  | some place => return .ok place
  | none => return .error refused

/-- Finds a range of bytes by its distance from the newest one. -/
def locateBackBy (s : Stack) (o : Overflow) (offset size : Nat) :
    Except Fault (Except StackError Place) := do
  if s.size < (← o.add offset size) then return .error (.outOfRange offset size s.size)
  s.locateBy o (← o.sub (← o.sub s.size offset) size) size

/-- Bytes that are read where they lie. -/
structure Slice where
  place : Place
  size : Nat
deriving DecidableEq, Repr

/-- Those of the bytes that lie in the page. -/
def Slice.bytes (x : Slice) : List UInt8 := (x.place.page.bytes.drop x.place.below).take x.size

/-- Reads a range of bytes by its distance from the newest byte. -/
def sliceBy (s : Stack) (o : Overflow) (offset size : Nat) :
    Except Fault (Except StackError Slice) := do
  return (← s.locateBackBy o offset size).map (⟨·, size⟩)

/-! ### Ranges that end at a word -/

section Ordinary

variable {s : Stack} {o : Overflow} {start offset size : Nat}

theorem searchBy_eq (hend : start + size < 2 ^ 64) (ps : List Page)
    (hps : 8 * (ps.map Page.used).sum < 2 ^ 64) :
    searchBy o start size ps (8 * (ps.map Page.used).sum) =
      .ok (search start size ps (8 * (ps.map Page.used).sum)) := by
  induction ps with
  | nil => rfl
  | cons p ps ih =>
    rw [List.map_cons, List.sum_cons] at hps ⊢
    have hfirst : 8 * (p.used + (ps.map Page.used).sum) - 8 * p.used =
        8 * (ps.map Page.used).sum := by omega
    rw [searchBy, search, o.sub_of_le (by omega) hps, o.add_of_lt hend]
    simp only [hfirst, bind, Except.bind]
    split
    · next hle =>
      rw [o.sub_of_le hle (by omega)]
      split
      · rfl
      · rfl
    · exact ih (by omega)

theorem locateBy_eq (hs : s.size < 2 ^ 64) (hend : start + size < 2 ^ 64) :
    s.locateBy o start size = .ok (s.locate start size) := by
  unfold locateBy locate
  have hsearch := searchBy_eq (o := o) hend s.pages hs
  rw [o.add_of_lt hend]
  simp only [bind, Except.bind, pure, Except.pure]
  split
  · rfl
  · split
    · rfl
    · change searchBy o start size s.pages s.size = .ok (search start size s.pages s.size) at hsearch
      rw [hsearch]
      dsimp only
      cases search start size s.pages s.size with
      | some place => rfl
      | none => rfl

theorem locateBackBy_eq (hs : s.size < 2 ^ 64) (hend : offset + size < 2 ^ 64) :
    s.locateBackBy o offset size = .ok (s.locateBack offset size) := by
  unfold locateBackBy locateBack
  rw [o.add_of_lt hend]
  simp only [bind, Except.bind, pure, Except.pure]
  split
  · rfl
  · next hle =>
    rw [o.sub_of_le (by omega) hs]
    dsimp only
    rw [o.sub_of_le (by omega) (by omega)]
    exact locateBy_eq hs (by omega)

end Ordinary

/-! ## Where ranges lie -/

/-- A range of bytes lies at a place, in one page.  A range without bytes lies anywhere. -/
structure Lies (s : Stack) (start size : Nat) (place : Place) : Prop where
  onStack : start + size ≤ s.size
  inPage : size = 0 ∨ ∃ older, place.page :: older <:+ s.pages ∧
    start = 8 * (older.map Page.used).sum + place.below ∧ place.below + size ≤ 8 * place.page.used

/-- The same of a range by its distance from the newest byte. -/
def LiesBack (s : Stack) (offset size : Nat) (place : Place) : Prop :=
  ∃ start, start + (offset + size) = s.size ∧ s.Lies start size place

/-- The bytes of a stack, the oldest first. -/
def bytes (s : Stack) : List UInt8 := s.contents.flatMap Cell.bytes

section Lies

variable {s : Stack} {start offset size : Nat} {place : Place} {ps : List Page}

theorem sum_le_of_suffix {older : List Page} {p : Page} (h : p :: older <:+ ps) :
    p.used + (older.map Page.used).sum ≤ (ps.map Page.used).sum := by
  obtain ⟨newer, rfl⟩ := h
  simp only [List.map_append, List.map_cons, List.sum_append, List.sum_cons]
  exact Nat.le_add_left _ _

/-- A search finds the one page that has the range. -/
theorem search_eq_some_iff (hsize : 0 < size) (ps : List Page) :
    search start size ps (8 * (ps.map Page.used).sum) = some place ↔
      ∃ older, place.page :: older <:+ ps ∧ start = 8 * (older.map Page.used).sum + place.below ∧
        place.below + size ≤ 8 * place.page.used := by
  induction ps with
  | nil =>
    constructor
    · intro h
      contradiction
    · rintro ⟨older, h, -⟩
      exact absurd (List.suffix_nil.1 h) (List.cons_ne_nil _ _)
  | cons p ps ih =>
    have hfirst : 8 * ((p :: ps).map Page.used).sum - 8 * p.used = 8 * (ps.map Page.used).sum := by
      rw [List.map_cons, List.sum_cons]; omega
    rw [search]
    simp only [hfirst, List.suffix_cons_iff]
    split
    · next hle =>
      -- the range starts in the newest page, so it lies in no page below that
      have hnewest : ∀ older, place.page :: older <:+ ps →
          start = 8 * (older.map Page.used).sum + place.below →
          ¬ place.below + size ≤ 8 * place.page.used := by
        intro older hsuf hstart hfits
        have := sum_le_of_suffix hsuf
        omega
      split
      · next hlong =>
        constructor
        · intro h
          contradiction
        · rintro ⟨older, heq | hsuf, hstart, hfits⟩
          · obtain ⟨rfl, rfl⟩ := List.cons.inj heq
            rw [List.map_cons, List.sum_cons] at hlong
            omega
          · exact absurd hfits (hnewest older hsuf hstart)
      · next hshort =>
        rw [List.map_cons, List.sum_cons] at hshort
        constructor
        · intro h
          injection h with h
          subst h
          exact ⟨ps, .inl rfl, (Nat.add_sub_cancel' hle).symm, by dsimp only; omega⟩
        · rintro ⟨older, heq | hsuf, hstart, hfits⟩
          · obtain ⟨rfl, rfl⟩ := List.cons.inj heq
            rw [hstart, Nat.add_sub_cancel_left]
          · exact absurd hfits (hnewest older hsuf hstart)
    · next hlt =>
      rw [ih]
      constructor
      · rintro ⟨older, hsuf, hrest⟩
        exact ⟨older, .inr hsuf, hrest⟩
      · rintro ⟨older, heq | hsuf, hstart, hfits⟩
        · obtain ⟨rfl, rfl⟩ := List.cons.inj heq
          omega
        · exact ⟨older, hsuf, hstart, hfits⟩

/-- Whatever lies in a page reads as it does on the whole stack. -/
theorem Lies.bytes_eq (h : s.Lies start size place) :
    (place.page.bytes.drop place.below).take size = (s.bytes.drop start).take size := by
  rcases h.inPage with rfl | ⟨older, hsuf, rfl, hfits⟩
  · rw [List.take_zero, List.take_zero]
  · obtain ⟨above, habove⟩ := Holds.drop_contents hsuf
    have hlen : place.page.bytes.length = 8 * place.page.used := by
      rw [Page.bytes, Cell.length_flatMap_bytes, List.length_reverse, Page.used]
    rw [bytes, ← List.drop_drop, Cell.drop_flatMap_bytes, habove, List.flatMap_append]
    change _ = ((place.page.bytes ++ _).drop place.below).take size
    rw [List.drop_append_of_le_length (by omega),
      List.take_append_of_le_length (by rw [List.length_drop]; omega)]

end Lies

/-! ## Answers -/

/-- The answer to a question for so many bytes.  It tells of what meets a condition, if there is such
a thing, and otherwise that the range, which begins where it says, is not there. -/
def Answers {α : Type} (s : Stack) (condition : α → Prop) (start size : Nat)
    (answer : Except Fault (Except StackError α)) : Prop :=
  (∃ a, answer = .ok (.ok a) ∧ condition a) ∨
    answer = .ok (.error (.outOfRange start size s.size)) ∧ ∀ a, ¬ condition a

/-- What a refusal by distance from the newest byte calls the beginning of the range: the distance, as
long as nothing but the sum was compared, and then the distance from the oldest byte. -/
def told (s : Stack) (offset sum : Nat) : Nat := if s.size < sum then offset else s.size - sum

/-- A range is found if it lies on the stack and in one page, and refused otherwise. -/
structure Guards (s : Stack) (o : Overflow) (offset size : Nat) : Prop where
  forward : s.Answers (s.Lies offset size) offset size (s.locateBy o offset size)
  backward : s.Answers (s.LiesBack offset size) (s.told offset (offset + size)) size
    (s.locateBackBy o offset size)
  bytes : s.Answers (fun x : Slice => x.size = size ∧ s.LiesBack offset size x.place ∧
      x.bytes = (s.bytes.drop (s.size - (offset + size))).take size)
    (s.told offset (offset + size)) size (s.sliceBy o offset size)

section Answers

variable {s : Stack} {o : Overflow} {start offset size : Nat}

theorem answers_locate (s : Stack) (start size : Nat) :
    s.Answers (s.Lies start size) start size (.ok (s.locate start size)) := by
  unfold locate
  dsimp only
  split
  · next hout =>
    exact .inr ⟨rfl, fun place h => absurd h.onStack (Nat.not_le.2 hout)⟩
  · next hon =>
    split
    · next hzero => exact .inl ⟨_, rfl, Nat.le_of_not_lt hon, .inl hzero⟩
    · next hsize =>
      have hfound : ∀ place, search start size s.pages s.size = some place ↔ _ :=
        fun place => search_eq_some_iff (Nat.pos_of_ne_zero hsize) s.pages
      cases hsearch : search start size s.pages s.size with
      | some place =>
        exact .inl ⟨place, rfl, Nat.le_of_not_lt hon, .inr ((hfound place).1 hsearch)⟩
      | none =>
        refine .inr ⟨rfl, fun place h => ?_⟩
        have hlies := (hfound place).2 (h.inPage.resolve_left hsize)
        rw [hsearch] at hlies
        contradiction

theorem answers_locateBack (s : Stack) (offset size : Nat) :
    s.Answers (s.LiesBack offset size) (s.told offset (offset + size)) size
      (.ok (s.locateBack offset size)) := by
  unfold locateBack told
  split
  · next hout =>
    refine .inr ⟨rfl, ?_⟩
    rintro place ⟨start, hstart, -⟩
    omega
  · next hon =>
    rw [Nat.sub_sub]
    rcases answers_locate s (s.size - (offset + size)) size with ⟨place, hplace, hlies⟩ | ⟨hno, hlies⟩
    · exact .inl ⟨place, hplace, _, Nat.sub_add_cancel (Nat.le_of_not_lt hon), hlies⟩
    · refine .inr ⟨hno, ?_⟩
      rintro place ⟨start, hstart, hplace⟩
      obtain rfl : start = s.size - (offset + size) := by omega
      exact hlies place hplace

/-- As long as the ends of ranges are words, nothing depends on what becomes of other sums. -/
theorem guards_of_lt (o : Overflow) (hs : s.size < 2 ^ 64) (hend : offset + size < 2 ^ 64) :
    s.Guards o offset size := by
  have hback := answers_locateBack s offset size
  refine ⟨?_, ?_, ?_⟩
  · rw [locateBy_eq hs hend]
    exact answers_locate s offset size
  · rw [locateBackBy_eq hs hend]
    exact hback
  · unfold sliceBy
    rw [locateBackBy_eq hs hend]
    rcases hback with ⟨place, hplace, hlies⟩ | ⟨hno, hlies⟩
    · injection hplace with hplace
      rw [hplace]
      refine .inl ⟨⟨place, size⟩, rfl, rfl, hlies, ?_⟩
      obtain ⟨start, hstart, hlies⟩ := hlies
      rw [← hstart, Nat.add_sub_cancel]
      exact hlies.bytes_eq
    · injection hno with hno
      rw [hno]
      exact .inr ⟨rfl, fun x h => hlies x.place h.2.1⟩

end Answers

/-! ### Ranges that end beyond all words -/

/-- No range lies on a stack whose end is no word.  Checked sums end the computation.  Wrapped ones
let the range pass, unless they exceed the size as well. -/
structure Slips (s : Stack) (offset size : Nat) : Prop where
  nowhere : ∀ place, ¬ s.Lies offset size place ∧ ¬ s.LiesBack offset size place
  faults : s.locateBy .faults offset size = .error .overflow ∧
    s.locateBackBy .faults offset size = .error .overflow ∧
    s.sliceBy .faults offset size = .error .overflow
  forward : s.Answers (fun _ => s.pages ≠ [] ∧ (offset + size) % 2 ^ 64 ≤ s.size) offset size
    (s.locateBy .wraps offset size)
  backward : s.Answers (fun _ => offset ≤ s.size) (s.told offset ((offset + size) % 2 ^ 64)) size
    (s.locateBackBy .wraps offset size)
  bytes : s.Answers (fun x : Slice => x.size = size ∧ offset ≤ s.size)
    (s.told offset ((offset + size) % 2 ^ 64)) size (s.sliceBy .wraps offset size)

section Slips

variable {s : Stack} {start offset size sum : Nat}

/-- A page that begins below the range takes it for its own: its end lies above the wrapped one. -/
theorem searchBy_wraps (hstart : start < 2 ^ 64) (hsize : size < 2 ^ 64)
    (hsum : start + size = 2 ^ 64 + sum) {ps : List Page} (hne : ps ≠ [])
    (hps : 8 * (ps.map Page.used).sum < 2 ^ 64) (hstop : sum ≤ 8 * (ps.map Page.used).sum) :
    ∃ place, searchBy .wraps start size ps (8 * (ps.map Page.used).sum) = .ok (some place) := by
  induction ps with
  | nil => exact absurd rfl hne
  | cons p ps ih =>
    have hfirst : 8 * ((p :: ps).map Page.used).sum - 8 * p.used = 8 * (ps.map Page.used).sum := by
      rw [List.map_cons, List.sum_cons]; omega
    have hle : 8 * p.used ≤ 8 * ((p :: ps).map Page.used).sum := by
      rw [List.map_cons, List.sum_cons]; omega
    rw [searchBy, Overflow.sub_of_le _ hle hps, Overflow.add_wraps hsum (by omega)]
    simp only [hfirst, bind, Except.bind]
    split
    · next hbelow =>
      rw [if_neg (Nat.not_lt.2 hstop), Overflow.sub_of_le _ hbelow hstart]
      exact ⟨_, rfl⟩
    · next habove =>
      -- the wrapped end lies below the start, and the start below the end of the next page
      refine ih ?_ (by omega) (by omega)
      rintro rfl
      exact habove (Nat.zero_le _)

theorem answers_locateBy_wraps (hs : s.size < 2 ^ 64) (hstart : start < 2 ^ 64)
    (hsize : size < 2 ^ 64) (hsum : start + size = 2 ^ 64 + sum) :
    s.Answers (fun _ => s.pages ≠ [] ∧ sum ≤ s.size) start size (s.locateBy .wraps start size) := by
  unfold locateBy
  rw [Overflow.add_wraps hsum (by omega)]
  simp only [bind, Except.bind, pure, Except.pure]
  split
  · next hout => exact .inr ⟨rfl, fun _ h => absurd h.2 (Nat.not_le.2 hout)⟩
  · next hon =>
    rw [if_neg (by omega)]
    by_cases hpages : s.pages = []
    · refine .inr ⟨?_, fun _ h => h.1 hpages⟩
      rw [hpages]
      rfl
    · obtain ⟨place, hplace⟩ :=
        searchBy_wraps hstart hsize hsum hpages hs (Nat.le_of_not_lt hon)
      change searchBy .wraps start size s.pages s.size = .ok (some place) at hplace
      rw [hplace]
      exact .inl ⟨place, rfl, hpages, Nat.le_of_not_lt hon⟩

theorem answers_locateBackBy_wraps (hs : s.size < 2 ^ 64) (hoffset : offset < 2 ^ 64)
    (hsize : size < 2 ^ 64) (hsum : offset + size = 2 ^ 64 + sum) :
    s.Answers (fun _ => offset ≤ s.size) (s.told offset sum) size
      (s.locateBackBy .wraps offset size) := by
  unfold locateBackBy told
  rw [Overflow.add_wraps hsum (by omega)]
  simp only [bind, Except.bind]
  split
  · exact .inr ⟨rfl, fun _ h => by omega⟩
  · next hon =>
    -- whatever wraps on the way, the start comes out as the wrapped sum below the size
    obtain ⟨start, hstart⟩ := Nat.exists_eq_add_of_le (Nat.le_of_not_lt hon)
    rw [hstart, Nat.add_sub_cancel_left, ← hstart]
    by_cases hle : offset ≤ s.size
    · rw [Overflow.sub_of_le _ hle hs]
      dsimp only
      rw [Overflow.sub_wraps (c := start) (by omega) hsize (by omega)]
      have hpages : s.pages ≠ [] := by
        intro hnil
        have hzero : s.size = 0 := by rw [Stack.size, words, hnil]; rfl
        omega
      have hend : start + size = 2 ^ 64 + (s.size - offset) := by omega
      rcases answers_locateBy_wraps hs (by omega) hsize hend with ⟨place, hplace, -⟩ | ⟨-, hno⟩
      · exact .inl ⟨place, hplace, hle⟩
      · exact absurd ⟨hpages, Nat.sub_le _ _⟩ (hno ⟨.new 0, 0⟩)
    · have hdistance : s.size + 2 ^ 64 = offset + (start + size) := by omega
      rw [Overflow.sub_wraps hdistance hoffset (by omega)]
      dsimp only
      rw [Overflow.sub_of_le _ (Nat.le_add_left _ _) (by omega), Nat.add_sub_cancel]
      dsimp only
      -- the end of the range from there on is a word again, and exceeds the size
      rw [locateBy_eq hs (by omega), locate, if_pos (by omega)]
      exact .inr ⟨rfl, fun _ h => hle h⟩

theorem slips_of_le (hs : s.size < 2 ^ 64) (hoffset : offset < 2 ^ 64) (hsize : size < 2 ^ 64)
    (hend : 2 ^ 64 ≤ offset + size) : s.Slips offset size := by
  obtain ⟨sum, hsum⟩ := Nat.exists_eq_add_of_le hend
  have hmod : (offset + size) % 2 ^ 64 = sum := by omega
  have hback := answers_locateBackBy_wraps hs hoffset hsize hsum
  refine ⟨fun place => ⟨fun h => ?_, ?_⟩, ⟨?_, ?_, ?_⟩, ?_, ?_, ?_⟩
  · exact absurd h.onStack (by omega)
  · rintro ⟨start, hstart, -⟩
    omega
  · rw [locateBy, Overflow.add_faults hend]
    rfl
  · rw [locateBackBy, Overflow.add_faults hend]
    rfl
  · rw [sliceBy, locateBackBy, Overflow.add_faults hend]
    rfl
  · rw [hmod]
    exact answers_locateBy_wraps hs hoffset hsize hsum
  · rw [hmod]
    exact hback
  · rw [hmod, sliceBy]
    rcases hback with ⟨place, hplace, hle⟩ | ⟨hno, hle⟩
    · rw [hplace]
      exact .inl ⟨⟨place, size⟩, rfl, rfl, hle⟩
    · rw [hno]
      exact .inr ⟨rfl, fun x h => hle x.place h.2⟩

end Slips

/-! ## Every request -/

section Requests

variable {s : Stack}

theorem checkRange_of_lt {offset size : Nat} (h : offset + size < 2 ^ 64) :
    checkRange offset size = .ok () := by
  rw [checkRange, demandWord_of_lt h]
  rfl

theorem checkRange_of_le {offset size : Nat} (h : 2 ^ 64 ≤ offset + size) :
    checkRange offset size = .error .overflow := by
  rw [checkRange, demandWord, if_neg (Nat.not_lt.2 h)]
  rfl

/-- With checked sums, ranges are looked up as the stack itself does it. -/
structure Agrees (s : Stack) (offset size : Nat) : Prop where
  forward : s.locateBy .faults offset size = do
    checkRange offset size
    return s.locate offset size
  backward : s.locateBackBy .faults offset size = do
    checkRange offset size
    return s.locateBack offset size
  bytes : (s.sliceBy .faults offset size).map (·.map Slice.bytes) = do
    checkRange offset size
    return s.bytesAt offset size

theorem agrees (hs : s.size < 2 ^ 64) (offset size : Nat) : s.Agrees offset size := by
  by_cases hend : offset + size < 2 ^ 64
  · refine ⟨?_, ?_, ?_⟩
    · rw [checkRange_of_lt hend, locateBy_eq hs hend]
      rfl
    · rw [checkRange_of_lt hend, locateBackBy_eq hs hend]
      rfl
    · rw [checkRange_of_lt hend, sliceBy, locateBackBy_eq hs hend, bytesAt]
      cases s.locateBack offset size with
      | ok place => rfl
      | error e => rfl
  · have hfault := checkRange_of_le (Nat.le_of_not_lt hend)
    have hadd := Overflow.add_faults (Nat.le_of_not_lt hend)
    refine ⟨?_, ?_, ?_⟩
    · rw [hfault, locateBy, hadd]
      rfl
    · rw [hfault, locateBackBy, hadd]
      rfl
    · rw [hfault, sliceBy, locateBackBy, hadd]
      rfl

/-- Whatever pages a stack has: where the end of a range is a word, the range is found if it lies on
the stack and in one page, and refused otherwise, with checked sums as with wrapped ones.  Where it is
not, the range lies nowhere; checked sums end the computation, and wrapped ones let the range pass
unless they exceed the size. -/
theorem access_bounded (hs : s.size < 2 ^ 64) (offset size : UInt64) :
    s.Agrees offset.toNat size.toNat ∧
      (offset.toNat + size.toNat < 2 ^ 64 → ∀ o, s.Guards o offset.toNat size.toNat) ∧
      (2 ^ 64 ≤ offset.toNat + size.toNat → s.Slips offset.toNat size.toNat) := by
  refine ⟨agrees hs _ _, fun hend o => guards_of_lt o hs hend, fun hend => ?_⟩
  exact slips_of_le hs offset.toNat_lt size.toNat_lt hend

/-- A stack of one value. -/
def oneWord : Stack := Stack.empty.push (.scalar .uint64) 1

theorem access_bounded_oneWord : oneWord.size < 2 ^ 64 ∧ oneWord.Agrees 0 8 ∧
    (∀ o, oneWord.Guards o 0 8) ∧ oneWord.Slips 8 18446744073709551608 := by
  have hs : oneWord.size < 2 ^ 64 := by decide +kernel
  obtain ⟨hagrees, hguards, -⟩ := access_bounded hs 0 8
  obtain ⟨-, -, hslips⟩ := access_bounded hs 8 18446744073709551608
  exact ⟨hs, hagrees, hguards (by decide), hslips (by decide)⟩

/-- A range that begins behind the only word, and whose end wraps around to where it began, lies
nowhere, and still nobody is told so. -/
theorem wrapped_range_found :
    (∀ place, ¬ oneWord.Lies 8 18446744073709551608 place ∧
      ¬ oneWord.LiesBack 8 18446744073709551608 place) ∧
    checkRange 8 18446744073709551608 = .error .overflow ∧
    ∃ p, oneWord.pages = [p] ∧
      oneWord.locateBy .wraps 8 18446744073709551608 = .ok (.ok ⟨p, 8⟩) ∧
      oneWord.locateBackBy .wraps 8 18446744073709551608 = .ok (.ok ⟨p, 8⟩) ∧
      oneWord.sliceBy .wraps 8 18446744073709551608 =
        .ok (.ok ⟨⟨p, 8⟩, 18446744073709551608⟩) := by
  have hsize : oneWord.size = 8 := by decide +kernel
  refine ⟨fun place => ⟨fun h => ?_, ?_⟩, by decide +kernel, _, rfl, by decide +kernel,
    by decide +kernel, by decide +kernel⟩
  · exact absurd h.onStack (by omega)
  · rintro ⟨start, hstart, -⟩
    omega

end Requests

end Stack

end GeneticProgramming
