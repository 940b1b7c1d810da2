import GeneticProgramming.Proofs.Outcome
import GeneticProgramming.Stack.Basic

/-!
# Runs on a stack

A run of cells that is pushed at once lies in one page.  `Stack.Holds` lists the runs of a stack,
the oldest first, and says that a page ends only where a run ends.  Pushing adds a run, dropping
takes runs off, and a run that is held can be read in place, whatever pages lie around it: this is
`Stack.Holds.runAt`.  Empty runs leave no trace, and a run may be cut into smaller ones.
-/

namespace GeneticProgramming

/-! ## Positions between runs -/

/-- A position, counted in cells from the first one, at which no run is cut in two. -/
def IsCut (runs : List (List Cell)) (n : Nat) : Prop :=
  ∃ before behind, runs = before ++ behind ∧ n = before.flatten.length

namespace IsCut

variable {a b runs : List (List Cell)} {n : Nat}

theorem length (runs : List (List Cell)) : IsCut runs runs.flatten.length :=
  ⟨runs, [], by simp, rfl⟩

theorem append_iff : IsCut (a ++ b) n ↔
    IsCut a n ∨ ∃ m, IsCut b m ∧ n = a.flatten.length + m := by
  constructor
  · rintro ⟨before, behind, h, rfl⟩
    rcases List.append_eq_append_iff.1 h with ⟨c, rfl, rfl⟩ | ⟨c, rfl, rfl⟩
    · exact .inr ⟨c.flatten.length, ⟨c, behind, rfl, rfl⟩, by simp⟩
    · exact .inl ⟨before, c, rfl, rfl⟩
  · rintro (⟨before, behind, rfl, rfl⟩ | ⟨m, ⟨before, behind, rfl, rfl⟩, rfl⟩)
    · exact ⟨before, behind ++ b, by simp, rfl⟩
    · exact ⟨a ++ before, behind, by simp, by simp⟩

theorem append (h : IsCut a n) (b : List (List Cell)) : IsCut (a ++ b) n :=
  append_iff.2 (.inl h)

theorem of_append_of_le (h : IsCut (a ++ b) n) (hle : n ≤ a.flatten.length) : IsCut a n := by
  rcases append_iff.1 h with ha | ⟨m, -, rfl⟩
  · exact ha
  · rw [show a.flatten.length + m = a.flatten.length by omega]
    exact length a

theorem le (h : IsCut runs n) : n ≤ runs.flatten.length := by
  obtain ⟨before, behind, rfl, rfl⟩ := h
  simp

theorem singleton {run : List Cell} (h : IsCut [run] n) : n = 0 ∨ n = run.length := by
  obtain ⟨before, behind, hrun, rfl⟩ := h
  rcases List.append_eq_cons_iff.1 hrun.symm with ⟨rfl, -⟩ | ⟨c, rfl, hc⟩
  · exact .inl rfl
  · rw [List.nil_eq, List.append_eq_nil_iff] at hc
    rw [hc.1]
    exact .inr (by simp)

/-- No run is cut in two. -/
theorem outside {run : List Cell} (h : IsCut (a ++ [run] ++ b) n) :
    n ≤ a.flatten.length ∨ a.flatten.length + run.length ≤ n := by
  rcases append_iff.1 h with hab | ⟨m, -, rfl⟩
  · rcases append_iff.1 hab with ha | ⟨m, hm, rfl⟩
    · exact .inl ha.le
    · rcases hm.singleton with rfl | rfl
      · exact .inl (Nat.le_refl _)
      · exact .inr (Nat.le_refl _)
  · exact .inr (by simp)

/-- Cutting runs into pieces keeps every cut. -/
theorem refine {pieces : List (List Cell)}
    (h : IsCut (a ++ [pieces.flatten] ++ b) n) : IsCut (a ++ pieces ++ b) n := by
  rcases append_iff.1 h with hab | ⟨m, hm, rfl⟩
  · refine append ?_ b
    rcases append_iff.1 hab with ha | ⟨m, hm, rfl⟩
    · exact ha.append pieces
    · rcases hm.singleton with rfl | rfl
      · exact append (length a) pieces
      · exact append_iff.2 (.inr ⟨_, length pieces, rfl⟩)
  · exact append_iff.2 (.inr ⟨m, hm, by simp⟩)

end IsCut

namespace Stack

/-- No page is empty. -/
def Filled (s : Stack) : Prop := ∀ q ∈ s.pages, q.cells ≠ []

/-- The runs that a stack holds, the oldest first.  A page and those below it end where a run
ends, and no page is empty. -/
structure Holds (s : Stack) (runs : List (List Cell)) : Prop where
  contents : s.contents = runs.flatten
  cuts : ∀ ps, ps <:+ s.pages → IsCut runs (ps.map Page.used).sum
  filled : s.Filled

theorem length_contents (s : Stack) : s.contents.length = s.words := by
  rw [contents, List.length_reverse, words_eq_length_cells]

theorem words_dropFrom (spare : Option Page) (ps : List Page) (n : Nat) :
    (dropFrom spare ps n).words = (ps.map Page.used).sum - n := by
  rw [words_eq_length_cells, cells_dropFrom, List.length_drop, List.length_flatMap]
  rfl

/-- Only the newest page that is left can have changed. -/
theorem pages_dropFrom (spare : Option Page) (ps : List Page) (n : Nat) :
    (dropFrom spare ps n).pages = [] ∨
      ∃ q rest, (dropFrom spare ps n).pages = q :: rest ∧ rest <:+ ps := by
  induction ps generalizing spare n with
  | nil => exact .inl rfl
  | cons p ps ih =>
    unfold dropFrom
    split
    · exact .inr ⟨p, ps, rfl, List.suffix_cons p ps⟩
    · split
      · exact .inr ⟨p.drop n, ps, rfl, List.suffix_cons p ps⟩
      · rcases ih (recycle spare p) (n - p.used) with h | ⟨q, rest, h, hrest⟩
        · exact .inl h
        · exact .inr ⟨q, rest, h, hrest.trans (List.suffix_cons p ps)⟩

/-- Reserving storage leaves the pages alone. -/
theorem pages_reserve {s t : Stack} {bytes : Nat} (h : s.reserve bytes = .ok t) :
    t.pages = s.pages := by
  unfold reserve at h
  obtain ⟨words, -, h⟩ := exists_of_bind_eq_ok h
  dsimp only at h
  split at h
  · injection h with h
    rw [h]
  · obtain ⟨_, -, h⟩ := exists_of_bind_eq_ok h
    injection h with h
    rw [← h]

/-- Storage is refused only to more bytes than can be addressed. -/
theorem reserve_cases (s : Stack) (bytes : Nat) : (∃ t, s.reserve bytes = .ok t) ∨
    s.reserve bytes = .error .overflow ∧ 2 ^ 63 < bytes + 4096 := by
  unfold reserve demandWord
  have hround : roundToWords bytes < bytes + 8 := by unfold roundToWords; omega
  by_cases hword : roundToWords bytes < 2 ^ 64
  · simp only [hword, if_true, bind, Except.bind]
    split
    · exact .inl ⟨s, rfl⟩
    · next hneeds =>
      unfold demandBlock
      by_cases hblock : 8 * (Page.new (roundToWords bytes / 8)).capacity < 2 ^ 63
      · simp only [hblock, if_true]
        exact .inl ⟨_, rfl⟩
      · simp only [hblock, if_false]
        refine .inr ⟨trivial, ?_⟩
        have hcapacity : (Page.new (roundToWords bytes / 8)).capacity ≤
            roundToWords bytes / 8 + 511 := by
          simp only [Bool.or_eq_true, decide_eq_true_eq, not_or] at hneeds
          have hpos := hneeds.1.1
          simp only [Page.capacity, Page.used, Page.new, Page.capacityFor, Page.ordinary,
            List.length_nil]
          omega
        omega
  · simp only [hword, if_false, bind, Except.bind]
    exact .inr ⟨trivial, by omega⟩

theorem filled_dropFrom (spare : Option Page) {ps : List Page} (h : ∀ q ∈ ps, q.cells ≠ [])
    (n : Nat) : (dropFrom spare ps n).Filled := by
  induction ps generalizing spare n with
  | nil => exact h
  | cons p ps ih =>
    obtain ⟨-, hps⟩ := List.forall_mem_cons.1 h
    unfold dropFrom
    split
    · exact h
    · split
      · next hlt =>
        refine List.forall_mem_cons.2 ⟨?_, hps⟩
        rw [Page.cells_drop, ne_eq, List.drop_eq_nil_iff]
        exact Nat.not_le_of_lt hlt
      · exact ih _ hps _

theorem Filled.drop {s t : Stack} {n : Nat} (h : s.Filled) (ht : s.drop n = .ok t) : t.Filled := by
  unfold Stack.drop at ht
  split at ht
  · contradiction
  · injection ht with ht
    exact ht ▸ filled_dropFrom s.spare h n

theorem Filled.pushRun {s : Stack} (h : s.Filled) (run : List Cell) : (s.pushRun run).Filled := by
  unfold Stack.pushRun
  split
  · exact h
  · next hrun =>
    have hnew : ∀ q : Page, (q.push run).cells ≠ [] := by
      intro q hq
      rw [Page.cells_push, List.append_eq_nil_iff, List.reverse_eq_nil_iff] at hq
      exact hrun (List.isEmpty_iff.2 hq.1)
    split
    · next p ps hps =>
      unfold Filled at h
      rw [hps] at h
      split
      · exact List.forall_mem_cons.2 ⟨hnew p, (List.forall_mem_cons.1 h).2⟩
      · exact List.forall_mem_cons.2 ⟨hnew _, h⟩
    · exact List.forall_mem_singleton.2 (hnew _)

/-- A run that is not empty lands in the newest page. -/
theorem pages_pushRun (s : Stack) {run : List Cell} (h : run ≠ []) :
    ∃ q rest, (s.pushRun run).pages = q :: rest ∧ rest <:+ s.pages := by
  unfold pushRun
  rw [if_neg (by simpa using h)]
  split
  · next p ps hps =>
    split
    · exact ⟨_, ps, rfl, hps ▸ List.suffix_cons p ps⟩
    · exact ⟨_, p :: ps, rfl, hps ▸ List.suffix_refl (p :: ps)⟩
  · exact ⟨_, [], rfl, List.nil_suffix⟩

theorem contents_pushRun (s : Stack) (run : List Cell) :
    (s.pushRun run).contents = s.contents ++ run := by
  simp [contents]

/-! ## Changes to the contents -/

theorem words_eq_of_contents {s : Stack} {cells : List Cell} (h : s.contents = cells) :
    s.words = cells.length := by
  rw [← h, length_contents]

theorem copyRun_eq {s : Stack} {a b c : List Cell} (h : s.contents = a ++ b ++ c) :
    s.copyRun a.length b.length = .ok b := by
  have hwords := words_eq_of_contents h
  simp only [List.length_append] at hwords
  rw [copyRun, if_neg (by omega), h, List.append_assoc, List.drop_left' rfl, List.take_left' rfl]

/-- A splice drops what lies behind the range with it, and pushes that again as one run. -/
theorem splice_eq {s : Stack} {a b c : List Cell} (h : s.contents = a ++ b ++ c)
    (run : List Cell) : ∃ rest, s.drop (c.length + b.length) = .ok rest ∧ rest.contents = a ∧
      s.splice a.length b.length run = (.ok (), (rest.pushRun run).pushRun c) := by
  have hwords := words_eq_of_contents h
  simp only [List.length_append] at hwords
  have htail : s.contents.drop (a.length + b.length) = c := by
    rw [h, List.drop_left' (by simp)]
  have hdrop : s.drop (c.length + b.length) =
      .ok (dropFrom s.spare s.pages (c.length + b.length)) := by
    rw [drop, if_neg (by omega)]
  refine ⟨_, hdrop, ?_, ?_⟩
  · rw [contents, drop_eq_ok hdrop]
    have hcells : s.cells = (b ++ c).reverse ++ a.reverse := by
      rw [← List.reverse_reverse s.cells]
      change s.contents.reverse = _
      rw [h, List.append_assoc, List.reverse_append]
    rw [hcells, List.drop_left' (by simp), List.reverse_reverse]
  · rw [splice, if_neg (by omega), htail]

namespace Holds

variable {s t : Stack} {runs a b c : List (List Cell)} {run : List Cell}

theorem words_eq (h : s.Holds runs) : s.words = runs.flatten.length := by
  rw [← s.length_contents, h.contents]

theorem congr (h : s.Holds runs) (hp : t.pages = s.pages) : t.Holds runs := by
  refine ⟨?_, fun ps hps => h.cuts ps (hp ▸ hps), fun q hq => h.filled q (hp ▸ hq)⟩
  rw [← h.contents, Stack.contents, Stack.contents, Stack.cells, Stack.cells, hp]

theorem empty : Stack.empty.Holds [] := by
  refine ⟨rfl, fun ps hps => ?_, fun q hq => absurd hq List.not_mem_nil⟩
  rw [List.suffix_nil.1 hps]
  exact IsCut.length []

theorem reset (s : Stack) : s.reset.Holds [] := empty.congr rfl

theorem duplicate (h : s.Holds runs) : s.duplicate.Holds runs := h.congr rfl

theorem reserve {bytes : Nat} (h : s.Holds runs) (ht : s.reserve bytes = .ok t) : t.Holds runs :=
  h.congr (pages_reserve ht)

/-- The total is always a cut, so only the pages below the newest one matter. -/
theorem of_below (hc : t.contents = runs.flatten) (hfilled : t.Filled)
    (hb : ∀ q rest, t.pages = q :: rest → ∀ ps, ps <:+ rest → IsCut runs (ps.map Page.used).sum) :
    t.Holds runs := by
  refine ⟨hc, fun ps hps => ?_, hfilled⟩
  have htotal : IsCut runs (t.pages.map Page.used).sum := by
    change IsCut runs t.words
    rw [← t.length_contents, hc]
    exact IsCut.length runs
  cases hpages : t.pages with
  | nil =>
    rw [hpages, List.suffix_nil] at hps
    rwa [hps, ← hpages]
  | cons q rest =>
    rw [hpages] at hps
    rcases List.suffix_cons_iff.1 hps with rfl | hps
    · rwa [← hpages]
    · exact hb q rest hpages ps hps

theorem pushRun (h : s.Holds runs) (run : List Cell) : (s.pushRun run).Holds (runs ++ [run]) := by
  have hcontents : (s.pushRun run).contents = (runs ++ [run]).flatten := by
    simp [contents_pushRun, h.contents]
  have hfilled := h.filled.pushRun run
  by_cases hrun : run = []
  · subst hrun
    exact ⟨hcontents, fun ps hps =>
      (h.cuts ps (by simpa [Stack.pushRun] using hps)).append [[]], hfilled⟩
  · obtain ⟨q, rest, hpages, hrest⟩ := s.pages_pushRun hrun
    refine of_below hcontents hfilled fun q' rest' hpages' ps hps => ?_
    rw [hpages] at hpages'
    obtain ⟨rfl, rfl⟩ := List.cons.inj hpages'
    exact (h.cuts ps (hps.trans hrest)).append [run]

/-- The newest runs are dropped together. -/
theorem drop (h : s.Holds (a ++ b)) : ∃ t, s.drop b.flatten.length = .ok t ∧ t.Holds a := by
  have hwords := h.words_eq
  rw [List.flatten_append, List.length_append] at hwords
  refine ⟨dropFrom s.spare s.pages b.flatten.length, ?_,
    of_below ?_ (filled_dropFrom s.spare h.filled _) fun q rest hpages ps hps => ?_⟩
  · rw [Stack.drop, if_neg (by omega)]
  · rw [Stack.contents, cells_dropFrom]
    change (s.cells.drop _).reverse = _
    rw [← List.reverse_reverse s.cells]
    change (s.contents.reverse.drop _).reverse = _
    rw [h.contents, List.flatten_append, List.reverse_append, List.drop_left' (by simp),
      List.reverse_reverse]
  · rcases pages_dropFrom s.spare s.pages b.flatten.length with hnil | ⟨q', rest', hcons, hsuf⟩
    · rw [hnil] at hpages
      exact absurd hpages.symm (List.cons_ne_nil q rest)
    · rw [hcons] at hpages
      obtain ⟨rfl, rfl⟩ := List.cons.inj hpages
      refine (h.cuts ps (hps.trans hsuf)).of_append_of_le ?_
      -- what lies below the newest page is no more than what is left
      have hleft := words_dropFrom s.spare s.pages b.flatten.length
      rw [words, hcons, List.map_cons, List.sum_cons] at hleft
      obtain ⟨above, rfl⟩ := hps
      simp only [List.map_append, List.sum_append] at hleft
      change _ = s.words - _ at hleft
      omega

/-- Cutting a run into pieces. -/
theorem refine {pieces : List (List Cell)} (h : s.Holds (a ++ [pieces.flatten] ++ b)) :
    s.Holds (a ++ pieces ++ b) :=
  ⟨by simpa using h.contents, fun ps hps => (h.cuts ps hps).refine, h.filled⟩

/-! ## Reading in place -/

/-- A search by byte position ends in a page that has the whole run. -/
theorem search_eq (ps : List Page) (hcuts : ∀ qs, qs <:+ ps → IsCut (a ++ [run] ++ b)
      (qs.map Page.used).sum) (hrun : run ≠ [])
    (hlt : a.flatten.length < (ps.map Page.used).sum) :
    ∃ p qs, p :: qs <:+ ps ∧
      Stack.search (8 * a.flatten.length) (8 * run.length) ps (8 * (ps.map Page.used).sum) =
        some ⟨p, 8 * (a.flatten.length - (qs.map Page.used).sum)⟩ ∧
      (qs.map Page.used).sum ≤ a.flatten.length ∧
      a.flatten.length + run.length ≤ ((p :: qs).map Page.used).sum := by
  induction ps with
  | nil => simp at hlt
  | cons p ps ih =>
    have hpos : 0 < run.length := List.length_pos_iff.2 hrun
    have hfirst : 8 * ((p :: ps).map Page.used).sum - 8 * p.used = 8 * (ps.map Page.used).sum := by
      simp only [List.map_cons, List.sum_cons]; omega
    rw [Stack.search]
    simp only [hfirst]
    by_cases hbelow : (ps.map Page.used).sum ≤ a.flatten.length
    · -- the page ends at a cut behind the start of the run, so behind its end
      have hend : a.flatten.length + run.length ≤ ((p :: ps).map Page.used).sum := by
        rcases (hcuts _ (List.suffix_refl _)).outside with h | h
        · omega
        · exact h
      refine ⟨p, ps, List.suffix_refl _, ?_, hbelow, hend⟩
      rw [if_pos (by omega), if_neg (by omega), Nat.mul_sub]
    · obtain ⟨p', qs, hsuf, hsearch, hle, hend⟩ := ih
        (fun qs hqs => hcuts qs (hqs.trans (List.suffix_cons p ps))) (by omega)
      refine ⟨p', qs, hsuf.trans (List.suffix_cons p ps), ?_, hle, hend⟩
      rw [if_neg (by omega), hsearch]

/-- A range that is found lies within its page. -/
theorem below_of_search {start size : Nat} {ps : List Page} {place : Place}
    (h : Stack.search start size ps (8 * (ps.map Page.used).sum) = some place) :
    place.below + size ≤ 8 * place.page.used := by
  induction ps with
  | nil => contradiction
  | cons p ps ih =>
    have hfirst : 8 * ((p :: ps).map Page.used).sum - 8 * p.used = 8 * (ps.map Page.used).sum := by
      simp only [List.map_cons, List.sum_cons]; omega
    rw [Stack.search] at h
    simp only [hfirst] at h
    split at h
    · split at h
      · contradiction
      · next hle hfits =>
        injection h with h
        subst h
        simp only [List.map_cons, List.sum_cons] at hfits ⊢
        omega
    · exact ih h

theorem length_of_runAt {offset words : Nat} (h : s.runAt offset words = .ok run) :
    run.length = words := by
  obtain ⟨place, hplace, h⟩ := exists_of_bind_eq_ok h
  injection h with h
  subst h
  suffices hfits : place.below + 8 * words ≤ 8 * place.page.used by
    rw [List.length_take, List.length_drop, List.length_reverse]
    unfold Page.used at hfits
    omega
  unfold locateBack at hplace
  split at hplace
  · contradiction
  · unfold locate at hplace
    dsimp only at hplace
    split at hplace
    · contradiction
    · split at hplace
      · next hzero =>
        injection hplace with hplace
        subst hplace
        simp only
        omega
      · split at hplace
        · next hfound =>
          injection hplace with hplace
          exact below_of_search (hplace ▸ hfound)
        · contradiction

/-- The cells of a page stand above those of the pages below it. -/
theorem drop_contents {p : Page} {qs : List Page} (hsuf : p :: qs <:+ s.pages) :
    ∃ above, s.contents.drop (qs.map Page.used).sum = p.cells.reverse ++ above := by
  obtain ⟨newer, hnewer⟩ := hsuf
  refine ⟨(newer.flatMap Page.cells).reverse, ?_⟩
  have hlen : (qs.flatMap Page.cells).reverse.length = (qs.map Page.used).sum := by
    rw [List.length_reverse, List.length_flatMap]; rfl
  rw [Stack.contents, Stack.cells, ← hnewer, List.flatMap_append, List.flatMap_cons,
    List.reverse_append, List.reverse_append, List.append_assoc, List.drop_left' hlen]

/-- A held run lies in place: in one page, at a whole number of cells from its bottom. -/
theorem locateBack (h : s.Holds (a ++ [run] ++ b)) :
    ∃ place, s.locateBack (8 * b.flatten.length) (8 * run.length) = .ok place ∧
      place.below % 8 = 0 ∧ (place.page.cells.reverse.drop (place.below / 8)).take run.length = run := by
  have hwords := h.words_eq
  simp only [List.flatten_append, List.length_append, List.flatten_singleton] at hwords
  have hsize : s.size = 8 * (a.flatten.length + run.length + b.flatten.length) := by
    rw [size, hwords]
  have hstart : s.size - 8 * b.flatten.length - 8 * run.length = 8 * a.flatten.length := by omega
  rw [Stack.locateBack, if_neg (by omega), hstart, locate, if_neg (by omega)]
  by_cases hrun : run = []
  · subst hrun
    exact ⟨_, rfl, rfl, rfl⟩
  · have hpos : 0 < run.length := List.length_pos_iff.2 hrun
    obtain ⟨p, qs, hsuf, hsearch, hle, hend⟩ := search_eq s.pages h.cuts hrun
      (show a.flatten.length < s.words by omega)
    have hfound : Stack.search (8 * a.flatten.length) (8 * run.length) s.pages s.size =
        some ⟨p, 8 * (a.flatten.length - (qs.map Page.used).sum)⟩ := hsearch
    rw [if_neg (by omega), hfound]
    refine ⟨_, rfl, Nat.mul_mod_right 8 _, ?_⟩
    obtain ⟨above, habove⟩ := drop_contents hsuf
    -- the run starts so many cells above the bottom of its page
    have hcells : (p.cells.reverse ++ above).drop (a.flatten.length - (qs.map Page.used).sum) =
        run ++ b.flatten := by
      rw [← habove, List.drop_drop, h.contents,
        show (qs.map Page.used).sum + (a.flatten.length - (qs.map Page.used).sum) =
          a.flatten.length by omega]
      simp
    have hfits : a.flatten.length - (qs.map Page.used).sum + run.length ≤
        p.cells.reverse.length := by
      simp only [List.map_cons, List.sum_cons, Page.used] at hend
      rw [List.length_reverse]
      omega
    dsimp only
    rw [Nat.mul_div_cancel_left _ (by decide)]
    rw [List.drop_append_of_le_length (by omega)] at hcells
    have htake := congrArg (List.take run.length) hcells
    rwa [List.take_left' rfl, List.take_append_of_le_length (by rw [List.length_drop]; omega)]
      at htake

/-- A held run is read in place. -/
theorem runAt (h : s.Holds (a ++ [run] ++ b)) :
    s.runAt (8 * b.flatten.length) run.length = .ok run := by
  obtain ⟨place, hplace, -, hrun⟩ := h.locateBack
  rw [Stack.runAt, hplace]
  exact congrArg Except.ok hrun

/-- The newest page has the newest run. -/
theorem le_headSize (h : s.Holds (a ++ [run])) : 8 * run.length ≤ s.headSize := by
  have hwords := h.words_eq
  cases hpages : s.pages with
  | nil =>
    simp only [words, hpages, List.map_nil, List.sum_nil, List.flatten_append,
      List.flatten_singleton, List.length_append] at hwords
    omega
  | cons q rest =>
    have hq : 0 < q.used :=
      List.length_pos_iff.2 (h.filled q (by rw [hpages]; exact List.mem_cons_self))
    have hcut : IsCut (a ++ [run] ++ []) (rest.map Page.used).sum := by
      rw [List.append_nil]
      exact h.cuts rest (by rw [hpages]; exact List.suffix_cons q rest)
    simp only [words, hpages, List.map_cons, List.sum_cons, List.flatten_append,
      List.flatten_singleton, List.length_append] at hwords
    rw [headSize, hpages]
    change _ ≤ 8 * q.used
    -- were the run not in the page, the page would be empty
    rcases hcut.outside with hle | hle
    · omega
    · omega

/-! ## Replacing runs -/

/-- A range of runs gives way to others. -/
theorem splice (h : s.Holds (a ++ b ++ c)) (pieces : List (List Cell)) :
    ∃ t, s.splice a.flatten.length b.flatten.length pieces.flatten = (.ok (), t) ∧
      t.Holds (a ++ pieces ++ c) := by
  obtain ⟨rest, hrest, -, hsplice⟩ := splice_eq (a := a.flatten) (b := b.flatten) (c := c.flatten)
    (by simpa using h.contents) pieces.flatten
  obtain ⟨rest', hrest', hholds⟩ := drop (a := a) (b := b ++ c) (by simpa using h)
  rw [List.flatten_append, List.length_append, Nat.add_comm, hrest] at hrest'
  injection hrest' with hrest'
  subst hrest'
  refine ⟨_, hsplice, ?_⟩
  have hmerged := (hholds.pushRun pieces.flatten).pushRun c.flatten
  have hpieces := refine (b := [c.flatten]) hmerged
  simpa using refine (a := a ++ pieces) (b := []) (by simpa using hpieces)

end Holds

/-- A stack without cells has no pages, if none of them is empty. -/
theorem pages_of_words {s : Stack} (hfilled : s.Filled) (hwords : s.words = 0) : s.pages = [] := by
  cases hs : s.pages with
  | nil => rfl
  | cons q rest =>
    rw [words, hs, List.map_cons, List.sum_cons, Nat.add_eq_zero_iff] at hwords
    exact absurd (List.length_eq_zero_iff.1 hwords.1)
      (hfilled q (by rw [hs]; exact List.mem_cons_self))

theorem holds_nil_of_words {s : Stack} (hfilled : s.Filled) (hwords : s.words = 0) :
    s.Holds [] :=
  Holds.empty.congr (pages_of_words hfilled hwords)

end Stack

end GeneticProgramming
