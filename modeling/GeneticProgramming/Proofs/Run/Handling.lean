import GeneticProgramming.Proofs.Run.Overrun
import GeneticProgramming.Proofs.Run.Roots
import GeneticProgramming.Proofs.Variation.Offspring

/-!
# Runs that load from any streams

A run may take over a state or a generation from any stream that it accepts, whatever it is doing.
Trees that were read may be empty, and of any type; but all of them pass the check, and so do those
that are bred from them: `Run.Handled.carries`.
-/

namespace GeneticProgramming

open GeneticProgramming.Tree

variable {C : Type} {p : Palette C}

/-! ## Trees that pass the check -/

/-- A tree of a palette that is empty, or one well-typed tree. -/
structure Tree.IsChecked (p : Palette C) (t : Tree) : Prop where
  sound : t.Sound p
  check : t.check p = .ok ()

namespace Tree

variable {t u : Tree} {type : TypeId}

theorem Proper.isChecked (h : t.Proper p type) : t.IsChecked p := ⟨h.sound, h.check⟩

namespace IsChecked

theorem duplicate (h : t.IsChecked p) : t.duplicate.IsChecked p :=
  ⟨h.sound.duplicate, check_of_words h.check rfl rfl⟩

theorem isTyped (h : t.IsChecked p) (hsome : t.isEmpty = false) : t.IsTyped p := by
  rcases (check_eq_ok_iff.1 h.check).2 with hempty | ⟨type, hspells⟩
  · rw [Tree.isEmpty, hempty] at hsome
    contradiction
  · exact ⟨type, h.sound, hspells⟩

theorem storable (h : t.IsChecked p) (hplain : t.IsPlain) (hfits : t.Fits) : t.Storable p :=
  ⟨h.sound.1, h.check, hplain, hfits⟩

end IsChecked

end Tree

/-! ## Breeding -/

/-- An empty tree has nothing to mutate. -/
theorem Mutation.apply_isChecked (hp : p.IsBuilt) (m : Mutation) {t : Tree} (ht : t.IsChecked p) :
    Attempt.Yields (m.apply p t) (Tree.IsChecked p) := by
  cases hempty : t.isEmpty with
  | true =>
    unfold apply
    rw [hempty]
    exact Attempt.Yields.pure ht
  | false =>
    obtain ⟨type, hproper⟩ := ht.isTyped hempty
    exact (apply_yields hp m hproper).mono (fun _ hu => hu.isChecked) fun _ h => h.elim

theorem Crossover.leastSize_le {c : Crossover} {t : Tree} (h : c.checkSize t = .ok ()) :
    c.leastSize ≤ t.size := by
  by_contra hsmall
  rw [checkSize_eq_error (Nat.lt_of_not_le hsmall)] at h
  contradiction

/-- Parents that are large enough for a crossover are not empty. -/
theorem Crossover.apply_isChecked (hp : p.IsBuilt) (c : Crossover) {t u : Tree}
    (ht : t.IsChecked p) (hu : u.IsChecked p) :
    Attempt.Yields (c.apply p t u) fun out => out.1.IsChecked p ∧ out.2.IsChecked p := by
  by_cases hsizes : c.leastSize ≤ t.size ∧ c.leastSize ≤ u.size
  · obtain ⟨type, ht⟩ := exists_proper ht.sound ht.check hsizes.1
    obtain ⟨other, hu⟩ := exists_proper hu.sound hu.check hsizes.2
    exact (apply_yields hp c ht hu).mono (fun _ h => ⟨h.1.isChecked, h.2.isChecked⟩) fun _ h => h
  · unfold apply
    refine Attempt.Yields.bind (Attempt.Yields.except (fun _ h => leastSize_le h) fun _ _ => trivial)
      fun _ htsize => ?_
    refine Attempt.Yields.bind (Attempt.Yields.except (fun _ h => leastSize_le h) fun _ _ => trivial)
      fun _ husize => ?_
    exact absurd ⟨htsize, husize⟩ hsizes

namespace Run

variable {r source target loaded : Run C} {objective : Objective C} {files : Files} {s : Stepped C}
  {bytes : Bytes} {t u : Tree}

theorem capped_isChecked (ht : t.IsChecked p) (hu : u.IsChecked p) :
    (r.capped t u).IsChecked p := by
  unfold capped
  split
  · exact hu.duplicate
  · exact ht

theorem mutant_isChecked (hp : r.palette.IsBuilt) (ht : t.IsChecked r.palette) :
    Yields (r.mutant t) (Tree.IsChecked r.palette) := by
  refine Yields.bind (Mutation.apply_isChecked hp _ ht.duplicate) fun result hresult => ?_
  cases result with
  | ok child => exact Yields.pure (capped_isChecked hresult ht)
  | error e => exact Yields.pure ht.duplicate

theorem inherits_isChecked (hp : r.palette.IsBuilt) : r.Inherits (Tree.IsChecked r.palette) where
  duplicate ht := ht.duplicate
  mutant ht := mutant_isChecked hp ht
  cross := by
    intro t u ht hu
    refine Yields.bind (Crossover.apply_isChecked hp _ ht hu) fun result hresult => ?_
    cases result with
    | ok out =>
      exact Yields.pure ⟨capped_isChecked hresult.1 ht, capped_isChecked hresult.2 hu⟩
    | error e =>
      refine Yields.ite (fun _ => ?_) fun _ => Yields.pure ⟨ht.duplicate, hu.duplicate⟩
      refine Yields.bind (mutant_isChecked hp ht) fun left hleft => ?_
      exact Yields.bind (mutant_isChecked hp hu) fun right hright => Yields.pure ⟨hleft, hright⟩

theorem handed_isChecked (hp : p.IsBuilt) : Handed p (Tree.IsChecked p) where
  proper ht := ht.isChecked
  inherits := by
    rintro r rfl
    exact inherits_isChecked hp

/-! ## Whatever is done to a run -/

/-- The runs of a palette that come of new ones by steps, with any fitness functions, by parts of
steps that are done by themselves, and by loads from any streams. -/
inductive Handled (p : Palette C) : Run C → Prop where
  | new {c : Configuration} {r : Run C} : Run.new p c = .ok (.ok r) → Handled p r
  | step {r : Run C} {objective : Objective C} {files : Files} {s : Stepped C} :
      Handled p r → r.step objective files = .ok s → Handled p s.run
  | plant {r r' : Run C} : Handled p r → r.plantAll = .ok (.ok r') → Handled p r'
  | score {r r' : Run C} {objective : Objective C} {result : Except RunError Bool} :
      Handled p r → r.score objective = .ok (r', result) → Handled p r'
  | breed {r r' : Run C} : Handled p r → r.breed = .ok (.ok r') → Handled p r'
  | advance {r : Run C} : Handled p r → Handled p r.advance
  | stop {r : Run C} (stopRequested : Bool) : Handled p r → Handled p { r with stopRequested }
  | sync {r : Run C} (sync : Option Sync) : Handled p r → Handled p { r with sync }
  | load {r loaded : Run C} {bytes : Bytes} :
      Handled p r → r.Loads bytes loaded → Handled p loaded

/-- A load keeps what belongs to the run, and leaves nothing that was bred. -/
theorem Loads.keeps (h : target.Loads bytes loaded) : target.Keeps loaded ∧ loaded.next = [] := by
  cases h with
  | state hload =>
    obtain ⟨saved, rfl⟩ := loadState_eq_ok hload
    exact ⟨⟨rfl, rfl, rfl, rfl, rfl, rfl⟩, rfl⟩
  | generation hload =>
    obtain ⟨⟨population, rest⟩, -, hload⟩ := exists_of_bind_eq_ok hload
    injection hload with hload
    subst hload
    exact ⟨⟨rfl, rfl, rfl, rfl, rfl, rfl⟩, rfl⟩

/-- Whatever is done to a run, all its trees pass the check. -/
theorem Handled.carries (hp : p.IsBuilt) (h : Handled p r) : r.Carries p (Tree.IsChecked p) := by
  induction h with
  | new hnew => exact .of_new hp hnew
  | step _ hs ih => exact ih.step hp (handed_isChecked hp) hs
  | plant _ hplant ih => exact ih.plantAll hp (handed_isChecked hp) hplant
  | score _ hscore ih => exact ih.score hscore
  | breed _ hbreed ih => exact ih.breed (handed_isChecked hp) hbreed
  | advance _ ih => exact ih.advance
  | stop _ _ ih => exact ⟨ih.palette, ih.valid, ih.root, ih.population, ih.next⟩
  | sync _ _ ih => exact ⟨ih.palette, ih.valid, ih.root, ih.population, ih.next⟩
  | load _ hload ih =>
    obtain ⟨hkeeps, hnext⟩ := hload.keeps
    have htrees := (hload.forall_mem (read_yields _)).2
    rw [ih.palette] at htrees
    refine ⟨hkeeps.palette.trans ih.palette, hkeeps.configuration ▸ ih.valid, hkeeps.root ▸ ih.root,
      fun x hx => ⟨(htrees x hx).1, (htrees x hx).2.1⟩, fun x hx => ?_⟩
    rw [hnext] at hx
    exact absurd hx List.not_mem_nil

theorem Handled.storable (hp : p.IsBuilt) (h : Handled p r) {x : Individual}
    (hx : x ∈ r.population) (hplain : x.tree.IsPlain) (hfits : x.tree.Fits) : x.tree.Storable p :=
  ((h.carries hp).population x hx).storable hplain hfits

/-- What was saved is loaded by each run of the palette. -/
theorem Handled.loadState_eq (hp : p.IsBuilt) (hport : p.Portable) (h : Handled p source)
    (hsaves : source.Saves bytes) (hpalette : target.palette = p) :
    target.loadState bytes = .ok (target.resume source.repacked) := by
  rw [hsaves.bytes_eq, (h.carries hp).palette]
  exact loadState_toBytes hp hport
    (fun x hx => h.storable hp hx (hsaves.isPlain x hx) (hsaves.trees x hx)) hsaves.sizes hpalette

theorem Handled.loadGeneration_eq (hp : p.IsBuilt) (hport : p.Portable) (h : Handled p source)
    (hsaves : source.SavesGeneration bytes) (hpalette : target.palette = p) :
    target.loadGeneration bytes = .ok { target with
      population := source.population.map Individual.packed
      next := [], solved := false, phase := .evaluate } := by
  rw [hsaves.bytes_eq]
  exact loadGeneration_toBytes hp hport
    (fun x hx => h.storable hp hx (hsaves.isPlain x hx) (hsaves.trees x hx)) hsaves.size hpalette

end Run

end GeneticProgramming
