import GeneticProgramming.Proofs.Run.Invariant

/-!
# Properties that runs carry

A property of trees that planted trees have, and that copies, mutants and crosses inherit, stays with
a run, whatever its steps come to: `Run.Carries.step`.
-/

namespace GeneticProgramming

variable {C : Type} {p : Palette C} {Q : Tree → Prop}

/-- Well-typed trees have the property, and in each run of the palette it is inherited. -/
structure Run.Handed (p : Palette C) (Q : Tree → Prop) : Prop where
  proper : ∀ {type : TypeId} {t : Tree}, t.Proper p type → Q t
  inherits : ∀ {r : Run C}, r.palette = p → r.Inherits Q

namespace Run

variable {r r' : Run C} {objective : Objective C} {files : Files} {s : Stepped C}

/-- A run of a palette whose trees, and those that are to follow them, have a property. -/
structure Carries (p : Palette C) (Q : Tree → Prop) (r : Run C) : Prop where
  palette : r.palette = p
  valid : r.configuration.Valid
  root : r.root < p.types.count
  population : ∀ x ∈ r.population, Q x.tree
  next : ∀ x ∈ r.next, Q x.tree

namespace Carries

theorem of_new (hp : p.IsBuilt) {c : Configuration} (h : Run.new p c = .ok (.ok r)) :
    r.Carries p Q := by
  obtain ⟨hvalid, hroot, -⟩ := invariant_of_new hp h
  obtain ⟨-, root, variation, -, -, rfl⟩ := new_eq_ok h
  exact ⟨rfl, hvalid, hroot, fun x hx => absurd hx List.not_mem_nil,
    fun x hx => absurd hx List.not_mem_nil⟩

theorem plantAll (hp : p.IsBuilt) (hq : Handed p Q) (h : r.Carries p Q)
    (hplant : r.plantAll = .ok (.ok r')) : r'.Carries p Q := by
  obtain ⟨rfl, hvalid, hroot, -, -⟩ := h
  have hplanted := plantAll_whole hp hvalid hroot hplant
  obtain ⟨population, rfl⟩ := becomes_of_plantAll hplant
  exact ⟨rfl, hvalid, hroot, fun x hx => hq.proper (hplanted.allowed x hx).proper,
    fun x hx => absurd hx List.not_mem_nil⟩

/-- New scores leave the trees. -/
theorem rescore (h : r.Carries p Q) {population : Population}
    (htrees : population.map Individual.tree = r.population.map Individual.tree) :
    Carries p Q { r with population } :=
  ⟨h.palette, h.valid, h.root, forall_of_map_tree h.population htrees, h.next⟩

theorem score (h : r.Carries p Q) {result : Except RunError Bool}
    (hscore : r.score objective = .ok (r', result)) : r'.Carries p Q := by
  obtain ⟨⟨population, solved⟩, hpopulation, hscore⟩ := exists_of_bind_eq_ok hscore
  have hscored := h.rescore (map_tree_scoreFrom hpopulation)
  cases solved with
  | error e =>
    injection hscore with hscore
    injection hscore with hrun
    exact hrun ▸ hscored
  | ok solved =>
    injection hscore with hscore
    injection hscore with hrun
    exact hrun ▸ ⟨h.palette, h.valid, h.root, hscored.population, h.next⟩

theorem breed (hq : Handed p Q) (h : r.Carries p Q) (hbreed : r.breed = .ok (.ok r')) :
    r'.Carries p Q := by
  have hbred := breed_inherits (hq.inherits h.palette) h.population h.valid.elites hbreed
  obtain ⟨selectors, next, -, rfl⟩ := becomes_of_breed hbreed
  exact ⟨h.palette, h.valid, h.root, h.population, hbred.2⟩

theorem advance (h : r.Carries p Q) : r.advance.Carries p Q :=
  ⟨h.palette, h.valid, h.root, h.next, fun _ hx => absurd hx List.not_mem_nil⟩

theorem of_becomes (hp : p.IsBuilt) (hq : Handed p Q) (h : r.Carries p Q)
    (hbecomes : r.Becomes objective r') : r'.Carries p Q := by
  unfold Becomes at hbecomes
  cases hphase : r.phase <;> rw [hphase] at hbecomes
  case initial => exact h.plantAll hp hq hbecomes.1
  case evaluate =>
    obtain ⟨population, solved, hscore, rfl⟩ := hbecomes
    have hscored := h.rescore (map_tree_scoreFrom hscore)
    exact ⟨h.palette, h.valid, h.root, hscored.population, h.next⟩
  case report =>
    subst hbecomes
    exact ⟨h.palette, h.valid, h.root, h.population, h.next⟩
  case selectAndVary =>
    obtain ⟨selectors, next, hbreed, -, rfl⟩ := hbecomes
    exact ⟨h.palette, h.valid, h.root, h.population, (h.breed hq hbreed).next⟩
  case swap =>
    subst hbecomes
    exact ⟨h.palette, h.valid, h.root, h.next, h.advance.next⟩
  case terminate =>
    subst hbecomes
    exact h

theorem step (hp : p.IsBuilt) (hq : Handed p Q) (h : r.Carries p Q)
    (hs : r.step objective files = .ok s) : s.run.Carries p Q := by
  rcases step_cases hs with ⟨-, hrun | hbecomes⟩ | ⟨-, hleaves⟩
  · rw [hrun]
    exact ⟨h.palette, h.valid, h.root, h.population, h.next⟩
  · exact h.of_becomes hp hq hbecomes
  · obtain ⟨population, htrees, hrun⟩ := hleaves.eq_with
    exact hrun ▸ h.rescore htrees

end Carries

end Run

end GeneticProgramming
