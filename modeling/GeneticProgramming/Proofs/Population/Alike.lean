import Mathlib.Data.List.Forall2
import GeneticProgramming.Population.Selection
import GeneticProgramming.Proofs.Tree.Alike

/-!
# Alike populations

Populations are alike if their individuals have alike trees and the same scores, place by place.
Ranking, statistics and selection look at scores alone, so they tell no such populations apart, and
what they pick from them is alike.
-/

namespace GeneticProgramming

structure Individual.Alike (x y : Individual) : Prop where
  tree : x.tree.Alike y.tree
  fitness : x.fitness = y.fitness

namespace Population

variable {pop pop' : Population}

/-- Alike individuals in the same places. -/
abbrev Alike (pop pop' : Population) : Prop := List.Forall₂ Individual.Alike pop pop'

namespace Alike

theorem refl (pop : Population) : pop.Alike pop :=
  List.forall₂_same.2 fun x _ => ⟨Tree.Alike.refl x.tree, rfl⟩

theorem symm (h : pop.Alike pop') : pop'.Alike pop := by
  induction h with
  | nil => exact .nil
  | cons hx _ ih => exact .cons ⟨hx.tree.symm, hx.fitness.symm⟩ ih

theorem trans {pop'' : Population} (h : pop.Alike pop') (h' : pop'.Alike pop'') :
    pop.Alike pop'' := by
  induction h generalizing pop'' with
  | nil => exact h'
  | cons hx _ ih =>
    cases h' with
    | cons hy hrest => exact .cons ⟨hx.tree.trans hy.tree, hx.fitness.trans hy.fitness⟩ (ih hrest)

theorem map_fitness (h : pop.Alike pop') :
    pop.map Individual.fitness = pop'.map Individual.fitness := by
  induction h with
  | nil => rfl
  | cons hx _ ih => rw [List.map_cons, List.map_cons, hx.fitness, ih]

theorem isEmpty (h : pop.Alike pop') : pop.isEmpty = pop'.isEmpty := by
  cases h <;> rfl

theorem getElem? (h : pop.Alike pop') (i : Nat) : Option.Rel Individual.Alike pop[i]? pop'[i]? := by
  induction h generalizing i with
  | nil => exact Option.Rel.none
  | cons hx _ ih =>
    cases i with
    | zero => exact Option.Rel.some hx
    | succ i => exact ih i

/-- What is told by the score at an index is the same. -/
theorem told (h : pop.Alike pop') {α : Type} (f : Fitness → α) (i : Nat) :
    (pop[i]?).map (fun x => f x.fitness) = (pop'[i]?).map fun x => f x.fitness := by
  have hrel := h.getElem? i
  generalize pop[i]? = x, pop'[i]? = y at hrel ⊢
  cases hrel with
  | some hx => exact congrArg some (congrArg f hx.fitness)
  | none => rfl

theorem rankedIndexes (h : pop.Alike pop') : pop.rankedIndexes = pop'.rankedIndexes := by
  have hrank : ∀ i, pop.rankAt i = pop'.rankAt i := fun i =>
    congrArg (·.getD 0) (h.told Fitness.rank i)
  simp only [Population.rankedIndexes, h.length_eq, hrank]

theorem bestIndividuals (h : pop.Alike pop') (n : Nat) :
    Population.Alike (pop.bestIndividuals n) (pop'.bestIndividuals n) := by
  unfold Population.bestIndividuals bestIndexes
  rw [h.rankedIndexes]
  exact List.rel_filterMap (R := (· = ·)) (fun i j hij => hij ▸ h.getElem? i)
    (List.forall₂_same.2 fun _ _ => rfl)

theorem statistics (h : pop.Alike pop') :
    Statistics.ofPopulation pop = Statistics.ofPopulation pop' := by
  have hscores : (pop.map fun i => Fitness.rankKey i.fitness.adjusted) =
      pop'.map fun i => Fitness.rankKey i.fitness.adjusted := by
    have hmap := congrArg (List.map fun f => Fitness.rankKey f.adjusted) h.map_fitness
    rwa [List.map_map, List.map_map] at hmap
  unfold Statistics.ofPopulation
  rw [h.isEmpty, hscores]

end Alike

end Population

/-! ## Selection -/

namespace Selector

variable {pop pop' : Population}

/-- What a selector was made for, prepared or not. -/
def kind : Selector → SelectionKind
  | tournament size => .tournament size
  | walk false _ _ => .best
  | walk true _ _ => .worst
  | random => .random
  | roulette _ => .fitnessProportionate

/-- A preparation forgets all but the kind. -/
theorem prepare_eq_of_kind {s s' : Selector} (h : s.kind = s'.kind) (pop : Population)
    (stats : Statistics) : s.prepare pop stats = s'.prepare pop stats := by
  unfold prepare
  split
  · rfl
  · match s, s', h with
    | tournament _, tournament _, rfl => rfl
    | walk false _ _, walk false _ _, _ => rfl
    | walk true _ _, walk true _ _, _ => rfl
    | random, random, _ => rfl
    | roulette _, roulette _, _ => rfl

theorem kind_of_prepare {s s' : Selector} {stats : Statistics}
    (h : s.prepare pop stats = .ok s') : s'.kind = s.kind := by
  unfold prepare at h
  split at h
  · contradiction
  · match s with
    | tournament _ => injection h with h; rw [← h]
    | walk false _ _ => injection h with h; rw [← h]; rfl
    | walk true _ _ => injection h with h; rw [← h]; rfl
    | random => injection h with h; rw [← h]
    | roulette _ =>
      dsimp only at h
      split at h
      · injection h with h; rw [← h]; rfl
      · contradiction

theorem pick_kind (s : Selector) (pop : Population) :
    Yields (s.pick pop) fun out => out.2.kind = s.kind := by
  match s with
  | tournament _ =>
    refine Yields.ite (fun _ => Yields.throw _) fun _ => ?_
    exact Yields.bind (Yields.trivial _) fun _ _ => Yields.pure rfl
  | walk reversed order taken =>
    unfold pick
    dsimp only
    split
    · exact Yields.pure (by cases reversed <;> rfl)
    · exact Yields.pure rfl
  | random => exact Yields.bind (Yields.trivial _) fun _ _ => Yields.pure rfl
  | roulette _ => exact Yields.bind (Yields.trivial _) fun _ _ => Yields.pure rfl

theorem pickTree_kind (s : Selector) (pop : Population) :
    Yields (s.pickTree pop) fun out => out.2.kind = s.kind := by
  refine Yields.bind (pick_kind s pop) fun picked hpicked => ?_
  exact Yields.bind (Yields.trivial _) fun _ _ => Yields.pure hpicked

theorem prepare_congr (s : Selector) (h : pop.Alike pop') (stats : Statistics) :
    s.prepare pop stats = s.prepare pop' stats := by
  unfold prepare
  rw [h.isEmpty, h.rankedIndexes, h.length_eq]

theorem pick_congr (s : Selector) (h : pop.Alike pop') : s.pick pop = s.pick pop' := by
  have hscore : ∀ i, score pop i = score pop' i := fun i =>
    congrArg (·.getD .nan) (h.told Fitness.adjusted i)
  have hfittest : ∀ is, fittest pop is = fittest pop' is := by
    intro is
    cases is with
    | nil => rfl
    | cons i is => simp only [fittest, hscore]
  unfold pick
  simp only [h.isEmpty, h.length_eq, hfittest]

theorem pickTree_alike (s : Selector) (h : pop.Alike pop') :
    Draw.Alike (fun x y => x.1.Alike y.1 ∧ x.2 = y.2) (s.pickTree pop) (s.pickTree pop') := by
  unfold pickTree
  rw [s.pick_congr h]
  refine Draw.Alike.same fun picked => ?_
  have hrel := h.getElem? picked.1
  have hfound : Agree Individual.Alike (demand pop[picked.1]?) (demand pop'[picked.1]?) := by
    generalize pop[picked.1]? = found, pop'[picked.1]? = found' at hrel
    cases hrel with
    | some hx => exact Agree.ok hx
    | none => exact Agree.error _
  refine Draw.Alike.bind (Draw.Alike.lift hfound) fun x y hxy => ?_
  exact Draw.Alike.pure ⟨hxy.tree, rfl⟩

end Selector

end GeneticProgramming
