import GeneticProgramming.Proofs.Population.Ranking
import GeneticProgramming.Proofs.Run.Alike
import GeneticProgramming.Proofs.Run.Crew
import GeneticProgramming.Proofs.Run.Cycle
import GeneticProgramming.Proofs.Run.Scored
import Mathlib.Data.List.Chain

/-!
# Elitism

Where there are elites, and a tree is scored for what it is, no reported generation has a worse best
score than one before it, whatever scores there are: `Run.best_ascends`.  For a copy of a fittest
tree is carried over from each generation, and it is scored again as the tree was.
-/

namespace GeneticProgramming

open GeneticProgramming.Tree

variable {C : Type} {p : Palette C} {t : Tree} {bound : Double}

/-! ## Scores of trees -/

namespace Objective

variable {objective : Objective C}

/-- A fitness function that scores a tree alike at each index. -/
def IgnoresPlace (objective : Objective C) (p : Palette C) : Prop :=
  ∀ t i j, t.Sound p → objective p t i = objective p t j

/-- Wherever this tree is scored, its score is not below the bound. -/
def Attains (objective : Objective C) (p : Palette C) (bound : Double) (t : Tree) : Prop :=
  ∀ i verdict, objective p t i = .ok (.ok verdict) →
    bound.le verdict.fitness.finalize.adjusted = true

/-- Once a tree was scored, its copies attain that score. -/
theorem attains_duplicate (hpure : objective.IsPure p) (hplace : objective.IgnoresPlace p)
    (ht : t.Sound p) {i : Nat} {verdict : Verdict}
    (hverdict : objective p t i = .ok (.ok verdict))
    (hbound : bound.le verdict.fitness.finalize.adjusted = true) :
    objective.Attains p bound t.duplicate := by
  intro j again hagain
  rw [hpure t.duplicate t j ht.duplicate ht ⟨rfl, rfl⟩, hplace t j i ht, hverdict] at hagain
  injection hagain with hagain
  injection hagain with hagain
  exact hagain ▸ hbound

end Objective

theorem Regression.ignoresPlace_objective (p : Palette Single) : objective.IgnoresPlace p :=
  fun _ _ _ _ => rfl

namespace Run

variable {r r' start : Run C} {objective : Objective C} {files : Files} {s : Stepped C}
  {c : Configuration} {root : TypeId} {pop scored : Population}

/-- A population that holds a tree which attains this bound. -/
def Upholds (objective : Objective C) (p : Palette C) (bound : Double) (pop : Population) : Prop :=
  ∃ x ∈ pop, objective.Attains p bound x.tree

/-- Whether a bound is upheld is told by the trees. -/
theorem Upholds.of_map_tree (h : Upholds objective p bound pop)
    (htrees : scored.map Individual.tree = pop.map Individual.tree) :
    Upholds objective p bound scored := by
  obtain ⟨x, hx, hattains⟩ := h
  have hmem : x.tree ∈ scored.map Individual.tree := htrees ▸ List.mem_map_of_mem hx
  obtain ⟨y, hy, htree⟩ := List.mem_map.1 hmem
  exact ⟨y, hy, htree ▸ hattains⟩

/-- A population whose trees were scored as they are now, and statistics of these scores. -/
structure Rated (objective : Objective C) (p : Palette C) (pop : Population) (stats : Statistics) :
    Prop where
  scores : ∀ x ∈ pop, ∃ i verdict, objective p x.tree i = .ok (.ok verdict) ∧
    x.fitness = verdict.fitness.finalize
  stats : stats = .ofPopulation pop

namespace Rated

variable {stats : Statistics}

theorem of_scoreFrom {solved : Bool}
    (hscore : scoreFrom p objective 0 pop = .ok (scored, .ok solved)) :
    Rated objective p scored (.ofPopulation scored) := by
  refine ⟨fun x hx => ?_, rfl⟩
  obtain ⟨i, hi⟩ := List.mem_iff_getElem?.1 hx
  obtain ⟨verdict, hverdict, hfitness⟩ := scores_of_scoreFrom hscore hi
  exact ⟨0 + i, verdict, hverdict, hfitness⟩

/-- The best score is no less than what a tree of the population attains. -/
theorem le_best (h : Rated objective p pop stats) (hupholds : Upholds objective p bound pop) :
    bound.le stats.best = true := by
  obtain ⟨x, hx, hattains⟩ := hupholds
  obtain ⟨i, verdict, hverdict, hfitness⟩ := h.scores x hx
  have hbest := Statistics.le_best hx
  rw [hfitness, Fitness.rankKey_finalize] at hbest
  rw [h.stats]
  exact Double.le_trans (hattains i verdict hverdict) hbest

/-- If there are elites, a copy of one of them attains the best score. -/
theorem attains_elite (h : Rated objective p pop stats) (hpure : objective.IsPure p)
    (hplace : objective.IgnoresPlace p) (hne : pop ≠ []) (hsound : ∀ x ∈ pop, x.tree.Sound p)
    {n : Nat} (hn : 1 ≤ n) :
    ∃ x ∈ pop.bestIndividuals n, objective.Attains p stats.best x.tree.duplicate := by
  obtain ⟨x, hx, hfittest⟩ := Population.exists_fittest hne hn
  have hmem := bestIndividuals_mem hx
  obtain ⟨i, verdict, hverdict, hfitness⟩ := h.scores x hmem
  have hbest := Statistics.best_le_of_fittest hne hfittest
  rw [← h.stats, hfitness, Fitness.rankKey_finalize] at hbest
  exact ⟨x, hx, Objective.attains_duplicate hpure hplace (hsound x hmem) hverdict hbest⟩

end Rated

/-- What one of the elites attains is upheld by the next generation, whatever stands behind them. -/
theorem upholds_litter (h : ∃ x ∈ r.population.bestIndividuals r.configuration.elites,
    objective.Attains p bound x.tree.duplicate) (children : List Tree) :
    Upholds objective p bound (r.litter children) := by
  obtain ⟨x, hx, hattains⟩ := h
  refine ⟨.ofTree x.tree.duplicate, List.mem_map_of_mem ?_, hattains⟩
  exact List.mem_append_left _ (List.mem_map_of_mem hx)

/-! ## What holds in each phase -/

/-- The best score never falls from one report to the next, and what was reported last is upheld by
the generation that is reported next. -/
structure Ascent (objective : Objective C) (r : Run C) : Prop where
  history : r.history.IsChain fun x y => x.best.le y.best = true
  next : match r.phase with
    | .evaluate => ∀ last ∈ r.history.getLast?,
        Upholds objective r.palette last.best r.population
    | .report => Rated objective r.palette r.population r.stats ∧
        ∀ last ∈ r.history.getLast?, last.best.le r.stats.best = true
    | .selectAndVary => Rated objective r.palette r.population r.stats ∧
        r.history.getLast? = some r.stats
    | .swap => ∀ last ∈ r.history.getLast?, Upholds objective r.palette last.best r.next
    | .initial | .terminate => True

namespace Ascent

/-- A failure leaves the trees and what was reported. -/
theorem of_leaves (h : r.Ascent objective) (hleaves : r.Leaves r') : r'.Ascent objective := by
  unfold Leaves at hleaves
  split at hleaves
  · exact hleaves ▸ h
  · exact hleaves ▸ h
  · next hphase =>
    obtain ⟨population, htrees, rfl⟩ := hleaves
    obtain ⟨hhistory, hnext⟩ := h
    rw [hphase] at hnext
    refine ⟨hhistory, ?_⟩
    rw [hphase]
    exact fun last hlast => (hnext last hlast).of_map_tree htrees
  · exact hleaves.elim

section

variable (hpure : objective.IsPure p) (hplace : objective.IgnoresPlace p) (hvalid : c.Valid)
  (helites : 1 ≤ c.elites) (hinvariant : Invariant p c root r)
include hpure hplace hvalid helites hinvariant

theorem of_becomes (h : r.Ascent objective) (hbecomes : r.Becomes objective r') :
    r'.Ascent objective := by
  obtain ⟨rfl, rfl, rfl, -, -⟩ := id hinvariant
  obtain ⟨hhistory, hnext⟩ := h
  unfold Becomes at hbecomes
  cases hphase : r.phase <;> rw [hphase] at hbecomes hnext
  case initial =>
    obtain ⟨-, population, rfl⟩ := hbecomes
    exact ⟨.nil, fun last hlast => nomatch hlast⟩
  case evaluate =>
    obtain ⟨population, solved, hscore, rfl⟩ := hbecomes
    have hrated := Rated.of_scoreFrom hscore
    refine ⟨hhistory, hrated, fun last hlast => ?_⟩
    -- scoring leaves the trees, so it meets the one that upholds what was reported last
    exact hrated.le_best ((hnext last hlast).of_map_tree (map_tree_scoreFrom hscore))
  case report =>
    obtain ⟨hrated, hlast⟩ := hnext
    subst hbecomes
    constructor
    · refine hhistory.append (.singleton _) fun last hmem reported hreported => ?_
      rw [← Option.mem_some.1 hreported]
      exact hlast last hmem
    · cases hfinished : r.isFinished with
      | true => trivial
      | false => exact ⟨hrated, List.getLast?_concat⟩
  case selectAndVary =>
    obtain ⟨hrated, hreported⟩ := hnext
    obtain ⟨selectors, next, hbreed, -, rfl⟩ := hbecomes
    rw [breed_eq, breedWith_eq_ok_iff] at hbreed
    obtain ⟨_, _, children, _, -, -, -, hbred⟩ := hbreed
    have hlitter : next = r.litter children := congrArg Run.next hbred
    have hwhole := hinvariant.whole (by rw [hphase]; nofun) (by rw [hphase]; nofun)
    refine ⟨hhistory, fun last hlast => ?_⟩
    -- what was reported last are the statistics of the population that is bred from
    have hstats : last = r.stats := Option.some.inj (hlast.symm.trans hreported)
    rw [hstats, hlitter]
    refine upholds_litter (hrated.attains_elite hpure hplace (hwhole.ne_nil hvalid) ?_ helites) _
    exact fun x hx => (hwhole.allowed x hx).proper.sound
  case swap =>
    subst hbecomes
    exact ⟨hhistory, hnext⟩
  case terminate =>
    subst hbecomes
    refine ⟨hhistory, ?_⟩
    rw [hphase]
    trivial

theorem step (h : r.Ascent objective) (hs : r.step objective files = .ok s) :
    s.run.Ascent objective := by
  rcases step_cases hs with ⟨-, hrun | hbecomes⟩ | ⟨-, hleaves⟩
  · rw [hrun]
    exact ⟨h.history, trivial⟩
  · exact h.of_becomes hpure hplace hvalid helites hinvariant hbecomes
  · exact h.of_leaves hleaves

end

end Ascent

variable {ticks : List (Tick C)}

section

variable (hp : p.IsBuilt) (hnew : Run.new p c = .ok (.ok start)) (helites : 1 ≤ c.elites)
  (hpure : objective.IsPure p) (hplace : objective.IgnoresPlace p)
include hp hnew helites hpure hplace

theorem Driven.ascent (h : Driven start ticks r)
    (hsame : ∀ tick ∈ ticks, tick.objective = objective) : r.Ascent objective := by
  obtain ⟨hvalid, -, -⟩ := invariant_of_new hp hnew
  induction h with
  | start =>
    obtain ⟨-, root, variation, g, -, rfl⟩ := new_eq_ok hnew
    exact ⟨.nil, trivial⟩
  | @step ticks r _ files s hdriven hs ih =>
    obtain ⟨hbefore, hlast⟩ := List.forall_mem_append.1 hsame
    obtain rfl := hlast _ List.mem_cons_self
    exact (ih hbefore).step hpure hplace hvalid helites (hdriven.reached.invariant hp hnew) hs
  | stop b _ ih => exact ⟨(ih hsame).history, (ih hsame).next⟩
  | sync y _ ih => exact ⟨(ih hsame).history, (ih hsame).next⟩

/-- In a run that is advanced by steps and carries over at least one elite, the best score never
falls from one reported generation to a later one, as long as the fitness function scores a tree for
what it is.  The scores themselves may be anything, infinities and NaNs included, and the best one
never is a NaN where it is compared. -/
theorem best_ascends (h : Driven start ticks r)
    (hsame : ∀ tick ∈ ticks, tick.objective = objective) :
    r.history.Pairwise fun x y => x.best.le y.best = true := by
  let ascends (x y : Statistics) : Prop := x.best.le y.best = true
  have : Trans ascends ascends ascends := ⟨Double.le_trans⟩
  exact List.isChain_iff_pairwise.1 (h.ascent hp hnew helites hpure hplace hsame).history

end

/-! ### Two individuals, one of them an elite -/

/-- The fitter of two individuals is carried over. -/
def couple : Configuration := { lone with populationSize := 2, elites := 1, seed := 28 }

theorem ignoresPlace_smallness : smallness.IgnoresPlace coins := fun _ _ _ _ => rfl

/-- What breeding makes of a run whose individuals stand in the order of their ranks. -/
def bredInPlace? (r : Run C) : Option (Run C) := do
  let start ← (r.selectors.prepare r.population r.stats).toOption
  let elites := (r.population.take r.configuration.elites).map (·.tree.duplicate)
  let room := r.configuration.populationSize - elites.length
  let (children, selectors) ← (r.offspring 0 ((room + 1) / 2) start).toOption
  return { r with selectors, next := (elites ++ children.take room).map .ofTree }

theorem breed_of_bredInPlace?
    (hranked : (List.range r.population.length).Pairwise fun i j =>
      r.population.rankAt j ≤ r.population.rankAt i)
    (hsize : individualSize * r.configuration.populationSize < 2 ^ 63)
    (h : r.bredInPlace? = some r') : r.breed = .ok (.ok r') := by
  have helites : r.elites =
      (r.population.take r.configuration.elites).map (·.tree.duplicate) := by
    rw [elites, Population.bestIndividuals_of_pairwise hranked]
  obtain ⟨first, hfirst, h⟩ := Option.bind_eq_some_iff.1 h
  dsimp only at h
  rw [← helites] at h
  obtain ⟨⟨children, last⟩, hchildren, h⟩ := Option.bind_eq_some_iff.1 h
  injection h with h
  rw [breed_eq]
  exact breedWith_eq_ok_iff.2 ⟨first, _, children, last, eq_ok_of_toOption hfirst,
    demandBlock_of_lt hsize, eq_ok_of_toOption hchildren, h.symm⟩

/-- Whether a run that has reported one generation reports a better one next, and then is over. -/
def rises (r : Run Unit) : Bool :=
  r.phase = .selectAndVary && !r.stopRequested && r.configuration.populationSize = 2 &&
    (List.range r.population.length).Pairwise (fun i j =>
      r.population.rankAt j ≤ r.population.rankAt i) &&
    r.bredInPlace?.any fun bred =>
      (finish { bred with phase := .swap } smallness .empty).toOption.any fun s =>
        match s.run.history with
        | [x, y] => x.best.lt y.best
        | _ => false

theorem exists_rising : ∃ start s, Run.new coins couple = .ok (.ok start) ∧
    runFor smallness 3 start .empty = .ok s ∧ s.run.rises = true :=
  exists_of_trial (f := fun start => runFor smallness 3 start .empty) (by decide +kernel)

theorem best_ascends_couple : coins.IsBuilt ∧ 1 ≤ couple.elites ∧ smallness.IsPure coins ∧
    smallness.IgnoresPlace coins ∧ ∃ start ticks r, Run.new coins couple = .ok (.ok start) ∧
      Driven start ticks r ∧ (∀ tick ∈ ticks, tick.objective = smallness) ∧
      (r.history.Pairwise fun x y => x.best.le y.best = true) ∧
      ∃ x y, r.history = [x, y] ∧ x.best.lt y.best = true := by
  obtain ⟨start, s, hnew, hrun, htest⟩ := exists_rising
  simp only [rises, Bool.and_eq_true, decide_eq_true_eq, Option.any_eq_true,
    Bool.not_eq_true'] at htest
  obtain ⟨⟨⟨⟨hphase, hstop⟩, hsize⟩, hranked⟩, bred, hbred, ended, hended, hrises⟩ := htest
  have hbreed := breed_of_bredInPlace? hranked (by rw [hsize]; decide) hbred
  let next : Stepped Unit := ⟨{ bred with phase := .swap }, .empty, none⟩
  have hstep : s.run.step smallness .empty = .ok next := by
    rw [step, hstop]
    change s.run.perform smallness .empty = _
    rw [perform, hphase]
    dsimp only
    rw [hbreed]
    rfl
  obtain ⟨taken, hdriven, htaken⟩ := Driven.start.append_runFor hrun
  obtain ⟨more, hdriven, hmore⟩ :=
    (hdriven.step hstep).append_runFor (eq_ok_of_toOption hended)
  have hsame : ∀ tick ∈ taken ++ [⟨s.run, smallness, next⟩] ++ more,
      tick.objective = smallness := by
    intro tick htick
    rcases List.mem_append.1 htick with htick | htick
    · rcases List.mem_append.1 htick with htick | htick
      · exact (htaken tick htick).1
      · rw [List.mem_singleton.1 htick]
    · exact (hmore tick htick).1
  have hascends := best_ascends isBuilt_coins hnew (by decide) isPure_smallness
    ignoresPlace_smallness hdriven hsame
  refine ⟨isBuilt_coins, by decide, isPure_smallness, ignoresPlace_smallness, start, _, ended.run,
    hnew, hdriven, hsame, hascends, ?_⟩
  split at hrises
  · next x y hhistory => exact ⟨x, y, hhistory, hrises⟩
  · contradiction

end Run

end GeneticProgramming
