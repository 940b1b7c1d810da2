import GeneticProgramming.Proofs.Population.Ranking
import GeneticProgramming.Proofs.Run.Crew
import GeneticProgramming.Proofs.Run.Invariant
import Mathlib.Algebra.BigOperators.Group.Finset.Piecewise

/-!
# Slots filled in any order

A slot draws from a stream of its own, so what is done there, and what is picked by a tournament, at
random or by a roulette wheel, is told by the slot alone.  A walk along the ranking is shared: who
takes the next individual depends on the order of the turns, and only the individuals that are taken
in all do not.  This is `Run.breedBy_settles`; where no slot picks its parents on a walk, all orders
breed the same generation.
-/

namespace GeneticProgramming

variable {C : Type}

/-! ## Walks -/

/-- The order in which individuals are picked, where no draw tells it. -/
def SelectionKind.order (pop : Population) : SelectionKind → Option (List Nat)
  | .best => some pop.rankedIndexes
  | .worst => some pop.rankedIndexes.reverse
  | _ => none

/-- The tree that is picked next after `n` picks in an order that goes round and round. -/
def Population.passed (pop : Population) (order : List Nat) (n : Nat) : Option Tree :=
  ((order[n % order.length]?).bind (pop[·]?)).map Individual.tree

namespace Selector

variable {s s' : Selector} {pop : Population} {stats : Statistics} {order : List Nat}

/-- A pick that is told by draws changes no selector. -/
theorem pickTree_same (h : s.kind.order pop = none) :
    Yields (s.pickTree pop) fun out => out.2 = s := by
  have hpick : Yields (s.pick pop) fun out => out.2 = s := by
    match s with
    | .tournament size =>
      refine Yields.ite (fun _ => Yields.throw _) fun _ => ?_
      exact Yields.bind (Yields.trivial _) fun _ _ => Yields.pure rfl
    | .walk false _ _ => contradiction
    | .walk true _ _ => contradiction
    | .random => exact Yields.bind (Yields.trivial _) fun _ _ => Yields.pure rfl
    | .roulette _ => exact Yields.bind (Yields.trivial _) fun _ _ => Yields.pure rfl
  refine Yields.bind hpick fun picked hpicked => ?_
  exact Yields.bind (Yields.trivial _) fun _ _ => Yields.pure hpicked

/-- A walk takes one individual after the other. -/
theorem pickTree_walk {reversed : Bool} {n : Nat} (horder : order ≠ []) :
    Yields ((walk reversed order n).pickTree pop) fun out =>
      out.2 = walk reversed order (n + 1) ∧ pop.passed order n = some out.1 := by
  have hlt : n % order.length < order.length := Nat.mod_lt n (List.length_pos_iff.2 horder)
  have hget : order[n % order.length]? = some order[n % order.length] :=
    List.getElem?_eq_getElem hlt
  have hpick : Yields ((walk reversed order n).pick pop) fun out =>
      out = (order[n % order.length], walk reversed order (n + 1)) := by
    unfold pick
    dsimp only
    rw [hget]
    exact Yields.pure rfl
  refine Yields.bind hpick fun picked hpicked => ?_
  subst hpicked
  refine Yields.bind (Yields.lift fun x hx => eq_of_demand hx) fun x hx => Yields.pure ⟨rfl, ?_⟩
  rw [Population.passed, hget, Option.bind_some, hx, Option.map_some]

/-- A selector that was prepared to walk stands at the first individual. -/
theorem prepare_walk (h : s.prepare pop stats = .ok s') (horder : s.kind.order pop = some order) :
    order ≠ [] ∧ ∃ reversed, s' = walk reversed order 0 := by
  unfold prepare at h
  split at h
  · contradiction
  · next hempty =>
    have hranked := pop.rankedIndexes_ne_nil fun hnil => hempty (List.isEmpty_iff.2 hnil)
    match s with
    | .tournament _ => contradiction
    | .walk false _ _ =>
      injection h with h
      injection horder with horder
      subst h horder
      exact ⟨hranked, false, rfl⟩
    | .walk true _ _ =>
      injection h with h
      injection horder with horder
      subst h horder
      exact ⟨mt List.reverse_eq_nil_iff.1 hranked, true, rfl⟩
    | .random => contradiction
    | .roulette _ => contradiction

end Selector

namespace Selectors

variable {s s' : Selectors}

theorem ext_of (h : ∀ role, s.of role = s'.of role) : s = s' := by
  have hcrossover : s.crossover = s'.crossover := h .crossover
  have hmutation : s.mutation = s'.mutation := h .mutation
  have hreproduction : s.reproduction = s'.reproduction := h .reproduction
  cases s
  cases s'
  rw [Selectors.mk.injEq]
  exact ⟨hcrossover, hmutation, hreproduction⟩

theorem prepare_of {pop : Population} {stats : Statistics} (h : s.prepare pop stats = .ok s')
    (role : Role) : (s.of role).prepare pop stats = .ok (s'.of role) := by
  unfold prepare at h
  obtain ⟨crossover, hcrossover, h⟩ := exists_of_bind_eq_ok h
  obtain ⟨mutation, hmutation, h⟩ := exists_of_bind_eq_ok h
  obtain ⟨reproduction, hreproduction, h⟩ := exists_of_bind_eq_ok h
  injection h with h
  subst h
  cases role with
  | crossover => exact hcrossover
  | mutation => exact hmutation
  | reproduction => exact hreproduction

end Selectors

namespace Run

variable {r r' : Run C} {slot : Nat} {s s' start : Selectors} {w w' : Worker} {role other : Role}

/-! ## What a turn does -/

/-- What is done in a slot, as its stream tells. -/
def roleOf? (r : Run C) (slot : Nat) : Option Role :=
  (r.variation.index.run (r.slotStream slot)).toOption.map fun drawn => .ofIndex drawn.1

/-- What a turn makes of a worker and of the selectors. -/
inductive Turns (r : Run C) (slot : Nat) (s : Selectors) : Worker → Worker → Selectors → Prop where
  | choose {index : Nat} {g : Random} :
      r.variation.index.run (r.slotStream slot) = .ok (index, g) →
      Turns r slot s .idle (.chosen (.ofIndex index) g) s
  | first {role : Role} {t : Tree} {x : Selector} {g g' : Random} :
      ((s.of role).pickTree r.population).run g = .ok ((t, x), g') →
      Turns r slot s (.chosen role g) (.half role t g') (s.put role x)
  | second {role : Role} {t u : Tree} {x : Selector} {g g' : Random} :
      ((s.of role).pickTree r.population).run g = .ok ((u, x), g') →
      Turns r slot s (.half role t g) (.full role t u g') (s.put role x)
  | finish {role : Role} {t u : Tree} {children : Tree × Tree} {g g' : Random} :
      (r.produce role t u).run g = .ok (children, g') →
      Turns r slot s (.full role t u g) (.done ⟨role, (t, u), children⟩) s
  | rest {result : Pairing} : Turns r slot s (.done result) (.done result) s

theorem work_eq_ok_iff : r.work slot s w = .ok (w', s') ↔ r.Turns slot s w w' s' := by
  constructor
  · intro h
    cases w with
    | idle =>
      obtain ⟨⟨index, g⟩, hindex, h⟩ := exists_of_bind_eq_ok h
      injection h with h
      injection h with hw hs
      subst hw hs
      exact .choose hindex
    | chosen role g =>
      obtain ⟨⟨⟨t, x⟩, g'⟩, hpick, h⟩ := exists_of_bind_eq_ok h
      injection h with h
      injection h with hw hs
      subst hw hs
      exact .first hpick
    | half role t g =>
      obtain ⟨⟨⟨u, x⟩, g'⟩, hpick, h⟩ := exists_of_bind_eq_ok h
      injection h with h
      injection h with hw hs
      subst hw hs
      exact .second hpick
    | full role t u g =>
      obtain ⟨⟨children, g'⟩, hproduce, h⟩ := exists_of_bind_eq_ok h
      injection h with h
      injection h with hw hs
      subst hw hs
      exact .finish hproduce
    | done result =>
      injection h with h
      injection h with hw hs
      subst hw hs
      exact .rest
  · rintro (hindex | hpick | hpick | hproduce | _)
    · rw [work, hindex]
      rfl
    · rw [work, hpick]
      rfl
    · rw [work, hpick]
      rfl
    · rw [work, hproduce]
      rfl
    · rfl

namespace Worker

/-- The number of turns that a worker has had, up to the last one. -/
def turns : Worker → Nat
  | idle => 0
  | chosen .. => 1
  | half .. => 2
  | full .. => 3
  | done _ => 4

theorem eq_done (h : w.turns = 4) : ∃ result, w = .done result := by
  cases w with
  | done result => exact ⟨result, rfl⟩
  | _ => simp [turns] at h

def role? : Worker → Option Role
  | idle => none
  | chosen role _ => some role
  | half role _ _ => some role
  | full role _ _ _ => some role
  | done result => some result.role

/-- The trees that were picked for a role. -/
def picks (role : Role) : Worker → Multiset Tree
  | half other t _ => if other = role then {t} else 0
  | full other t u _ => if other = role then {t, u} else 0
  | done result => if result.role = role then {result.parents.1, result.parents.2} else 0
  | _ => 0

end Worker

namespace Turns

theorem turns_eq (h : r.Turns slot s w w' s') : w'.turns = min 4 (w.turns + 1) := by
  cases h <;> rfl

theorem roleOf?_eq (h : r.Turns slot s w w' s')
    (hw : ∀ role, w.role? = some role → r.roleOf? slot = some role)
    (hrole : w'.role? = some role) : r.roleOf? slot = some role := by
  cases h with
  | choose hindex =>
    rw [roleOf?, hindex]
    exact hrole
  | first _ => exact hw role hrole
  | second _ => exact hw role hrole
  | finish _ => exact hw role hrole
  | rest => exact hw role hrole

/-- Only a walk for the worker's own role goes on. -/
theorem of_eq (h : r.Turns slot s w w' s')
    (hother : w.role? = some other → (s.of other).kind.order r.population = none) :
    s'.of other = s.of other := by
  have hput : ∀ {role x t g g'}, ((s.of role).pickTree r.population).run g = .ok ((t, x), g') →
      w.role? = some role → (s.put role x).of other = s.of other := by
    intro role x t g g' hpick hrole
    by_cases hsame : other = role
    · subst hsame
      rw [Selectors.of_put]
      exact Selector.pickTree_same (hother hrole) _ _ _ hpick
    · exact s.of_put_of_ne hsame x
  cases h with
  | choose _ => rfl
  | first hpick => exact hput hpick rfl
  | second hpick => exact hput hpick rfl
  | finish _ => rfl
  | rest => rfl

/-- A worker that does not walk takes the same turn with any selectors that are the same for it. -/
theorem told (h : r.Turns slot s w w' s') (hrole : ∀ role, w.role? = some role →
      s.of role = start.of role ∧ (start.of role).kind.order r.population = none) :
    r.Turns slot start w w' start := by
  have hstays : ∀ {role x t g g'}, ((s.of role).pickTree r.population).run g = .ok ((t, x), g') →
      w.role? = some role → ((start.of role).pickTree r.population).run g =
        .ok ((t, start.of role), g') := by
    intro role x t g g' hpick hw
    obtain ⟨hsame, hnone⟩ := hrole role hw
    rw [hsame] at hpick
    have hx : x = start.of role := Selector.pickTree_same hnone _ _ _ hpick
    rw [hpick, hx]
  cases h with
  | choose hindex => exact .choose hindex
  | @first own t x g g' hpick =>
    have hfirst : r.Turns slot start (.chosen own g) (.half own t g')
        (start.put own (start.of own)) := .first (hstays hpick rfl)
    rwa [Selectors.put_of] at hfirst
  | @second own t u x g g' hpick =>
    have hsecond : r.Turns slot start (.half own t g) (.full own t u g')
        (start.put own (start.of own)) := .second (hstays hpick rfl)
    rwa [Selectors.put_of] at hsecond
  | finish hproduce => exact .finish hproduce
  | rest => exact .rest

/-- A turn picks one tree for a role, or none. -/
theorem picks_cases (h : r.Turns slot s w w' s') (role : Role) :
    s'.of role = s.of role ∧ w'.picks role = w.picks role ∨
      ∃ t x g g', ((s.of role).pickTree r.population).run g = .ok ((t, x), g') ∧
        s'.of role = x ∧ w'.picks role = w.picks role + {t} := by
  cases h with
  | choose _ => exact .inl ⟨rfl, rfl⟩
  | @first own t x g g' hpick =>
    by_cases hown : own = role
    · subst hown
      refine .inr ⟨t, x, g, g', hpick, s.of_put own x, ?_⟩
      simp [Worker.picks]
    · refine .inl ⟨s.of_put_of_ne (Ne.symm hown) x, ?_⟩
      simp [Worker.picks, hown]
  | @second own t u x g g' hpick =>
    by_cases hown : own = role
    · subst hown
      refine .inr ⟨u, x, g, g', hpick, s.of_put own x, ?_⟩
      simp only [Worker.picks, if_pos]
      rfl
    · refine .inl ⟨s.of_put_of_ne (Ne.symm hown) x, ?_⟩
      simp [Worker.picks, hown]
  | finish _ => exact .inl ⟨rfl, rfl⟩
  | rest => exact .inl ⟨rfl, rfl⟩

end Turns

/-! ## What a schedule does -/

variable {schedule : List Nat} {crew : Crew} {pairs : Nat}

theorem play_append_singleton (r : Run C) (start : Selectors) (schedule : List Nat) (slot : Nat) :
    r.play start (schedule ++ [slot]) = r.play start schedule >>= fun crew => r.turn crew slot := by
  rw [play, List.foldlM_append]
  exact bind_congr fun crew => bind_pure (r.turn crew slot)

/-- What holds of a fresh crew and is kept by each turn holds after all of them. -/
theorem play_induction {P : List Nat → Crew → Prop} (hfresh : P [] (.fresh start))
    (hturn : ∀ {schedule crew slot w s}, P schedule crew →
      r.Turns slot crew.selectors (crew.workers slot) w s →
        P (schedule ++ [slot]) (crew.set slot w s))
    (h : r.play start schedule = .ok crew) : P schedule crew := by
  induction schedule using List.reverseRecOn generalizing crew with
  | nil =>
    injection h with h
    exact h ▸ hfresh
  | append_singleton schedule slot ih =>
    rw [play_append_singleton] at h
    obtain ⟨before, hbefore, h⟩ := exists_of_bind_eq_ok h
    obtain ⟨w, s, hwork, rfl⟩ := turn_eq_ok h
    exact hturn (ih hbefore) (work_eq_ok_iff.1 hwork)

/-- What a crew has come to.  Selectors that no slot walks on are kept, and a slot that does not
walk stands where it would without the others. -/
structure Progress (r : Run C) (start : Selectors) (schedule : List Nat) (crew : Crew) : Prop where
  turns : ∀ slot, (crew.workers slot).turns = min 4 (schedule.count slot)
  drawn : ∀ slot role, (crew.workers slot).role? = some role → r.roleOf? slot = some role
  kept : ∀ role, (∀ slot ∈ schedule, r.roleOf? slot = some role →
      (start.of role).kind.order r.population = none) → crew.selectors.of role = start.of role
  told : ∀ slot role, r.roleOf? slot = some role →
      (start.of role).kind.order r.population = none →
        r.alone slot start (schedule.count slot) = .ok (crew.workers slot, start)

theorem Progress.fresh (r : Run C) (start : Selectors) : r.Progress start [] (.fresh start) where
  turns _ := rfl
  drawn _ _ h := nomatch h
  kept _ _ := rfl
  told _ _ _ _ := rfl

theorem Progress.turn (h : r.Progress start schedule crew)
    (hturn : r.Turns slot crew.selectors (crew.workers slot) w s) :
    r.Progress start (schedule ++ [slot]) (crew.set slot w s) := by
  have hcount : ∀ other, (schedule ++ [slot]).count other =
      schedule.count other + if slot = other then 1 else 0 := by
    intro other
    rw [List.count_append, List.count_singleton]
    simp only [beq_iff_eq]
  constructor
  case turns =>
    intro other
    rw [hcount]
    by_cases hother : other = slot
    · subst hother
      rw [Crew.workers_set_self, hturn.turns_eq, h.turns, if_pos rfl]
      omega
    · rw [crew.workers_set_of_ne slot w s hother, h.turns, if_neg (Ne.symm hother), Nat.add_zero]
  case drawn =>
    intro other role hrole
    by_cases hother : other = slot
    · subst hother
      rw [Crew.workers_set_self] at hrole
      exact hturn.roleOf?_eq (h.drawn other) hrole
    · rw [crew.workers_set_of_ne slot w s hother] at hrole
      exact h.drawn other role hrole
  case kept =>
    intro role hrole
    obtain ⟨hbefore, hlast⟩ := List.forall_mem_append.1 hrole
    have hsame := h.kept role hbefore
    refine (hturn.of_eq fun hown => ?_).trans hsame
    rw [hsame]
    exact hlast slot (List.mem_singleton_self slot) (h.drawn slot role hown)
  case told =>
    intro other role hrole hnone
    have hbefore := h.told other role hrole hnone
    rw [hcount]
    by_cases hother : other = slot
    · subst hother
      rw [Crew.workers_set_self, if_pos rfl, alone, hbefore]
      refine work_eq_ok_iff.2 (hturn.told fun own hown => ?_)
      obtain rfl : role = own := Option.some.inj (hrole.symm.trans (h.drawn other own hown))
      exact ⟨h.kept role fun _ _ _ => hnone, hnone⟩
    · rw [crew.workers_set_of_ne slot w s hother, if_neg (Ne.symm hother), Nat.add_zero]
      exact hbefore

theorem progress_of_play (h : r.play start schedule = .ok crew) :
    r.Progress start schedule crew :=
  play_induction (.fresh r start) (fun hprogress hturn => hprogress.turn hturn) h

/-- Turns after the fourth one change nothing. -/
theorem alone_eq {turns : Nat} (h : 4 ≤ turns) :
    r.alone slot start turns = r.alone slot start 4 := by
  induction turns, h using Nat.le_induction with
  | base => rfl
  | succ turns _ ih =>
    rw [alone, ih, alone_four]
    cases (r.pairing start).run (r.slotStream slot) <;> rfl

/-- A worker that fills its slot gets through each turn. -/
theorem exists_alone {out : (Pairing × Selectors) × Random}
    (h : (r.pairing start).run (r.slotStream slot) = .ok out) (turns : Nat) :
    ∃ reached, r.alone slot start turns = .ok reached := by
  have hfour : ∃ reached, r.alone slot start 4 = .ok reached := by
    rw [alone_four, h]
    exact ⟨_, rfl⟩
  rcases Nat.le_total turns 4 with hle | hle
  · refine Nat.decreasingInduction (fun k _ hnext => ?_) hfour hle
    obtain ⟨reached, hnext⟩ := hnext
    obtain ⟨before, hbefore, -⟩ := exists_of_bind_eq_ok hnext
    exact ⟨before, hbefore⟩
  · rw [alone_eq hle]
    exact hfour

/-! ## Slots that do not walk -/

/-- A schedule of the first slots that fills each of them. -/
structure Full (pairs : Nat) (schedule : List Nat) : Prop where
  slots : ∀ slot ∈ schedule, slot < pairs
  filled : ∀ slot < pairs, 4 ≤ schedule.count slot

theorem full_inOrder (pairs : Nat) : Full pairs (inOrder pairs) := by
  constructor
  · intro slot hslot
    obtain ⟨j, hj, hmem⟩ := List.mem_flatMap.1 hslot
    rw [List.eq_of_mem_replicate hmem]
    exact List.mem_range.1 hj
  · intro slot hslot
    rw [← List.replicate_sublist_iff, inOrder, List.flatMap]
    exact List.sublist_flatten_of_mem (List.mem_map_of_mem (List.mem_range.2 hslot))

/-- None of these slots picks its parents on a walk. -/
def Still (r : Run C) (start : Selectors) (slots : Nat → Prop) : Prop :=
  ∀ slot, slots slot → ∀ role, r.roleOf? slot = some role →
    (start.of role).kind.order r.population = none

theorem Progress.selectors_eq (h : r.Progress start schedule crew)
    (hstill : r.Still start (· ∈ schedule)) : crew.selectors = start :=
  Selectors.ext_of fun role => h.kept role fun slot hslot hrole => hstill slot hslot role hrole

theorem exists_role {out : (Pairing × Selectors) × Random}
    (h : (r.pairing start).run (r.slotStream slot) = .ok out) :
    ∃ role, r.roleOf? slot = some role := by
  rw [pairing, StateT.run_bind] at h
  obtain ⟨⟨index, g⟩, hindex, -⟩ := exists_of_bind_eq_ok h
  refine ⟨.ofIndex index, ?_⟩
  rw [roleOf?, hindex]
  rfl

/-- If each slot can be filled by itself, the crew can take its turns in any order. -/
theorem exists_play (hstill : r.Still start (· ∈ schedule))
    (hslots : ∀ slot ∈ schedule, ∃ out, (r.pairing start).run (r.slotStream slot) = .ok out) :
    ∃ crew, r.play start schedule = .ok crew := by
  induction schedule using List.reverseRecOn with
  | nil => exact ⟨_, rfl⟩
  | append_singleton schedule slot ih =>
    obtain ⟨hbefore, hlast⟩ := List.forall_mem_append.1 hslots
    have hstill' : r.Still start (· ∈ schedule) :=
      fun other hother => hstill other (List.mem_append_left _ hother)
    obtain ⟨crew, hplay⟩ := ih hstill' hbefore
    have hprogress := progress_of_play hplay
    obtain ⟨out, hout⟩ := hlast slot (List.mem_singleton_self slot)
    obtain ⟨role, hrole⟩ := exists_role hout
    have hnone := hstill slot (List.mem_append_right _ (List.mem_singleton_self slot)) role hrole
    -- the turn is the one that the worker would take next without the others
    obtain ⟨reached, hnext⟩ := exists_alone hout (schedule.count slot + 1)
    rw [alone, hprogress.told slot role hrole hnone] at hnext
    rw [play_append_singleton, hplay]
    refine ⟨crew.set slot reached.1 reached.2, ?_⟩
    change r.turn crew slot = _
    rw [turn, hprogress.selectors_eq hstill']
    change (r.work slot start (crew.workers slot) >>= fun out => _) = _
    rw [show r.work slot start (crew.workers slot) = .ok reached from hnext]
    rfl

/-- A slot that was filled tells what was done there. -/
theorem Progress.filled (h : r.Progress start schedule crew)
    (hfilled : 4 ≤ schedule.count slot) : ∃ result, crew.workers slot = .done result ∧
      r.roleOf? slot = some result.role := by
  have hturns := h.turns slot
  rw [Nat.min_eq_left hfilled] at hturns
  obtain ⟨result, hresult⟩ := Worker.eq_done hturns
  refine ⟨result, hresult, h.drawn slot _ ?_⟩
  rw [hresult]
  rfl

/-- A slot that does not walk is filled as it would be without the others. -/
theorem Progress.pairing_eq (h : r.Progress start schedule crew)
    (hfilled : 4 ≤ schedule.count slot) {result : Pairing}
    (hresult : crew.workers slot = .done result)
    (hnone : (start.of result.role).kind.order r.population = none) :
    ∃ g, (r.pairing start).run (r.slotStream slot) = .ok ((result, start), g) := by
  obtain ⟨result', hresult', hrole⟩ := h.filled hfilled
  rw [hresult] at hresult'
  injection hresult' with hresult'
  subst hresult'
  have htold := h.told slot result.role hrole hnone
  rw [alone_eq hfilled, alone_four, hresult] at htold
  obtain ⟨⟨⟨result', last⟩, g⟩, hout, hdone⟩ := exists_of_bind_eq_ok htold
  injection hdone with hdone
  injection hdone with hworker hlast
  injection hworker with hworker
  have hlast : last = start := hlast
  have hworker : result' = result := hworker
  rw [hlast, hworker] at hout
  exact ⟨g, hout⟩

/-- Where no slot walks, all orders come to the same trees. -/
theorem together_of_together {schedule' : List Nat} {out : List Tree × Selectors}
    (hfull : Full pairs schedule) (hfull' : Full pairs schedule')
    (hstill : r.Still start (· < pairs)) (h : r.together schedule pairs start = .ok out) :
    r.together schedule' pairs start = .ok out := by
  obtain ⟨crew, hplay, h⟩ := exists_of_bind_eq_ok h
  injection h with h
  subst h
  have hprogress := progress_of_play hplay
  have hpairing : ∀ slot < pairs, ∃ result g, crew.workers slot = .done result ∧
      r.roleOf? slot = some result.role ∧
      (r.pairing start).run (r.slotStream slot) = .ok ((result, start), g) := by
    intro slot hslot
    have hfilled := hfull.filled slot hslot
    obtain ⟨result, hresult, hrole⟩ := hprogress.filled hfilled
    obtain ⟨g, hout⟩ := hprogress.pairing_eq hfilled hresult (hstill slot hslot _ hrole)
    exact ⟨result, g, hresult, hrole, hout⟩
  have hstill' : ∀ {schedule}, Full pairs schedule → r.Still start (· ∈ schedule) :=
    fun hfull slot hslot => hstill slot (hfull.slots slot hslot)
  obtain ⟨crew', hplay'⟩ := exists_play (hstill' hfull') fun slot hslot => by
    obtain ⟨result, g, -, -, hout⟩ := hpairing slot (hfull'.slots slot hslot)
    exact ⟨_, hout⟩
  have hprogress' := progress_of_play hplay'
  have hsame : ∀ slot < pairs, crew'.workers slot = crew.workers slot := by
    intro slot hslot
    obtain ⟨result, g, hresult, hrole, hout⟩ := hpairing slot hslot
    have hfilled := hfull'.filled slot hslot
    obtain ⟨result', hresult', hrole'⟩ := hprogress'.filled hfilled
    obtain ⟨g', hout'⟩ :=
      hprogress'.pairing_eq hfilled hresult' (hstill slot hslot _ hrole')
    rw [hout] at hout'
    injection hout' with hout'
    injection hout' with hout'
    injection hout' with hout'
    rw [hresult, hresult', hout']
  rw [together, hplay', hprogress.selectors_eq (hstill' hfull)]
  refine congrArg Except.ok (Prod.ext ?_ (hprogress'.selectors_eq (hstill' hfull')))
  exact List.flatMap_congr fun slot hslot => by rw [hsame slot (List.mem_range.1 hslot)]

/-! ## Slots that walk -/

/-- All trees that the first slots picked for a role. -/
def Crew.picks (crew : Crew) (pairs : Nat) (role : Role) : Multiset Tree :=
  ∑ slot ∈ Finset.range pairs, (crew.workers slot).picks role

theorem Crew.picks_set {extra : Multiset Tree} (hslot : slot < pairs)
    (h : w.picks role = (crew.workers slot).picks role + extra) :
    (crew.set slot w s).picks pairs role = crew.picks pairs role + extra := by
  have hmem : slot ∈ Finset.range pairs := Finset.mem_range.2 hslot
  have hothers : ∀ other ∈ (Finset.range pairs).erase slot,
      ((crew.set slot w s).workers other).picks role = (crew.workers other).picks role := by
    intro other hother
    rw [crew.workers_set_of_ne slot w s (Finset.ne_of_mem_erase hother)]
  rw [picks, picks, ← Finset.add_sum_erase _ _ hmem, Finset.sum_congr rfl hothers,
    Crew.workers_set_self, h, add_right_comm]
  rw [Finset.add_sum_erase _ (fun slot => (crew.workers slot).picks role) hmem]

/-- What the slots of a role have picked are the individuals that a walk has passed. -/
theorem walked_of_play {order : List Nat} {reversed : Bool} (horder : order ≠ [])
    (hstart : start.of role = .walk reversed order 0) (hslots : ∀ slot ∈ schedule, slot < pairs)
    (h : r.play start schedule = .ok crew) : ∃ n, crew.selectors.of role = .walk reversed order n ∧
      (crew.picks pairs role).map some = (Multiset.range n).map (r.population.passed order) := by
  refine play_induction (P := fun schedule crew => (∀ slot ∈ schedule, slot < pairs) →
    ∃ n, crew.selectors.of role = .walk reversed order n ∧
      (crew.picks pairs role).map some = (Multiset.range n).map (r.population.passed order))
    ?_ ?_ h hslots
  · intro _
    refine ⟨0, hstart, ?_⟩
    simp [Crew.picks, Crew.fresh, Worker.picks]
  · intro schedule crew slot w s ih hturn hslots
    obtain ⟨hbefore, hlast⟩ := List.forall_mem_append.1 hslots
    obtain ⟨n, hwalk, hpicks⟩ := ih hbefore
    have hslot : slot < pairs := hlast slot (List.mem_singleton_self slot)
    rcases hturn.picks_cases role with ⟨hsame, hnone⟩ | ⟨t, x, g, g', hpick, hx, hone⟩
    · refine ⟨n, hsame.trans hwalk, ?_⟩
      rw [Crew.picks_set hslot (hnone.trans (add_zero _).symm), add_zero]
      exact hpicks
    · rw [hwalk] at hpick
      obtain ⟨hnext, hpassed⟩ := Selector.pickTree_walk horder _ _ _ hpick
      refine ⟨n + 1, hx.trans hnext, ?_⟩
      rw [Crew.picks_set hslot hone, Multiset.map_add, hpicks, Multiset.range_succ,
        Multiset.map_cons, hpassed, Multiset.map_singleton, add_comm, Multiset.singleton_add]

/-- The number of slots in which a role is played. -/
def slotsOf (r : Run C) (role : Role) : Nat :=
  ((Finset.range r.pairs).filter fun slot => r.roleOf? slot = some role).card

theorem Progress.card_picks (h : r.Progress start schedule crew) (hfull : Full r.pairs schedule)
    (role : Role) : Multiset.card (crew.picks r.pairs role) = 2 * r.slotsOf role := by
  have hslot : ∀ slot ∈ Finset.range r.pairs, Multiset.card ((crew.workers slot).picks role) =
      if r.roleOf? slot = some role then 2 else 0 := by
    intro slot hslot
    obtain ⟨result, hresult, hrole⟩ := h.filled (hfull.filled slot (Finset.mem_range.1 hslot))
    rw [hresult, hrole, Worker.picks, apply_ite Multiset.card]
    simp
  rw [Crew.picks, Multiset.card_sum, Finset.sum_congr rfl hslot, ← Finset.sum_filter,
    Finset.sum_const_nat fun _ _ => rfl, mul_comm, slotsOf]

/-- What a crew has bred: each slot that does not walk holds what it would hold by itself, and those
that walk for a role have shared out the individuals that come first. -/
structure Settles (r : Run C) (start : Selectors) (crew : Crew) : Prop where
  filled : ∀ slot < r.pairs, ∃ result, crew.workers slot = .done result ∧
    r.roleOf? slot = some result.role ∧
    ((start.of result.role).kind.order r.population = none →
      ∃ g, (r.pairing start).run (r.slotStream slot) = .ok ((result, start), g))
  walked : ∀ role order, (start.of role).kind.order r.population = some order →
    (crew.picks r.pairs role).map some =
      (Multiset.range (2 * r.slotsOf role)).map (r.population.passed order)

/-- Where no slot picks its parents on a walk along the ranking, a generation is bred in any order
of the turns or in none, and it is the same in all.  Where some do, each other slot holds the same
trees in all orders; and all slots that walk for a role have taken the individuals that come first,
two each, but who has taken which is up to the order. -/
theorem breedBy_settles (hfull : Full r.pairs schedule) :
    (r.Still r.selectors (· < r.pairs) →
      ∀ r', r.breedBy schedule = .ok (.ok r') ↔ r.breed = .ok (.ok r')) ∧
    ∀ r', r.breedBy schedule = .ok (.ok r') → ∃ start crew,
      r.selectors.prepare r.population r.stats = .ok start ∧ r.play start schedule = .ok crew ∧
        r.Settles start crew ∧ r'.next = r.litter (crew.children r.pairs) := by
  have hkinds : ∀ {start}, r.selectors.prepare r.population r.stats = .ok start →
      ∀ role, (start.of role).kind = (r.selectors.of role).kind :=
    fun hstart role => Selector.kind_of_prepare (Selectors.prepare_of hstart role)
  constructor
  · intro hstill r'
    rw [← breedBy_inOrder, breedBy, breedBy, breedWith_eq_ok_iff, breedWith_eq_ok_iff]
    have hprepared : ∀ {start}, r.selectors.prepare r.population r.stats = .ok start →
        r.Still start (· < r.pairs) := by
      intro start hstart slot hslot role hrole
      rw [hkinds hstart]
      exact hstill slot hslot role hrole
    constructor
    · rintro ⟨start, block, children, last, hstart, hblock, hchildren, hr⟩
      have hsame := together_of_together hfull (full_inOrder r.pairs) (hprepared hstart) hchildren
      exact ⟨start, block, children, last, hstart, hblock, hsame, hr⟩
    · rintro ⟨start, block, children, last, hstart, hblock, hchildren, hr⟩
      have hsame := together_of_together (full_inOrder r.pairs) hfull (hprepared hstart) hchildren
      exact ⟨start, block, children, last, hstart, hblock, hsame, hr⟩
  · intro r' h
    obtain ⟨start, block, children, last, hstart, -, hchildren, rfl⟩ := breedWith_eq_ok_iff.1 h
    obtain ⟨crew, hplay, hchildren⟩ := exists_of_bind_eq_ok hchildren
    injection hchildren with hchildren
    injection hchildren with hchildren
    have hprogress := progress_of_play hplay
    refine ⟨start, crew, hstart, hplay, ⟨fun slot hslot => ?_, fun role order horder => ?_⟩, ?_⟩
    · have hfilled := hfull.filled slot hslot
      obtain ⟨result, hresult, hrole⟩ := hprogress.filled hfilled
      exact ⟨result, hresult, hrole, hprogress.pairing_eq hfilled hresult⟩
    · rw [hkinds hstart] at horder
      obtain ⟨hne, reversed, hwalk⟩ :=
        Selector.prepare_walk (Selectors.prepare_of hstart role) horder
      obtain ⟨n, -, hpicks⟩ := walked_of_play hne hwalk hfull.slots hplay
      have hcard := congrArg Multiset.card hpicks
      rw [Multiset.card_map, Multiset.card_map, Multiset.card_range,
        hprogress.card_picks hfull] at hcard
      rw [hpicks, hcard]
    · rw [← hchildren]

/-! ### Two slots -/

/-- A turn on either slot, again and again. -/
def alternating : List Nat := [0, 1, 0, 1, 0, 1, 0, 1]

theorem full_alternating : Full 2 alternating := ⟨by decide, by decide⟩

/-- Copies of the fittest. -/
def heirs : Configuration :=
  { lone with
    populationSize := 4
    crossoverChance := .zero
    mutationChance := .zero
    reproductionChance := .one
    reproductionSelection := .best }

/-- The selectors of such a run where the individuals stand in the order of their ranks. -/
def descending (r : Run Unit) : Selectors :=
  { r.selectors with reproduction := .walk false (List.range r.population.length) 0 }

theorem prepare_descending {r : Run Unit} (hselectors : r.selectors = .ofConfiguration heirs)
    (hsome : r.population.isEmpty = false)
    (hranked : (List.range r.population.length).Pairwise fun i j =>
      r.population.rankAt j ≤ r.population.rankAt i) :
    r.selectors.prepare r.population r.stats = .ok r.descending := by
  have horder := Population.rankedIndexes_of_pairwise hranked
  have htournament : (Selector.tournament 5).prepare r.population r.stats =
      .ok (.tournament 5) := by
    unfold Selector.prepare
    rw [hsome]
    rfl
  have hwalk : (Selector.walk false [] 0).prepare r.population r.stats =
      .ok (.walk false (List.range r.population.length) 0) := by
    unfold Selector.prepare
    rw [hsome, ← horder]
    rfl
  rw [descending, hselectors]
  change Selectors.prepare ⟨.tournament 5, .tournament 5, .walk false [] 0⟩ _ _ = _
  rw [Selectors.prepare, htournament, hwalk]
  rfl

/-- Whether two slots of a run copy the fittest differently if they take turns. -/
def sharesOut (r : Run Unit) : Bool :=
  r.phase = .selectAndVary && r.pairs = 2 && r.selectors = .ofConfiguration heirs &&
    r.configuration.populationSize = 4 && !r.population.isEmpty &&
    (List.range r.population.length).Pairwise (fun i j =>
      r.population.rankAt j ≤ r.population.rankAt i) &&
    (r.together (inOrder 2) 2 r.descending).toOption.any fun (children, _) =>
      (r.together alternating 2 r.descending).toOption.any fun (others, _) =>
        r.litter children ≠ r.litter others

theorem exists_sharing : ∃ start s, Run.new coins heirs = .ok (.ok start) ∧
    runFor smallness 3 start .empty = .ok s ∧ s.run.sharesOut = true :=
  exists_of_trial (f := fun start => runFor smallness 3 start .empty) (by decide +kernel)

/-- Two slots that copy the fittest on a walk breed another generation if they take turns. -/
theorem turns_matter : ∃ start r a b, Run.new coins heirs = .ok (.ok start) ∧ Reached start r ∧
    r.phase = .selectAndVary ∧ Full r.pairs alternating ∧ r.breed = .ok (.ok a) ∧
    r.breedBy alternating = .ok (.ok b) ∧ a.next ≠ b.next := by
  obtain ⟨start, s, hnew, hrun, htest⟩ := exists_sharing
  simp only [sharesOut, Bool.and_eq_true, decide_eq_true_eq, Option.any_eq_true,
    Bool.not_eq_true'] at htest
  obtain ⟨⟨⟨⟨⟨⟨hphase, hpairs⟩, hselectors⟩, hsize⟩, hsome⟩, hranked⟩, ⟨children, last⟩, ha,
    ⟨others, last'⟩, hb, hne⟩ := htest
  have hstart := prepare_descending hselectors hsome hranked
  have hblock := demandBlock_of_lt
    (show individualSize * s.run.configuration.populationSize < 2 ^ 63 by rw [hsize]; decide)
  have hbreeds : ∀ {schedule children last},
      s.run.together schedule 2 s.run.descending = .ok (children, last) →
        s.run.breedBy schedule =
          .ok (.ok { s.run with selectors := last, next := s.run.litter children }) := by
    intro schedule children last htogether
    rw [← hpairs] at htogether
    exact breedWith_eq_ok_iff.2 ⟨_, _, children, last, hstart, hblock, htogether, rfl⟩
  have hbreed := hbreeds (eq_ok_of_toOption ha)
  rw [← hpairs, breedBy_inOrder] at hbreed
  exact ⟨start, s.run, _, _, hnew, .runFor .refl hrun, hphase, hpairs ▸ full_alternating, hbreed,
    hbreeds (eq_ok_of_toOption hb), hne⟩

/-- Four children of parents that win tournaments. -/
def contenders : Configuration := { lone with populationSize := 4 }

/-- Whether two slots are to be filled, and neither walks. -/
def isStill (r : Run Unit) : Bool :=
  r.pairs = 2 && [Role.crossover, .mutation, .reproduction].all (fun role =>
    ((r.selectors.of role).kind.order r.population).isNone) &&
    (r.breed.toOption.bind Except.toOption).isSome

theorem exists_still : ∃ start s, Run.new coins contenders = .ok (.ok start) ∧
    runFor smallness 3 start .empty = .ok s ∧ s.run.isStill = true :=
  exists_of_trial (f := fun start => runFor smallness 3 start .empty) (by decide +kernel)

theorem breedBy_settles_contenders : ∃ r r' : Run Unit, ∃ start crew,
    Full r.pairs alternating ∧ r.Still r.selectors (· < r.pairs) ∧ r.breed = .ok (.ok r') ∧
    r.breedBy alternating = .ok (.ok r') ∧
    r.selectors.prepare r.population r.stats = .ok start ∧ r.play start alternating = .ok crew ∧
    r.Settles start crew ∧ r'.next = r.litter (crew.children r.pairs) := by
  obtain ⟨-, s, -, -, htest⟩ := exists_still
  simp only [isStill, Bool.and_eq_true, decide_eq_true_eq, List.all_cons, List.all_nil,
    Option.isNone_iff_eq_none, Option.isSome_iff_exists] at htest
  obtain ⟨⟨hpairs, hcrossover, hmutation, hreproduction, -⟩, r', hbred⟩ := htest
  obtain ⟨result, hresult, hr'⟩ := Option.bind_eq_some_iff.1 hbred
  have hbreed : s.run.breed = .ok (.ok r') := by
    rw [eq_ok_of_toOption hresult, eq_ok_of_toOption hr']
  have hstill : s.run.Still s.run.selectors (· < s.run.pairs) := by
    intro slot _ role _
    cases role with
    | crossover => exact hcrossover
    | mutation => exact hmutation
    | reproduction => exact hreproduction
  have hfull : Full s.run.pairs alternating := hpairs ▸ full_alternating
  obtain ⟨hsame, hany⟩ := breedBy_settles hfull
  have hturns := (hsame hstill r').2 hbreed
  obtain ⟨start, crew, hstart, hplay, hsettles, hlitter⟩ := hany r' hturns
  exact ⟨s.run, r', start, crew, hfull, hstill, hbreed, hturns, hstart, hplay, hsettles, hlitter⟩

end Run

end GeneticProgramming
