import GeneticProgramming.Proofs.Run.Steps
import Mathlib.Logic.Function.Basic

/-!
# Breeding by a crew

A generation is bred by workers, one a slot.  Each of them draws from a stream of its own, and all
share the selectors, from which one pick is taken at a time.  So a slot is filled in four turns:
what to do is drawn, two parents are picked one after the other, and the children are made.  Turns
on different slots may come in any order.  Where each slot is filled before the next one is begun,
this is `Run.breed`: `Run.breedBy_inOrder`.
-/

namespace GeneticProgramming

variable {C : Type}

/-! ## Roles -/

/-- What is done to two parents. -/
inductive Role where
  | crossover
  | mutation
  | reproduction
deriving DecidableEq, Repr

/-- The role that the index of a weight stands for. -/
def Role.ofIndex : Nat → Role
  | 0 => .crossover
  | 1 => .mutation
  | _ => .reproduction

namespace Selectors

variable (s : Selectors)

/-- The selector of the parents for a role. -/
def of : Role → Selector
  | .crossover => s.crossover
  | .mutation => s.mutation
  | .reproduction => s.reproduction

/-- Puts back the selector for a role. -/
def put (role : Role) (x : Selector) : Selectors :=
  match role with
  | .crossover => { s with crossover := x }
  | .mutation => { s with mutation := x }
  | .reproduction => { s with reproduction := x }

@[simp] theorem of_put (role : Role) (x : Selector) : (s.put role x).of role = x := by
  cases role <;> rfl

theorem of_put_of_ne {role other : Role} (h : other ≠ role) (x : Selector) :
    (s.put role x).of other = s.of other := by
  cases role <;> cases other <;> first | rfl | contradiction

@[simp] theorem put_of (role : Role) : s.put role (s.of role) = s := by
  cases role <;> rfl

@[simp] theorem put_put (role : Role) (x y : Selector) :
    (s.put role x).put role y = s.put role y := by
  cases role <;> rfl

end Selectors

/-! ## Pairings -/

/-- What comes of a slot: two parents, what was done to them, and their children. -/
structure Pairing where
  role : Role
  parents : Tree × Tree
  children : Tree × Tree
deriving DecidableEq, Repr

namespace Run

variable (r : Run C)

/-- The children of two parents. -/
def produce (role : Role) (t u : Tree) : Draw (Tree × Tree) :=
  match role with
  | .crossover => r.cross t u
  | .mutation => return (← r.mutant t, ← r.mutant u)
  | .reproduction => return (t.duplicate, u.duplicate)

/-- What `vary` does, with all that comes of it. -/
def pairing (s : Selectors) : Draw (Pairing × Selectors) := do
  let role := Role.ofIndex (← r.variation.index)
  let (t, first) ← (s.of role).pickTree r.population
  let (u, second) ← first.pickTree r.population
  return (⟨role, (t, u), ← r.produce role t u⟩, s.put role second)

theorem vary_eq (s : Selectors) :
    r.vary s = (fun out => (out.1.children, out.2)) <$> r.pairing s := by
  unfold vary pairing pickPair
  rw [map_bind]
  refine bind_congr fun index => ?_
  match index with
  | 0 => simp [Role.ofIndex, Selectors.of, Selectors.put, produce]
  | 1 => simp [Role.ofIndex, Selectors.of, Selectors.put, produce]
  | _ + 2 => simp [Role.ofIndex, Selectors.of, Selectors.put, produce]

/-! ## Turns -/

/-- How far a slot has come, with the stream that is drawn from next. -/
inductive Worker where
  | idle
  | chosen (role : Role) (g : Random)
  | half (role : Role) (t : Tree) (g : Random)
  | full (role : Role) (t u : Tree) (g : Random)
  | done (result : Pairing)
deriving DecidableEq, Repr

def Worker.children : Worker → List Tree
  | .done result => [result.children.1, result.children.2]
  | _ => []

/-- The stream that a slot of the next generation draws from. -/
abbrev slotStream (slot : Nat) : Random := r.stream (r.generation + 1) slot

/-- One turn on a slot. -/
def work (slot : Nat) (s : Selectors) : Worker → Except Fault (Worker × Selectors)
  | .idle => do
    let (index, g) ← r.variation.index.run (r.slotStream slot)
    return (.chosen (.ofIndex index) g, s)
  | .chosen role g => do
    let ((t, x), g) ← ((s.of role).pickTree r.population).run g
    return (.half role t g, s.put role x)
  | .half role t g => do
    let ((u, x), g) ← ((s.of role).pickTree r.population).run g
    return (.full role t u g, s.put role x)
  | .full role t u g => do
    let (children, _) ← (r.produce role t u).run g
    return (.done ⟨role, (t, u), children⟩, s)
  | .done result => return (.done result, s)

/-- A worker after some turns that no other one comes between. -/
def alone (slot : Nat) (s : Selectors) : Nat → Except Fault (Worker × Selectors)
  | 0 => return (.idle, s)
  | turns + 1 => do
    let (w, s) ← alone slot s turns
    r.work slot s w

/-- Four turns fill a slot. -/
theorem alone_four (slot : Nat) (s : Selectors) :
    r.alone slot s 4 =
      (fun out => (.done out.1.1, out.1.2)) <$> (r.pairing s).run (r.slotStream slot) := by
  simp [alone, work, pairing]

/-! ## Schedules -/

/-- The workers of all slots, and the selectors that they share. -/
structure Crew where
  workers : Nat → Worker
  selectors : Selectors

namespace Crew

def fresh (s : Selectors) : Crew := ⟨fun _ => .idle, s⟩

/-- Puts in a worker and selectors after a turn. -/
def set (crew : Crew) (slot : Nat) (w : Worker) (s : Selectors) : Crew :=
  ⟨Function.update crew.workers slot w, s⟩

/-- The trees of the first slots. -/
def children (crew : Crew) (pairs : Nat) : List Tree :=
  (List.range pairs).flatMap fun slot => (crew.workers slot).children

variable (crew : Crew) (slot : Nat) (w : Worker) (s : Selectors)

@[simp] theorem workers_set_self : (crew.set slot w s).workers slot = w := by
  change Function.update crew.workers slot w slot = w
  rw [Function.update_self]

theorem workers_set_of_ne {other : Nat} (h : other ≠ slot) :
    (crew.set slot w s).workers other = crew.workers other := by
  change Function.update crew.workers slot w other = _
  rw [Function.update_of_ne h]

@[simp] theorem selectors_set : (crew.set slot w s).selectors = s := rfl

@[simp] theorem set_set (w' : Worker) (s' : Selectors) :
    (crew.set slot w s).set slot w' s' = crew.set slot w' s' := by
  rw [set, set, set, Function.update_idem]

end Crew

/-- A turn on a slot. -/
def turn (crew : Crew) (slot : Nat) : Except Fault Crew := do
  let (w, s) ← r.work slot crew.selectors (crew.workers slot)
  return crew.set slot w s

/-- A turn on each of these slots, one after the other. -/
def play (s : Selectors) (schedule : List Nat) : Except Fault Crew :=
  schedule.foldlM r.turn (.fresh s)

/-- The trees of the first slots after a schedule. -/
def together (schedule : List Nat) (pairs : Nat) (s : Selectors) :
    Except Fault (List Tree × Selectors) := do
  let crew ← r.play s schedule
  return (crew.children pairs, crew.selectors)

/-- Breeds the next generation, with the turns in this order. -/
def breedBy (schedule : List Nat) : Except Fault (Except RunError (Run C)) :=
  r.breedWith (r.together schedule)

/-- Fills one slot after the other. -/
def inOrder (pairs : Nat) : List Nat := (List.range pairs).flatMap (List.replicate 4)

/-! ## One slot after the other -/

section

variable {r : Run C} {crew crew' : Crew} {slot : Nat}

theorem turn_eq_ok (h : r.turn crew slot = .ok crew') : ∃ w s,
    r.work slot crew.selectors (crew.workers slot) = .ok (w, s) ∧
      crew' = crew.set slot w s := by
  obtain ⟨⟨w, s⟩, hwork, h⟩ := exists_of_bind_eq_ok h
  injection h with h
  exact ⟨w, s, hwork, h.symm⟩

/-- Turns on other slots leave a worker alone. -/
theorem workers_of_turns {schedule : List Nat} (hslot : slot ∉ schedule)
    (h : schedule.foldlM r.turn crew = .ok crew') : crew'.workers slot = crew.workers slot := by
  induction schedule generalizing crew with
  | nil =>
    injection h with h
    rw [h]
  | cons first rest ih =>
    obtain ⟨next, hturn, h⟩ := exists_of_bind_eq_ok h
    obtain ⟨w, s, -, rfl⟩ := turn_eq_ok hturn
    obtain ⟨hne, hrest⟩ := not_or.1 (mt List.mem_cons.2 hslot)
    rw [ih hrest h]
    exact crew.workers_set_of_ne first w s hne

/-- Turns on one slot alone are those of a lone worker. -/
theorem turns_replicate (hidle : crew.workers slot = .idle) (turns : Nat) :
    (List.replicate turns slot).foldlM r.turn crew =
      (fun out => crew.set slot out.1 out.2) <$> r.alone slot crew.selectors turns := by
  induction turns with
  | zero =>
    rw [List.replicate_zero, List.foldlM_nil, alone, map_pure, Crew.set, ← hidle,
      Function.update_eq_self]
  | succ turns ih =>
    rw [List.replicate_succ', List.foldlM_append, ih, alone]
    simp [turn]

theorem turns_inOrder (count : Nat) (hidle : ∀ j, slot ≤ j → crew.workers j = .idle) :
    (do
      let crew' ← ((List.range' slot count).flatMap (List.replicate 4)).foldlM r.turn crew
      return ((List.range' slot count).flatMap fun j => (crew'.workers j).children,
        crew'.selectors)) = r.offspring slot count crew.selectors := by
  induction count generalizing slot crew with
  | zero => rfl
  | succ count ih =>
    rw [List.range'_succ, List.flatMap_cons, List.foldlM_append,
      turns_replicate (hidle slot (Nat.le_refl slot)), alone_four, offspring, vary_eq]
    simp only [StateT.run_map, bind_map_left, bind_assoc]
    refine bind_congr fun out => ?_
    have hlater : ∀ j, slot + 1 ≤ j →
        (crew.set slot (.done out.1.1) out.1.2).workers j = .idle := by
      intro j hj
      rw [crew.workers_set_of_ne slot _ _ (Nat.ne_of_gt hj)]
      exact hidle j (Nat.le_of_succ_le hj)
    have hself : slot ∉ (List.range' (slot + 1) count).flatMap (List.replicate 4) := by
      intro hmem
      obtain ⟨j, hj, hmem⟩ := List.mem_flatMap.1 hmem
      rw [List.eq_of_mem_replicate hmem] at hj
      exact Nat.not_succ_le_self j (List.mem_range'_1.1 hj).1
    have hrest := ih hlater
    rw [Crew.selectors_set] at hrest
    rw [← hrest, bind_assoc]
    cases hturns : List.foldlM r.turn _ _ with
    | error e => rfl
    | ok crew' =>
      have hdone : crew'.workers slot = .done out.1.1 := by
        rw [workers_of_turns hself hturns, Crew.workers_set_self]
      simp [hdone, Worker.children]

end

theorem together_inOrder (pairs : Nat) (s : Selectors) :
    r.together (inOrder pairs) pairs s = r.offspring 0 pairs s := by
  unfold together play inOrder Crew.children
  rw [List.range_eq_range']
  exact turns_inOrder pairs fun _ _ => rfl

theorem breedBy_inOrder : r.breedBy (inOrder r.pairs) = r.breed := by
  rw [breed_eq, breedBy, breedWith, breedWith]
  simp only [together_inOrder]

end Run

end GeneticProgramming
