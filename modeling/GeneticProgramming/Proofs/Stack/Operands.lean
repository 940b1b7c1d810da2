import GeneticProgramming.Palette.Operator
import GeneticProgramming.Proofs.Stack.Runs
import GeneticProgramming.Proofs.Value.Storage

/-!
# Operands on a stack

A stack carries values if the runs that it holds store them, whatever the bytes behind the values
are.  An operator whose arguments are carried on top, the first one topmost, replaces them by what
it makes of them: this is `Stack.Carries.replaceArguments`.
-/

namespace GeneticProgramming

namespace Value

/-- The content of a value of the given type. -/
def as? (v : Value) (t : ValueType) : Option t.Carrier :=
  if h : v.type = t then some (h ▸ v.content) else none

theorem eq_of_as? {v : Value} {t : ValueType} {x : t.Carrier} (h : v.as? t = some x) :
    v = ⟨t, x⟩ := by
  obtain ⟨type, content⟩ := v
  unfold as? at h
  split at h
  · next ht =>
    cases ht
    injection h with h
    rw [← h]
  · contradiction

/-- The words that some values take together. -/
def totalWords (vs : List Value) : Nat := (vs.map fun v => v.type.words).sum

@[simp] theorem totalWords_nil : totalWords [] = 0 := rfl

@[simp] theorem totalWords_cons (v : Value) (vs : List Value) :
    totalWords (v :: vs) = v.type.words + totalWords vs := by
  simp [totalWords]

@[simp] theorem totalWords_append (us vs : List Value) :
    totalWords (us ++ vs) = totalWords us + totalWords vs := by
  simp [totalWords]

end Value

/-- The argument list that some values make up, if they are of the given types. -/
def Arguments.ofValues? : (ts : List ValueType) → List Value → Option (Arguments ts)
  | [], [] => some ()
  | [], _ :: _ => none
  | _ :: _, [] => none
  | t :: ts, v :: vs => do
    let x ← v.as? t
    let xs ← ofValues? ts vs
    return (x, xs)

namespace Arguments

theorem ofValues?_cons_eq_some {t : ValueType} {ts : List ValueType} {v : Value} {vs : List Value}
    {xs : Arguments (t :: ts)} (h : ofValues? (t :: ts) (v :: vs) = some xs) :
    v = ⟨t, xs.1⟩ ∧ ofValues? ts vs = some xs.2 := by
  obtain ⟨x, hx, h⟩ := Option.bind_eq_some_iff.1 h
  obtain ⟨ys, hys, h⟩ := Option.bind_eq_some_iff.1 h
  injection h with h
  subst h
  exact ⟨Value.eq_of_as? hx, hys⟩

/-- Values of the right types make up an argument list. -/
theorem exists_ofValues? {ts : List ValueType} {vs : List Value} (h : vs.map Value.type = ts) :
    ∃ xs, ofValues? ts vs = some xs := by
  induction ts generalizing vs with
  | nil =>
    rw [List.map_eq_nil_iff] at h
    exact ⟨(), by rw [h]; rfl⟩
  | cons t ts ih =>
    cases vs with
    | nil => exact absurd h.symm (List.cons_ne_nil t ts)
    | cons v vs =>
      obtain ⟨rfl, hts⟩ := List.cons.inj h
      obtain ⟨xs, hxs⟩ := ih hts
      exact ⟨(v.content, xs), by simp [ofValues?, Value.as?, hxs]⟩

theorem words_of_ofValues? {ts : List ValueType} {vs : List Value} {xs : Arguments ts}
    (h : ofValues? ts vs = some xs) : (ts.map ValueType.words).sum = Value.totalWords vs := by
  induction ts generalizing vs with
  | nil =>
    cases vs with
    | nil => rfl
    | cons v vs => contradiction
  | cons t ts ih =>
    cases vs with
    | nil => contradiction
    | cons v vs =>
      obtain ⟨rfl, hxs⟩ := ofValues?_cons_eq_some h
      simp [ih hxs]

end Arguments

/-- A value together with a run of cells that stores it. -/
structure Slot where
  value : Value
  run : List Cell
  length_run : run.length = value.type.words
  load_run : value.type.load run = value.content

namespace Slot

/-- A value in the cells that it takes when it is pushed. -/
def ofValue (t : ValueType) (x : t.Carrier) (before : List UInt64) : Slot where
  value := ⟨t, x⟩
  run := t.storeOver x before
  length_run := by simp
  load_run := t.load_storeOver x before

/-- The runs of some slots, the oldest first, where the newest slot comes first. -/
def runs (slots : List Slot) : List (List Cell) := (slots.map run).reverse

@[simp] theorem runs_cons (slot : Slot) (slots : List Slot) :
    runs (slot :: slots) = runs slots ++ [slot.run] := by
  simp [runs]

@[simp] theorem runs_append (newer slots : List Slot) :
    runs (newer ++ slots) = runs slots ++ runs newer := by
  simp [runs]

theorem length_flatten_runs (slots : List Slot) :
    (runs slots).flatten.length = Value.totalWords (slots.map value) := by
  induction slots with
  | nil => rfl
  | cons slot slots ih => simp [ih, slot.length_run, Nat.add_comm]

end Slot

namespace Stack

/-- The values that a stack carries, the newest first. -/
def Carries (s : Stack) (vs : List Value) : Prop :=
  ∃ slots : List Slot, s.Holds (Slot.runs slots) ∧ slots.map Slot.value = vs

namespace Carries

variable {s : Stack} {us vs : List Value}

theorem of_holds_nil (h : s.Holds []) : s.Carries [] := ⟨[], h, rfl⟩

theorem words_eq (h : s.Carries vs) : s.words = Value.totalWords vs := by
  obtain ⟨slots, hholds, rfl⟩ := h
  rw [hholds.words_eq, Slot.length_flatten_runs]

theorem pushRun (h : s.Carries vs) (slot : Slot) :
    (s.pushRun slot.run).Carries (slot.value :: vs) := by
  obtain ⟨slots, hholds, rfl⟩ := h
  exact ⟨slot :: slots, by simpa using hholds.pushRun slot.run, rfl⟩

theorem push (h : s.Carries vs) (t : ValueType) (x : t.Carrier) :
    (s.push t x).Carries (⟨t, x⟩ :: vs) :=
  h.pushRun (Slot.ofValue t x _)

theorem drop (h : s.Carries (us ++ vs)) :
    ∃ t, s.drop (Value.totalWords us) = .ok t ∧ t.Carries vs := by
  obtain ⟨slots, hholds, hslots⟩ := h
  obtain ⟨newer, older, rfl, rfl, rfl⟩ := List.map_eq_append_iff.1 hslots
  rw [Slot.runs_append] at hholds
  obtain ⟨t, ht, hleft⟩ := hholds.drop
  rw [Slot.length_flatten_runs] at ht
  exact ⟨t, ht, older, hleft, rfl⟩

/-- A value is read where it is carried. -/
theorem valueAt {v : Value} (h : s.Carries (us ++ v :: vs)) :
    s.valueAt v.type (8 * Value.totalWords us) = .ok v.content := by
  obtain ⟨slots, hholds, hslots⟩ := h
  obtain ⟨newer, rest, rfl, rfl, hrest⟩ := List.map_eq_append_iff.1 hslots
  obtain ⟨slot, older, rfl, rfl, rfl⟩ := List.map_eq_cons_iff.1 hrest
  rw [Slot.runs_append, Slot.runs_cons] at hholds
  have hrun := hholds.runAt
  rw [Slot.length_flatten_runs, slot.length_run] at hrun
  rw [Stack.valueAt, hrun]
  exact congrArg Except.ok slot.load_run

/-- The newest value is taken off. -/
theorem pop {v : Value} (h : s.Carries (v :: vs)) :
    ∃ s', s.pop v.type = (.ok v.content, s') ∧ s'.Carries vs := by
  have hvalue : s.valueAt v.type 0 = .ok v.content := by
    have htop : s.Carries ([] ++ v :: vs) := h
    exact htop.valueAt
  have htop : s.Carries ([v] ++ vs) := h
  obtain ⟨s', hdrop, hcarries⟩ := htop.drop
  rw [Value.totalWords_cons, Value.totalWords_nil, Nat.add_zero] at hdrop
  have hhead : v.type.size ≤ s.headSize := by
    obtain ⟨slots, hholds, hslots⟩ := h
    obtain ⟨slot, older, rfl, rfl, rfl⟩ := List.map_eq_cons_iff.1 hslots
    rw [Slot.runs_cons] at hholds
    rw [ValueType.size_eq, ← slot.length_run]
    exact hholds.le_headSize
  refine ⟨s', ?_, hcarries⟩
  rw [Stack.pop, if_neg (by omega), hvalue, dropFrom_of_drop hdrop]

/-- Arguments are read from the top downwards. -/
theorem readArguments {ts : List ValueType} {xs : Arguments ts} {newer : List Value}
    (h : s.Carries (newer ++ us ++ vs)) (hxs : Arguments.ofValues? ts us = some xs) :
    Operator.readArguments s ts (8 * Value.totalWords newer) = .ok xs := by
  induction ts generalizing newer us with
  | nil => rfl
  | cons t ts ih =>
    cases us with
    | nil => contradiction
    | cons u us =>
      obtain ⟨rfl, hrest⟩ := Arguments.ofValues?_cons_eq_some hxs
      have hx : s.valueAt t (8 * Value.totalWords newer) = .ok xs.1 :=
        valueAt (v := ⟨t, xs.1⟩) (by simpa using h)
      have hoffset : 8 * Value.totalWords newer + t.size =
          8 * Value.totalWords (newer ++ [⟨t, xs.1⟩]) := by
        simp [ValueType.size_eq, Nat.mul_add]
      have hbelow : s.Carries ((newer ++ [⟨t, xs.1⟩]) ++ us ++ vs) := by simpa using h
      have hxs := ih hbelow hrest
      rw [Operator.readArguments, hx, hoffset]
      change (Operator.readArguments s ts _ >>= fun ys => .ok (xs.1, ys)) = _
      rw [hxs]
      rfl

/-- An operator replaces its arguments by the value that it makes of them. -/
theorem replaceArguments {ts : List ValueType} {xs : Arguments ts} {t : ValueType}
    (h : s.Carries (us ++ vs)) (hxs : Arguments.ofValues? ts us = some xs)
    (run : Arguments ts → t.Carrier) :
    ∃ s', Operator.replaceArguments s ts t run = .ok s' ∧ s'.Carries (⟨t, run xs⟩ :: vs) := by
  have htop : s.Carries ([] ++ us ++ vs) := by simpa using h
  have hread : Operator.readArguments s ts 0 = .ok xs := htop.readArguments hxs
  obtain ⟨rest, hrest, hcarries⟩ := h.drop
  rw [← Arguments.words_of_ofValues? hxs] at hrest
  refine ⟨rest.push t (run xs), ?_, hcarries.push t (run xs)⟩
  rw [Operator.replaceArguments, hread]
  change (s.drop _ >>= fun rest => .ok (rest.push t (run xs))) = _
  rw [hrest]
  rfl

end Carries

end Stack

end GeneticProgramming
