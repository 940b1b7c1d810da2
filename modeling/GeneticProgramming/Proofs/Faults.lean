import GeneticProgramming.Proofs.Number.Double
import GeneticProgramming.Proofs.Number.Order
import GeneticProgramming.Proofs.Outcome

/-!
# Faults

`FaultsOnly` says which faults a computation may end in, from any stream; it passes through `>>=`,
where what the first step yields is known to the second.  Numbers and chances are drawn without a
fault if there is something to draw from.  Once the stream is given, a computation `Resolves`: it has
a value of some kind or a fault of some kind.
-/

namespace GeneticProgramming

namespace Draw

variable {α β : Type}

/-- Each fault of a draw, from any stream, is of some kind. -/
def FaultsOnly (x : Draw α) (F : Fault → Prop) : Prop := ∀ g f, x g = .error f → F f

namespace FaultsOnly

variable {x : Draw α} {f : α → Draw β} {P : α → Prop} {F : Fault → Prop}

theorem pure (a : α) : FaultsOnly (pure a) F := by
  intro g e h
  contradiction

theorem bind (hx : FaultsOnly x F) (hp : Yields x P) (hf : ∀ a, P a → FaultsOnly (f a) F) :
    FaultsOnly (x >>= f) F := by
  intro g e h
  cases hg : x g with
  | error e' =>
    rw [bind_apply_of_error hg] at h
    injection h with h
    exact h ▸ hx g e' hg
  | ok r =>
    rw [bind_apply_of_ok hg] at h
    exact hf r.1 (hp g r.1 r.2 hg) r.2 e h

/-- Whatever the first step yields, the second one is as good. -/
theorem andThen (hx : FaultsOnly x F) (hf : ∀ a, FaultsOnly (f a) F) : FaultsOnly (x >>= f) F :=
  bind hx (Yields.trivial x) fun a _ => hf a

theorem map {k : α → β} (hx : FaultsOnly x F) : FaultsOnly (k <$> x) F :=
  andThen hx fun a => pure (k a)

theorem lift {x : Except Fault α} {a : α} (h : x = .ok a) : FaultsOnly (liftM x) F := by
  subst h
  exact pure a

/-- A result that is known is handed on. -/
theorem known {x : Except Fault α} {a : α} (h : x = .ok a) (hf : FaultsOnly (f a) F) :
    FaultsOnly (liftM x >>= f) F := by
  subst h
  exact hf

theorem ite {c : Prop} [Decidable c] {x y : Draw α} (hx : c → FaultsOnly x F)
    (hy : ¬ c → FaultsOnly y F) : FaultsOnly (if c then x else y) F := by
  split
  · next h => exact hx h
  · next h => exact hy h

theorem mapM {γ : Type} {f : γ → Draw α} (xs : List γ) (h : ∀ x ∈ xs, FaultsOnly (f x) F) :
    FaultsOnly (xs.mapM f) F := by
  induction xs with
  | nil => exact pure []
  | cons x xs ih =>
    obtain ⟨hx, hxs⟩ := List.forall_mem_cons.1 h
    rw [List.mapM_cons]
    exact andThen hx fun a => andThen (ih hxs) fun as => pure (a :: as)

theorem foldlM {γ : Type} {step : α → γ → Draw α} (xs : List γ)
    (h : ∀ x ∈ xs, ∀ a, FaultsOnly (step a x) F) (a : α) : FaultsOnly (xs.foldlM step a) F := by
  induction xs generalizing a with
  | nil => exact pure a
  | cons x xs ih =>
    obtain ⟨hx, hxs⟩ := List.forall_mem_cons.1 h
    rw [List.foldlM_cons]
    exact andThen (hx a) (ih hxs)

/-- What faults in no way has a value. -/
theorem exists_eq_ok (hx : FaultsOnly x fun _ => False) (hp : Yields x P) (g : Random) :
    ∃ a g', x g = .ok (a, g') ∧ P a := by
  cases hg : x g with
  | error e => exact (hx g e hg).elim
  | ok r => exact ⟨r.1, r.2, rfl, hp g r.1 r.2 hg⟩

end FaultsOnly

/-! ## Draws -/

variable {F : Fault → Prop}

theorem word_faults : FaultsOnly word F := by
  intro g e h
  contradiction

theorem halfWord_faults : FaultsOnly halfWord F := .andThen word_faults fun _ => .pure _

theorem reduce_faults {width n accepted : Nat} {draw : Draw Nat} (hdraw : FaultsOnly draw F)
    (tries : Nat) : FaultsOnly (reduce width n accepted draw tries) F := by
  induction tries with
  | zero => exact .pure 0
  | succ tries ih => exact .andThen hdraw fun word => .ite (fun _ => .pure _) fun _ => ih

/-- Words can be reduced to any outcomes but none. -/
theorem reduced_faults {width n accepted : Nat} {draw : Draw Nat} (hn : 0 < n)
    (hdraw : FaultsOnly draw F) : FaultsOnly
      (if n = 0 then fault .badRange else reduce width n accepted draw attempts) F :=
  .ite (fun hzero => absurd hzero (Nat.ne_of_gt hn)) fun _ => reduce_faults hdraw attempts

theorem below_faults {n : Nat} (hn : 0 < n) : FaultsOnly (below n) F :=
  reduced_faults hn (.andThen word_faults fun _ => .pure _)

theorem belowHalf_faults {n : Nat} (hn : 0 < n) : FaultsOnly (belowHalf n) F :=
  reduced_faults hn (.andThen halfWord_faults fun _ => .pure _)

theorem belowHalfEagerly_faults {n : Nat} (hn : 0 < n) : FaultsOnly (belowHalfEagerly n) F :=
  reduced_faults hn (.andThen halfWord_faults fun _ => .pure _)

theorem element_faults (xs : List α) : FaultsOnly (element xs) F := by
  refine .ite (fun _ => .pure none) fun hne => .andThen (belowHalf_faults ?_) fun _ => .pure _
  rw [List.isEmpty_iff] at hne
  exact List.length_pos_iff.2 hne

/-- A chance that is no NaN is drawn, once it is kept between zero and one. -/
theorem chance_faults {x : Double} (h : x.isNaN = false) : FaultsOnly (chance x.clampUnit) F := by
  unfold chance
  rcases Double.clampUnit_cases h with hone | hbelow
  · rw [if_pos hone]
    exact .pure true
  · rw [if_pos hbelow]
    exact .ite (fun _ => .pure true) fun _ => .andThen word_faults fun _ => .pure _

theorem fraction_faults : FaultsOnly fraction F := .andThen word_faults fun _ => .pure _

end Draw

/-! ## Weights -/

namespace Weights

variable {w : Double} {ws : List Double}

theorem index_faults {F : Fault → Prop} (w : Weights) : Draw.FaultsOnly w.index F :=
  .andThen Draw.fraction_faults fun _ => .pure _

/-- The last of the running sums is the sum of all weights. -/
theorem getLast?_running (w : Double) (ws : List Double) :
    (running (w :: ws)).getLast? = some (ws.foldl Double.add w) :=
  List.getLast?_scanl

/-- Weights are prepared, unless all of them might be drawn and their sum is too great. -/
theorem exists_ofList
    (h : (∀ x ∈ w :: ws, Double.zero.le x = true) → (ws.foldl Double.add w).isFinite = true) :
    ∃ weights, ofList (w :: ws) = .ok weights := by
  unfold ofList
  dsimp only
  rw [getLast?_running]
  dsimp only
  split
  · exact ⟨_, rfl⟩
  · next hgood =>
    rw [Bool.or_eq_true, not_or, List.any_eq_true] at hgood
    have hall : ∀ x ∈ w :: ws, Double.zero.le x = true := by
      intro x hx
      by_contra hnot
      rw [Bool.not_eq_true] at hnot
      exact hgood.1 ⟨x, hx, by rw [hnot]; rfl⟩
    rw [h hall]
    exact ⟨_, rfl⟩

theorem ofList_eq_badRange (hall : ∀ x ∈ w :: ws, Double.zero.le x = true)
    (htotal : (ws.foldl Double.add w).isFinite = false) : ofList (w :: ws) = .error .badRange := by
  have hsome : (ws.foldl Double.add w).eq .zero = false := by
    by_contra hnot
    rw [Bool.not_eq_false] at hnot
    rw [Double.isFinite_of_eq_zero hnot] at htotal
    contradiction
  have hgood : ((w :: ws).any fun x => !Double.le .zero x) = false := by
    rw [List.any_eq_false]
    intro x hx
    rw [hall x hx]
    decide
  unfold ofList
  dsimp only
  rw [getLast?_running]
  dsimp only
  rw [hgood, hsome, htotal]
  rfl

end Weights

/-! ## Attempts -/

namespace Attempt

variable {α β : Type}

/-- Each fault of an attempt, from any stream, is of some kind. -/
def FaultsOnly (x : Attempt α) (F : Fault → Prop) : Prop := Draw.FaultsOnly x.run F

/-- An attempt that yields no error ends in a value or in a fault that is known. -/
theorem Yields.cases {x : Attempt α} {P : α → Prop} {F : Fault → Prop}
    (hp : Yields x P fun _ => False) (hx : FaultsOnly x F) (g : Random) :
    (∃ a g', x.run g = .ok (.ok a, g') ∧ P a) ∨ ∃ f, x.run g = .error f ∧ F f := by
  cases h : x.run g with
  | error f => exact .inr ⟨f, rfl, hx g f h⟩
  | ok r =>
    obtain ⟨out, g'⟩ := r
    have hout := hp g out g' h
    cases out with
    | ok a => exact .inl ⟨a, g', rfl, hout⟩
    | error e => exact hout.elim

namespace FaultsOnly

variable {x : Attempt α} {f : α → Attempt β} {P : α → Prop} {F : Fault → Prop}

theorem pure (a : α) : FaultsOnly (pure a) F := Draw.FaultsOnly.pure _

theorem throw (e : GenerationError) : FaultsOnly (throw e : Attempt α) F := Draw.FaultsOnly.pure _

theorem bind {E : GenerationError → Prop} (hx : FaultsOnly x F) (hp : Yields x P E)
    (hf : ∀ a, P a → FaultsOnly (f a) F) : FaultsOnly (x >>= f) F := by
  refine Draw.FaultsOnly.bind hx hp fun out hout => ?_
  cases out with
  | ok a => exact hf a hout
  | error e => exact Draw.FaultsOnly.pure _

/-- Whatever the first step yields, the second one is as good. -/
theorem andThen (hx : FaultsOnly x F) (hf : ∀ a, FaultsOnly (f a) F) : FaultsOnly (x >>= f) F := by
  refine Draw.FaultsOnly.andThen hx fun out => ?_
  cases out with
  | ok a => exact hf a
  | error e => exact Draw.FaultsOnly.pure _

theorem mono {G : Fault → Prop} (hx : FaultsOnly x F) (hf : ∀ f, F f → G f) : FaultsOnly x G :=
  fun g f h => hf f (hx g f h)

theorem draw {x : Draw α} (hx : Draw.FaultsOnly x F) : FaultsOnly (liftM x) F :=
  Draw.FaultsOnly.map hx

theorem lift {x : Except Fault α} {a : α} (h : x = .ok a) : FaultsOnly (liftM x) F :=
  draw (.lift h)

theorem except (x : Except GenerationError α) : FaultsOnly (liftM x) F := by
  cases x with
  | ok a => exact pure a
  | error e => exact throw e

/-- What a draw yields is known to the second step. -/
theorem drawn {x : Draw α} (hx : Draw.FaultsOnly x F) (hp : GeneticProgramming.Yields x P)
    (hf : ∀ a, P a → FaultsOnly (f a) F) : FaultsOnly (liftM x >>= f) F :=
  bind (E := fun _ => True) (draw hx) (Yields.draw hp) hf

/-- A result that is known is handed on. -/
theorem known {x : Except Fault α} {a : α} (h : x = .ok a) (hf : FaultsOnly (f a) F) :
    FaultsOnly (liftM x >>= f) F := by
  subst h
  exact hf

theorem ite {c : Prop} [Decidable c] {x y : Attempt α} (hx : c → FaultsOnly x F)
    (hy : ¬ c → FaultsOnly y F) : FaultsOnly (if c then x else y) F := by
  split
  · next h => exact hx h
  · next h => exact hy h

theorem foldlM {step : α → β → Attempt α} (xs : List β)
    (h : ∀ x ∈ xs, ∀ a, FaultsOnly (step a x) F) (a : α) : FaultsOnly (xs.foldlM step a) F := by
  induction xs generalizing a with
  | nil => exact pure a
  | cons x xs ih =>
    obtain ⟨hx, hxs⟩ := List.forall_mem_cons.1 h
    rw [List.foldlM_cons]
    exact andThen (hx a) (ih hxs)

end FaultsOnly

end Attempt

/-! ## Results -/

/-- A value with a property, or a fault of some kind. -/
inductive Resolves {α : Type} (P : α → Prop) (F : Fault → Prop) : Except Fault α → Prop where
  | ok {a : α} : P a → Resolves P F (.ok a)
  | fault {f : Fault} : F f → Resolves P F (.error f)

namespace Resolves

variable {α β : Type} {P : α → Prop} {Q : β → Prop} {F : Fault → Prop} {x : Except Fault α}

theorem bind {f : α → Except Fault β} (hx : Resolves P F x) (hf : ∀ a, P a → Resolves Q F (f a)) :
    Resolves Q F (x >>= f) := by
  cases hx with
  | ok ha => exact hf _ ha
  | fault hf => exact .fault hf

theorem mono {P' : α → Prop} (hx : Resolves P F x) (h : ∀ a, P a → P' a) : Resolves P' F x := by
  cases hx with
  | ok ha => exact .ok (h _ ha)
  | fault hf => exact .fault hf

theorem mapM {γ : Type} {f : γ → Except Fault α} (xs : List γ) (h : ∀ x ∈ xs, Resolves P F (f x)) :
    Resolves (fun as => ∀ a ∈ as, P a) F (xs.mapM f) := by
  induction xs with
  | nil => exact .ok fun a ha => absurd ha List.not_mem_nil
  | cons x xs ih =>
    obtain ⟨hx, hxs⟩ := List.forall_mem_cons.1 h
    rw [List.mapM_cons]
    refine bind hx fun a ha => bind (ih hxs) fun as has => ?_
    exact .ok (List.forall_mem_cons.2 ⟨ha, has⟩)

/-- What a draw yields, and where it faults, from a stream that is given. -/
theorem run {x : Draw α} (hp : Yields x P) (hx : Draw.FaultsOnly x F) (g : Random) :
    Resolves (fun out => P out.1) F (x.run g) := by
  change Resolves _ F (x g)
  cases h : x g with
  | error f => exact .fault (hx g f h)
  | ok out => exact .ok (hp g out.1 out.2 h)

end Resolves

end GeneticProgramming
