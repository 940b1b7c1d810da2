import GeneticProgramming.Random.Draw
import GeneticProgramming.Variation.Generator

/-!
# Outcomes

Ways to speak of a computation without following its random stream.  `Agree` relates two results
that are both values or both the same error.  `Yields` says what holds of each value that is
drawn, from any stream; `Alike` says that two computations consume the same words and agree in the
end.  All of them pass through `>>=`, so a property of a composite is put together from those of
its steps.
-/

namespace GeneticProgramming

theorem eq_of_demand {α : Type} {x : Option α} {a : α} (h : demand x = .ok a) : x = some a := by
  cases x with
  | none => contradiction
  | some b =>
    injection h with h
    rw [h]

theorem eq_of_trust {α : Type} {x : Except StackError α} {a : α} (h : trust x = .ok a) :
    x = .ok a := by
  cases x with
  | error e => contradiction
  | ok b =>
    injection h with h
    rw [h]

theorem exists_of_bind_eq_ok {ε α β : Type} {x : Except ε α} {f : α → Except ε β} {b : β}
    (h : x >>= f = .ok b) : ∃ a, x = .ok a ∧ f a = .ok b := by
  cases x with
  | error e => contradiction
  | ok a => exact ⟨a, rfl, h⟩

theorem eq_ok_of_toOption {ε α : Type} {x : Except ε α} {a : α} (h : x.toOption = some a) :
    x = .ok a := by
  cases x with
  | error e => contradiction
  | ok b => exact congrArg Except.ok (Option.some.inj h)

theorem past_of_eq_ok {ε α β : Type} {c : Prop} [Decidable c] {e : ε} {f : α → Except ε β}
    {y : Except ε β} {b : β} (h : (if c then throw e >>= f else y) = .ok b) : ¬ c ∧ y = .ok b := by
  split at h
  · contradiction
  · next hc => exact ⟨hc, h⟩

theorem mapM_eq_ok {ε α β : Type} {f : α → Except ε β} {xs : List α} {ys : List β}
    (h : xs.mapM f = .ok ys) :
    ys.length = xs.length ∧ ∀ y ∈ ys, ∃ x ∈ xs, f x = .ok y := by
  induction xs generalizing ys with
  | nil =>
    injection h with h
    subst h
    exact ⟨rfl, fun y hy => absurd hy List.not_mem_nil⟩
  | cons x xs ih =>
    rw [List.mapM_cons] at h
    obtain ⟨y, hy, h⟩ := exists_of_bind_eq_ok h
    obtain ⟨zs, hzs, h⟩ := exists_of_bind_eq_ok h
    injection h with h
    subst h
    obtain ⟨hlen, hall⟩ := ih hzs
    refine ⟨congrArg (· + 1) hlen, List.forall_mem_cons.2 ⟨⟨x, List.mem_cons_self, hy⟩, ?_⟩⟩
    intro z hz
    obtain ⟨x', hx', hf⟩ := hall z hz
    exact ⟨x', List.mem_cons_of_mem x hx', hf⟩

theorem exists_mapM_id {ε α : Type} {xs : List (Except ε α)} (h : ∀ x ∈ xs, ∃ a, x = .ok a) :
    ∃ as, xs.mapM (m := Except ε) id = .ok as := by
  induction xs with
  | nil => exact ⟨[], rfl⟩
  | cons x xs ih =>
    obtain ⟨⟨a, rfl⟩, hxs⟩ := List.forall_mem_cons.1 h
    obtain ⟨as, has⟩ := ih hxs
    refine ⟨a :: as, ?_⟩
    rw [List.mapM_cons, has]
    rfl

theorem error_mem_of_mapM_id {ε α : Type} {xs : List (Except ε α)} {e : ε}
    (h : xs.mapM (m := Except ε) id = .error e) : .error e ∈ xs := by
  induction xs with
  | nil => contradiction
  | cons x xs ih =>
    rw [List.mapM_cons] at h
    cases x with
    | error e' =>
      injection h with h
      rw [h]
      exact List.mem_cons_self
    | ok a =>
      cases hrest : xs.mapM (m := Except ε) id with
      | ok as =>
        rw [hrest] at h
        contradiction
      | error e' =>
        rw [hrest] at h
        injection h with h
        exact List.mem_cons_of_mem _ (ih (h ▸ hrest))

/-- Two results are related values, or the same error. -/
def Agree {ε α β : Type} (R : α → β → Prop) (x : Except ε α) (y : Except ε β) : Prop :=
  (∃ a b, x = .ok a ∧ y = .ok b ∧ R a b) ∨ ∃ e, x = .error e ∧ y = .error e

namespace Agree

variable {ε α β γ δ : Type} {R : α → β → Prop} {S : γ → δ → Prop} {x : Except ε α} {y : Except ε β}

theorem ok {a : α} {b : β} (h : R a b) : Agree (ε := ε) R (.ok a) (.ok b) :=
  .inl ⟨a, b, rfl, rfl, h⟩

theorem error (e : ε) : Agree R (.error e) (.error e) := .inr ⟨e, rfl, rfl⟩

theorem bind {f : α → Except ε γ} {k : β → Except ε δ} (hx : Agree R x y)
    (hf : ∀ a b, R a b → Agree S (f a) (k b)) : Agree S (x >>= f) (y >>= k) := by
  rcases hx with ⟨a, b, rfl, rfl, hab⟩ | ⟨e, rfl, rfl⟩
  · exact hf a b hab
  · exact error e

theorem mono {R' : α → β → Prop} (hx : Agree R x y) (h : ∀ a b, R a b → R' a b) :
    Agree R' x y := by
  rcases hx with ⟨a, b, ha, hb, hab⟩ | he
  · exact .inl ⟨a, b, ha, hb, h a b hab⟩
  · exact .inr he

theorem refl (x : Except ε α) : Agree (· = ·) x x := by
  cases x with
  | ok a => exact ok rfl
  | error e => exact error e

/-- Both go on from the same result. -/
theorem same {x : Except ε α} {f : α → Except ε γ} {k : α → Except ε δ}
    (h : ∀ a, Agree S (f a) (k a)) : Agree S (x >>= f) (x >>= k) :=
  bind (refl x) fun a _ hab => hab ▸ h a

theorem of_ok {a : α} (h : Agree R x y) (hx : x = .ok a) : ∃ b, y = .ok b ∧ R a b := by
  rcases h with ⟨a', b, hx', hy, hab⟩ | ⟨e, hx', -⟩
  · rw [hx] at hx'
    injection hx' with hx'
    exact ⟨b, hy, hx' ▸ hab⟩
  · rw [hx] at hx'
    contradiction

theorem ite {c d : Prop} [Decidable c] [Decidable d] {x' : Except ε α} {y' : Except ε β}
    (hc : c ↔ d) (hx : c → Agree R x y) (hy : ¬ c → Agree R x' y') :
    Agree R (if c then x else x') (if d then y else y') := by
  by_cases h : c
  · rw [if_pos h, if_pos (hc.1 h)]; exact hx h
  · rw [if_neg h, if_neg (fun hd => h (hc.2 hd))]; exact hy h

end Agree

/-! ## One computation after another -/

section

variable {σ ε α β : Type} {x : StateT σ (Except ε) α} {f : α → StateT σ (Except ε) β} {s : σ}

theorem bind_apply_of_ok {a : α} {s' : σ} (h : x s = .ok (a, s')) : (x >>= f) s = f a s' := by
  change Except.bind (x s) (fun r => f r.1 r.2) = _
  rw [h]
  rfl

theorem bind_apply_of_error {e : ε} (h : x s = .error e) : (x >>= f) s = .error e := by
  change Except.bind (x s) (fun r => f r.1 r.2) = _
  rw [h]
  rfl

end

/-! ## What a computation yields -/

/-- Every value that a computation yields, from any state, has a property; an error has no value. -/
def Yields {σ ε α : Type} (x : StateT σ (Except ε) α) (P : α → Prop) : Prop :=
  ∀ s a s', x s = .ok (a, s') → P a

namespace Yields

variable {σ ε α β : Type} {x : StateT σ (Except ε) α} {f : α → StateT σ (Except ε) β}
  {P : α → Prop} {Q : β → Prop}

theorem pure {a : α} (h : P a) : Yields (pure a : StateT σ (Except ε) α) P := by
  intro s b s' hb
  injection hb with hb
  injection hb with hb
  exact hb ▸ h

theorem bind (hx : Yields x P) (hf : ∀ a, P a → Yields (f a) Q) : Yields (x >>= f) Q := by
  intro s b s' hb
  cases h : x s with
  | error e => rw [bind_apply_of_error h] at hb; contradiction
  | ok r => rw [bind_apply_of_ok h] at hb; exact hf r.1 (hx s r.1 r.2 h) r.2 b s' hb

theorem mono {P' : α → Prop} (hx : Yields x P) (h : ∀ a, P a → P' a) : Yields x P' :=
  fun s a s' ha => h a (hx s a s' ha)

theorem trivial (x : StateT σ (Except ε) α) : Yields x fun _ => True := fun _ _ _ _ => True.intro

theorem and {P' : α → Prop} (hx : Yields x P) (hx' : Yields x P') : Yields x fun a => P a ∧ P' a :=
  fun s a s' ha => ⟨hx s a s' ha, hx' s a s' ha⟩

theorem map {f : α → β} (hx : Yields x P) (h : ∀ a, P a → Q (f a)) : Yields (f <$> x) Q :=
  bind (f := fun a => Pure.pure (f a)) hx fun a ha => pure (h a ha)

theorem lift {x : Except ε α} (h : ∀ a, x = .ok a → P a) :
    Yields (liftM x : StateT σ (Except ε) α) P := by
  intro s a s' ha
  cases x with
  | error e => contradiction
  | ok b =>
    injection ha with ha
    injection ha with ha
    exact ha ▸ h b rfl

/-- A result that is known is yielded. -/
theorem ok {x : Except ε α} {a : α} (h : x = .ok a) :
    Yields (liftM x : StateT σ (Except ε) α) (· = a) :=
  lift fun b hb => by
    rw [h] at hb
    injection hb with hb
    exact hb.symm

theorem throw (e : ε) : Yields (throw e : StateT σ (Except ε) α) P := by
  intro s a s' ha
  contradiction

theorem ite {c : Prop} [Decidable c] {x y : StateT σ (Except ε) α} (hx : c → Yields x P)
    (hy : ¬ c → Yields y P) : Yields (if c then x else y) P := by
  split
  · next h => exact hx h
  · next h => exact hy h

theorem mapM {γ : Type} {f : γ → StateT σ (Except ε) α} (xs : List γ)
    (h : ∀ x ∈ xs, Yields (f x) P) : Yields (xs.mapM f) fun as => ∀ a ∈ as, P a := by
  induction xs with
  | nil => exact pure fun a ha => absurd ha List.not_mem_nil
  | cons x xs ih =>
    rw [List.mapM_cons]
    obtain ⟨hx, hxs⟩ := List.forall_mem_cons.1 h
    refine bind hx fun a ha => bind (ih hxs) fun as has => ?_
    exact pure (List.forall_mem_cons.2 ⟨ha, has⟩)

/-- A fold keeps what each of its steps keeps. -/
theorem foldlM {γ : Type} {step : α → γ → StateT σ (Except ε) α} (xs : List γ) {a : α} (h : P a)
    (hstep : ∀ x ∈ xs, ∀ b, P b → Yields (step b x) P) : Yields (xs.foldlM step a) P := by
  induction xs generalizing a with
  | nil => exact pure h
  | cons x xs ih =>
    obtain ⟨hx, hxs⟩ := List.forall_mem_cons.1 hstep
    rw [List.foldlM_cons]
    exact bind (hx a h) fun b hb => ih hb hxs

/-- Past a check that throws, what it checked holds. -/
theorem past {c : Prop} [Decidable c] {e : ε} {f : α → StateT σ (Except ε) β}
    {y : StateT σ (Except ε) β} (hy : ¬ c → Yields y Q) :
    Yields (if c then MonadExcept.throw e >>= f else y) Q :=
  ite (fun _ => bind (P := fun _ => False) (throw e) fun _ h => h.elim) hy

end Yields

namespace Draw

variable {α β γ δ : Type}

/-! ## Draws that run alike -/

/-- From every stream two draws end in related values and the same stream, or in the same fault. -/
def Alike (R : α → β → Prop) (x : Draw α) (y : Draw β) : Prop :=
  ∀ g, (∃ a b g', x g = .ok (a, g') ∧ y g = .ok (b, g') ∧ R a b) ∨
    ∃ e, x g = .error e ∧ y g = .error e

namespace Alike

variable {R : α → β → Prop} {S : γ → δ → Prop} {x : Draw α} {y : Draw β}

theorem pure {a : α} {b : β} (h : R a b) : Alike R (pure a) (pure b) :=
  fun g => .inl ⟨a, b, g, rfl, rfl, h⟩

theorem bind {f : α → Draw γ} {k : β → Draw δ} (hx : Alike R x y)
    (hf : ∀ a b, R a b → Alike S (f a) (k b)) : Alike S (x >>= f) (y >>= k) := by
  intro g
  rcases hx g with ⟨a, b, g', ha, hb, hab⟩ | ⟨e, ha, hb⟩
  · rw [bind_apply_of_ok ha, bind_apply_of_ok hb]
    exact hf a b hab g'
  · exact .inr ⟨e, bind_apply_of_error ha, bind_apply_of_error hb⟩

theorem mono {R' : α → β → Prop} (hx : Alike R x y) (h : ∀ a b, R a b → R' a b) : Alike R' x y := by
  intro g
  rcases hx g with ⟨a, b, g', ha, hb, hab⟩ | he
  · exact .inl ⟨a, b, g', ha, hb, h a b hab⟩
  · exact .inr he

theorem refl (x : Draw α) : Alike (· = ·) x x := by
  intro g
  cases h : x g with
  | error e => exact .inr ⟨e, rfl, rfl⟩
  | ok r => exact .inl ⟨r.1, r.1, r.2, rfl, rfl, rfl⟩

/-- Both go on from the same draw. -/
theorem same {x : Draw α} {f : α → Draw γ} {k : α → Draw δ} (h : ∀ a, Alike S (f a) (k a)) :
    Alike S (x >>= f) (x >>= k) :=
  bind (refl x) fun a _ hab => hab ▸ h a

/-- What a draw yields is known of both values. -/
theorem refl_of_yields {P : α → Prop} (h : Yields x P) : Alike (fun a b => a = b ∧ P a) x x := by
  intro g
  cases hx : x g with
  | error e => exact .inr ⟨e, rfl, rfl⟩
  | ok r => exact .inl ⟨r.1, r.1, r.2, rfl, rfl, rfl, h g r.1 r.2 hx⟩

theorem map {f : α → γ} {k : β → δ} (hx : Alike R x y) (h : ∀ a b, R a b → S (f a) (k b)) :
    Alike S (f <$> x) (k <$> y) :=
  bind (f := fun a => Pure.pure (f a)) (k := fun b => Pure.pure (k b)) hx
    fun a b hab => pure (h a b hab)

theorem lift {x : Except Fault α} {y : Except Fault β} (h : Agree R x y) :
    Alike R (liftM x) (liftM y) := by
  intro g
  rcases h with ⟨a, b, rfl, rfl, hab⟩ | ⟨e, rfl, rfl⟩
  · exact .inl ⟨a, b, g, rfl, rfl, hab⟩
  · exact .inr ⟨e, rfl, rfl⟩

/-- A draw that is seen to run like another one is the other one. -/
theorem map_eq {f : α → β} (hx : Alike R x y) (h : ∀ a b, R a b → f a = b) : f <$> x = y := by
  funext g
  change Except.bind (x g) (fun r => .ok (f r.1, r.2)) = _
  rcases hx g with ⟨a, b, g', ha, hb, hab⟩ | ⟨e, ha, hb⟩
  · rw [ha, hb, ← h a b hab]; rfl
  · rw [ha, hb]; rfl

theorem yields {P : α → Prop} (hx : Alike R x y) (h : ∀ a b, R a b → P a) : Yields x P := by
  intro g a g' ha
  rcases hx g with ⟨a', b, g'', ha', -, hab⟩ | ⟨e, he, -⟩
  · rw [ha] at ha'
    injection ha' with ha'
    injection ha' with ha'
    exact h a b (ha' ▸ hab)
  · rw [ha] at he
    contradiction

theorem ite {c d : Prop} [Decidable c] [Decidable d] {x x' : Draw α} {y y' : Draw β} (hc : c ↔ d)
    (hx : c → Alike R x y) (hy : ¬ c → Alike R x' y') :
    Alike R (if c then x else x') (if d then y else y') := by
  by_cases h : c
  · rw [if_pos h, if_pos (hc.1 h)]; exact hx h
  · rw [if_neg h, if_neg (fun hd => h (hc.2 hd))]; exact hy h

end Alike

/-! ## Drawing from what is there -/

theorem reduce_yields {width n accepted : Nat} {draw : Draw Nat} (hn : 0 < n)
    (hdraw : Yields draw (· < 2 ^ width)) (tries : Nat) :
    Yields (reduce width n accepted draw tries) (· < n) := by
  induction tries with
  | zero => exact Yields.pure hn
  | succ tries ih =>
    refine Yields.bind hdraw fun word hword => Yields.ite (fun _ => Yields.pure ?_) fun _ => ih
    exact (Nat.div_lt_iff_lt_mul (Nat.two_pow_pos width)).2
      (Nat.mul_comm n (2 ^ width) ▸ Nat.mul_lt_mul_of_pos_right hword hn)

/-- However the words are accepted, a number below `n` comes of them. -/
theorem reduced_yields {width accepted : Nat} {draw : Draw Nat} (n : Nat)
    (hdraw : Yields draw (· < 2 ^ width)) :
    Yields (if n = 0 then fault .badRange else reduce width n accepted draw attempts) (· < n) :=
  Yields.ite (fun _ => Yields.throw _) fun hn =>
    reduce_yields (Nat.pos_of_ne_zero hn) hdraw attempts

theorem wordNat_yields : Yields (return (← word).toNat : Draw Nat) (· < 2 ^ 64) :=
  Yields.bind (Yields.trivial word) fun w _ => Yields.pure w.toNat_lt

theorem halfWordNat_yields : Yields (return (← halfWord).toNat : Draw Nat) (· < 2 ^ 32) :=
  Yields.bind (Yields.trivial halfWord) fun w _ => Yields.pure w.toNat_lt

theorem below_yields (n : Nat) : Yields (below n) (· < n) := reduced_yields n wordNat_yields

theorem belowHalf_yields (n : Nat) : Yields (belowHalf n) (· < n) :=
  reduced_yields n halfWordNat_yields

theorem belowHalfEagerly_yields (n : Nat) : Yields (belowHalfEagerly n) (· < n) :=
  reduced_yields n halfWordNat_yields

/-- Some element, or none if there is none. -/
theorem element_yields (xs : List α) : Yields (element xs) fun
    | some x => x ∈ xs
    | none => xs = [] := by
  refine Yields.ite (fun h => Yields.pure (List.isEmpty_iff.1 h)) fun _ => ?_
  refine Yields.bind (belowHalf_yields xs.length) fun i hi => Yields.pure ?_
  rw [List.getElem?_eq_getElem hi]
  exact List.getElem_mem hi

end Draw

/-! ## Attempts -/

namespace Attempt

variable {α β γ δ : Type}

section

variable {f : α → Attempt β} {a : α} {g g' : Random}

/-! ### Runs -/

theorem run_bind {x : Attempt α} (h : x.run g = .ok (.ok a, g')) :
    (x >>= f).run g = (f a).run g' := by
  change Except.bind (x.run g) _ = _
  rw [h]
  rfl

theorem run_bind_error {x : Attempt α} {e : GenerationError} (h : x.run g = .ok (.error e, g')) :
    (x >>= f).run g = .ok (.error e, g') := by
  change Except.bind (x.run g) _ = _
  rw [h]
  rfl

theorem run_bind_fault {x : Attempt α} {e : Fault} (h : x.run g = .error e) :
    (x >>= f).run g = .error e := by
  change Except.bind (x.run g) _ = _
  rw [h]
  rfl

theorem run_draw {x : Draw α} (h : x g = .ok (a, g')) :
    (liftM x : Attempt α).run g = .ok (.ok a, g') := by
  change Except.bind (x g) _ = _
  rw [h]
  rfl

theorem run_lift {x : Except Fault α} (h : x = .ok a) :
    (liftM x : Attempt α).run g = .ok (.ok a, g) := by
  subst h
  rfl

end

/-- Whether an attempt yields something from a stream. -/
def succeeds (x : Attempt α) (g : Random) : Bool :=
  match x.run g with
  | .ok (.ok _, _) => true
  | _ => false

theorem exists_of_succeeds {x : Attempt α} {g : Random} (h : x.succeeds g = true) :
    ∃ a g', x.run g = .ok (.ok a, g') := by
  unfold succeeds at h
  split at h
  · next a g' hrun => exact ⟨a, g', hrun⟩
  · contradiction

/-! ### What is yielded -/

/-- Every tree that an attempt yields has a property, and so has each error. -/
def Yields (x : Attempt α) (P : α → Prop) (E : GenerationError → Prop := fun _ => True) : Prop :=
  GeneticProgramming.Yields x.run fun
    | .ok a => P a
    | .error e => E e

namespace Yields

variable {x : Attempt α} {f : α → Attempt β} {P : α → Prop} {Q : β → Prop}
  {E : GenerationError → Prop}

theorem pure {a : α} (h : P a) : Yields (pure a) P E :=
  GeneticProgramming.Yields.pure (a := Except.ok a) h

theorem throw {e : GenerationError} (h : E e) : Yields (throw e : Attempt α) P E :=
  GeneticProgramming.Yields.pure (a := Except.error e) h

theorem bind (hx : Yields x P E) (hf : ∀ a, P a → Yields (f a) Q E) : Yields (x >>= f) Q E := by
  refine GeneticProgramming.Yields.bind hx fun r hr => ?_
  cases r with
  | ok a => exact hf a hr
  | error e => exact GeneticProgramming.Yields.pure (a := Except.error e) hr

theorem mono {P' : α → Prop} {E' : GenerationError → Prop} (hx : Yields x P E)
    (h : ∀ a, P a → P' a) (he : ∀ e, E e → E' e) : Yields x P' E' := by
  refine GeneticProgramming.Yields.mono hx fun r hr => ?_
  cases r with
  | ok a => exact h a hr
  | error e => exact he e hr

theorem trivial (x : Attempt α) : Yields x fun _ => True := by
  rintro g (e | a) g' - <;> exact True.intro

/-- What is yielded is yielded from some stream. -/
theorem ran (x : Attempt α) : Yields x fun a => ∃ g g', x.run g = .ok (.ok a, g') := by
  rintro g (e | a) g' hrun
  · exact True.intro
  · exact ⟨g, g', hrun⟩

theorem and {P' : α → Prop} (hx : Yields x P E) (hx' : Yields x P') :
    Yields x (fun a => P a ∧ P' a) E := by
  refine GeneticProgramming.Yields.mono (GeneticProgramming.Yields.and hx hx') fun out hout => ?_
  cases out with
  | ok a => exact hout
  | error e => exact hout.1

theorem draw {x : Draw α} (hx : GeneticProgramming.Yields x P) : Yields (liftM x) P E :=
  GeneticProgramming.Yields.map hx fun _ ha => ha

theorem lift {x : Except Fault α} (h : ∀ a, x = .ok a → P a) : Yields (liftM x) P E :=
  GeneticProgramming.Yields.map (GeneticProgramming.Yields.lift h) fun _ ha => ha

theorem except {x : Except GenerationError α} (h : ∀ a, x = .ok a → P a)
    (he : ∀ e, x = .error e → E e) : Yields (liftM x) P E := by
  cases x with
  | ok a => exact pure (h a rfl)
  | error e => exact throw (he e rfl)

theorem ite {c : Prop} [Decidable c] {x y : Attempt α} (hx : c → Yields x P E)
    (hy : ¬ c → Yields y P E) : Yields (if c then x else y) P E := by
  split
  · next h => exact hx h
  · next h => exact hy h

/-- A fold keeps what each of its steps keeps. -/
theorem foldlM {β : Type} {I : List β → α → Prop} {step : α → β → Attempt α} (xs : List β) {a : α}
    (h : I xs a)
    (hstep : ∀ x rest b, I (x :: rest) b → Yields (step b x) (I rest) E) :
    Yields (xs.foldlM step a) (I []) E := by
  induction xs generalizing a with
  | nil => exact pure h
  | cons x rest ih =>
    rw [List.foldlM_cons]
    exact bind (hstep x rest a h) fun b hb => ih hb

end Yields

/-- Two attempts run alike and yield related values, or fail for the same reason. -/
def Alike (R : α → β → Prop) (x : Attempt α) (y : Attempt β) : Prop :=
  Draw.Alike (fun r s => match r, s with
    | .ok a, .ok b => R a b
    | .error e, .error f => e = f
    | _, _ => False) x.run y.run

namespace Alike

variable {R : α → β → Prop} {S : γ → δ → Prop} {x : Attempt α} {y : Attempt β}

theorem pure {a : α} {b : β} (h : R a b) : Alike R (pure a) (pure b) :=
  Draw.Alike.pure (a := Except.ok a) (b := Except.ok b) h

theorem bind {f : α → Attempt γ} {k : β → Attempt δ} (hx : Alike R x y)
    (hf : ∀ a b, R a b → Alike S (f a) (k b)) : Alike S (x >>= f) (y >>= k) := by
  refine Draw.Alike.bind hx fun r s hrs => ?_
  match r, s, hrs with
  | .ok a, .ok b, hab => exact hf a b hab
  | .error e, .error _, rfl =>
    exact Draw.Alike.pure (a := Except.error e) (b := Except.error e) rfl

theorem draw {x : Draw α} {y : Draw β} (hx : Draw.Alike R x y) : Alike R (liftM x) (liftM y) :=
  Draw.Alike.map hx fun _ _ hab => hab

theorem refl (x : Attempt α) : Alike (· = ·) x x :=
  (Draw.Alike.refl x.run).mono fun r _ h => by
    subst h
    cases r <;> rfl

/-- Both go on from the same attempt. -/
theorem same {x : Attempt α} {f : α → Attempt γ} {k : α → Attempt δ}
    (h : ∀ a, Alike S (f a) (k a)) : Alike S (x >>= f) (x >>= k) :=
  bind (refl x) fun a _ hab => hab ▸ h a

theorem lift {x : Except Fault α} {y : Except Fault β} (h : Agree R x y) :
    Alike R (liftM x) (liftM y) :=
  Draw.Alike.map (Draw.Alike.lift h) fun _ _ hab => hab

theorem ite {c d : Prop} [Decidable c] [Decidable d] {x x' : Attempt α} {y y' : Attempt β}
    (hc : c ↔ d) (hx : c → Alike R x y) (hy : ¬ c → Alike R x' y') :
    Alike R (if c then x else x') (if d then y else y') := by
  by_cases h : c
  · rw [if_pos h, if_pos (hc.1 h)]; exact hx h
  · rw [if_neg h, if_neg (fun hd => h (hc.2 hd))]; exact hy h

end Alike

end Attempt

/-! ## Growth -/

namespace Growth

variable {x y : Growth Unit} {t u : Tree} {g g' : Random}

theorem run_kept : (x.kept t).run g = match (x.run.run t).run g with
    | .ok ((.ok (), u), g') => .ok (.ok u, g')
    | .ok ((.error e, _), g') => .ok (.error e, g')
    | .error f => .error f := by
  change Except.bind ((x.run.run t).run g) _ = _
  rcases (x.run.run t).run g with f | ⟨⟨e | done, u⟩, g'⟩ <;> rfl

/-- What is kept is the tree that is left, unless there is an error. -/
theorem run_kept_eq_ok_iff : (x.kept t).run g = .ok (.ok u, g') ↔
    (x.run.run t).run g = .ok ((.ok (), u), g') := by
  rw [run_kept]
  rcases (x.run.run t).run g with f | ⟨⟨e | done, u⟩, g'⟩ <;> simp

theorem run_kept_eq_fault_iff {f : Fault} : (x.kept t).run g = .error f ↔
    (x.run.run t).run g = .error f := by
  rw [run_kept]
  rcases (x.run.run t).run g with f | ⟨⟨e | done, u⟩, g'⟩ <;> simp

theorem kept_pure (t : Tree) : (pure () : Growth Unit).kept t = pure t := rfl

theorem kept_push {C : Type} (p : Palette C) (id : OperatorId) (t : Tree) :
    (push p id).kept t = liftM (t.push p id) := by
  refine ExceptT.ext ?_
  change (t.push p id >>= fun u => pure (Except.ok (), u)) >>= _ =
    (Except.ok <$> t.push p id : Draw (Except GenerationError Tree))
  rw [bind_assoc, map_eq_pure_bind]
  exact bind_congr fun u => pure_bind _ _

/-- One growth goes on from what the other one leaves. -/
theorem kept_seq (x y : Growth Unit) (t : Tree) :
    (x >>= fun _ => y).kept t = x.kept t >>= y.kept := by
  refine ExceptT.ext ?_
  rw [ExceptT.run_bind, kept, kept, ExceptT.run_mk, ExceptT.run_mk, ExceptT.run_bind,
    StateT.run_bind, bind_assoc, bind_assoc]
  refine bind_congr fun left => ?_
  rw [pure_bind]
  rcases left with ⟨e | done, u⟩
  · exact pure_bind _ _
  · rfl

/-- A choice sees nothing of the tree, and leaves it as it is also where it fails. -/
theorem run_choose {α : Type} (x : Attempt α) (f : α → Growth Unit) (t : Tree) :
    (choose x >>= f).run.run t = (do
      match ← x.run with
      | .ok a => (f a).run.run t
      | .error e => return (.error e, t)) := by
  rw [ExceptT.run_bind, StateT.run_bind]
  change (x.run >>= fun result => pure (result, t)) >>= _ = _
  rw [bind_assoc]
  refine bind_congr fun result => ?_
  rw [pure_bind]
  cases result <;> rfl

theorem kept_choose {α : Type} (x : Attempt α) (f : α → Growth Unit) (t : Tree) :
    (choose x >>= f).kept t = x >>= fun a => (f a).kept t := by
  refine ExceptT.ext ?_
  rw [ExceptT.run_bind, kept, ExceptT.run_mk, run_choose, bind_assoc]
  refine bind_congr fun result => ?_
  cases result with
  | ok a => rfl
  | error e => exact pure_bind _ _

theorem kept_forM {α : Type} (f : α → Growth Unit) (xs : List α) (t : Tree) :
    (xs.forM f).kept t = xs.foldlM (fun u a => (f a).kept u) t := by
  induction xs generalizing t with
  | nil => exact kept_pure t
  | cons a xs ih =>
    change (f a >>= fun _ => xs.forM f).kept t = _
    rw [kept_seq, List.foldlM_cons]
    exact bind_congr ih

end Growth

end GeneticProgramming
