import GeneticProgramming.Proofs.Variation.Total

/-!
# The outcome of crossover

From any stream, crossover of two well-typed trees ends in one of few ways, which `Crossover.Outcome`
lists: a parent is too small, no point of the second parent matches the one that was selected in the
first, or there are two children, each well-typed and of its own parent's type.  What nodes are
refilled with is grown of types that can be grown, so no further error comes up, but a literal may
be drawn whose draw ends in a fault: `Crossover.apply_outcome`.
-/

namespace GeneticProgramming

variable {C : Type} {p : Palette C}

/-! ## Selecting points -/

namespace PointSelector

open GeneticProgramming.Tree

variable {t : Tree} {type : TypeId}

/-- From any stream a node is selected. -/
theorem exists_select {s : PointSelector} (hs : s.Sane) (ht : t.Proper p type)
    (hsize : t.size < 2 ^ 64) (g : Random) :
    ∃ i g', s.select p t g = .ok (i, g') ∧ i < t.size := by
  cases h : s.select p t g with
  | error f => exact (select_faults hs.usable ht hsize (fun _ => False) g f h).elim
  | ok r => exact ⟨r.1, r.2, rfl, select_yields s ht g r.1 r.2 h⟩

/-- So many points of a tree that are selected one after another, none of which fits. -/
inductive Misses (p : Palette C) (s : PointSelector) (t : Tree) (fits : Subtree → Bool) :
    Nat → Random → Random → Prop where
  | none {g : Random} : Misses p s t fits 0 g g
  | more {n i : Nat} {b : Subtree} {g g' g'' : Random} : s.select p t g = .ok (i, g') →
      t.subtree p i = .ok b → fits b = false → Misses p s t fits n g' g'' →
        Misses p s t fits (n + 1) g g''

end PointSelector

/-! ## Refilling a node -/

namespace Refill

open GeneticProgramming.Tree

variable {source out : Tree} {type : TypeId} {i : Nat}

theorem head_faults (hsource : source.Proper p type) (hi : i < source.size) (hout : out.Sound p) :
    Draw.FaultsOnly (head p source i out) p.LiteralFault := by
  have hr : source.records[i]? = some source.records[i] := List.getElem?_eq_getElem hi
  obtain ⟨e, he, -⟩ := hsource.sound.1.entry (List.mem_of_getElem? hr)
  have hrecord : demand source.records[i]? = .ok source.records[i] := by rw [hr, demand_some]
  refine .known hrecord (.ite (fun _ => ?_) fun _ => push_faults out he)
  obtain ⟨s, hs⟩ := exists_subtree hsource.spells hi
  obtain ⟨u, hu⟩ := hsource.exists_copySubtree (contains_of_subtree hs) hout
  exact .known hs (.lift hu)

end Refill

namespace Tree.Proper

variable {t u : Tree} {type other : TypeId} {a b : Subtree}

theorem exists_swapSubtrees (ht : t.Proper p type) (hu : u.Proper p other) (ha : t.Contains p a)
    (hb : u.Contains p b) : ∃ out, t.swapSubtrees a u b = .ok out := by
  obtain ⟨hlta, hstopa⟩ := ht.bounds ha
  obtain ⟨hltb, hstopb⟩ := hu.bounds hb
  rw [ht.sound.1.lists.size_eq] at hstopa
  rw [hu.sound.1.lists.size_eq] at hstopb
  obtain ⟨out, hout, -⟩ := (ht.sound.1.lists.swapSubtrees_agree hu.sound.1.lists a b).exists_ok
    (exchangeRanges_eq (Nat.le_of_lt hlta) hstopa (Nat.le_of_lt hltb) hstopb)
  exact ⟨out, hout⟩

end Tree.Proper

namespace Crossover

open GeneticProgramming.Tree

variable {c : Crossover} {t u : Tree} {type other : TypeId} {a b : Subtree} {g : Random}

/-- A crossover whose chances are numbers. -/
structure Sane (c : Crossover) : Prop where
  points : c.points.Sane
  generator : c.generator.Sane

/-- A crossover whose chances are numbers, as far as those of its kind are looked at. -/
structure Usable (c : Crossover) : Prop where
  points : c.points.Usable
  generator : c.kind = .advanced → c.generator.Sane

theorem Sane.usable (hc : c.Sane) : c.Usable := ⟨hc.points.usable, fun _ => hc.generator⟩

/-! ## Points that match -/

/-- A match is found, or as many points as there are tries were no match. -/
theorem findPartner_cases (hc : c.Sane) (t : Tree) (a : Subtree) (hu : u.Proper p other)
    (hsize : u.size < 2 ^ 64) (tries : Nat) (g : Random) :
    (∃ b g', (c.findPartner p t a u tries).run g = .ok (.ok b, g') ∧ u.Contains p b ∧
        c.compatible p t a u b = true) ∨
      ∃ g', (c.findPartner p t a u tries).run g =
          .ok (.error (.noValidType (some a.returns)), g') ∧
        c.points.Misses p u (c.compatible p t a u) tries g g' := by
  induction tries generalizing g with
  | zero => exact .inr ⟨g, rfl, .none⟩
  | succ tries ih =>
    obtain ⟨i, g', hselect, hi⟩ := PointSelector.exists_select hc.points hu hsize g
    obtain ⟨b, hb⟩ := exists_subtree hu.spells hi
    rw [findPartner, Attempt.run_bind (Attempt.run_draw hselect),
      Attempt.run_bind (Attempt.run_lift hb)]
    cases hfits : c.compatible p t a u b with
    | true => exact .inl ⟨b, g', rfl, contains_of_subtree hb, hfits⟩
    | false =>
      refine (ih g').imp_right ?_
      rintro ⟨g'', hrun, hmisses⟩
      exact ⟨g'', hrun, .more hselect hb hfits hmisses⟩

/-- A point `a` is selected in one tree, and as many points of another one as there are tries do not
match it. -/
def Unmatched (p : Palette C) (c : Crossover) (t u : Tree) (a : Subtree) (g g'' : Random) : Prop :=
  ∃ i g', c.points.select p t g = .ok (i, g') ∧ t.subtree p i = .ok a ∧
    c.points.Misses p u (c.compatible p t a u) (max c.tries 1) g' g''

theorem findPoints_cases (hc : c.Sane) (ht : t.Proper p type) (hu : u.Proper p other)
    (htsize : t.size < 2 ^ 64) (husize : u.size < 2 ^ 64) (g : Random) :
    (∃ a b g', (c.findPoints p t u).run g = .ok (.ok (a, b), g') ∧ t.Contains p a ∧
        u.Contains p b ∧ a.returns = b.returns) ∨
      ∃ a g', (c.findPoints p t u).run g = .ok (.error (.noValidType (some a.returns)), g') ∧
        Unmatched p c t u a g g' := by
  obtain ⟨i, g', hselect, hi⟩ := PointSelector.exists_select hc.points ht htsize g
  obtain ⟨a, ha⟩ := exists_subtree ht.spells hi
  rw [findPoints, Attempt.run_bind (Attempt.run_draw hselect),
    Attempt.run_bind (Attempt.run_lift ha)]
  obtain ⟨b, g'', hrun, hb, hcompatible⟩ | ⟨g'', hrun, hmisses⟩ :=
    findPartner_cases hc t a hu husize (max c.tries 1) g'
  · rw [Attempt.run_bind hrun]
    exact .inl ⟨a, b, g'', rfl, contains_of_subtree ha, hb, returns_eq_of_compatible hcompatible⟩
  · rw [Attempt.run_bind_error hrun]
    exact .inr ⟨a, g'', rfl, i, g', hselect, ha, hmisses⟩

theorem findPartner_faults (hc : c.points.Usable) (t : Tree) (a : Subtree) (hu : u.Proper p other)
    (hsize : u.size < 2 ^ 64) (tries : Nat) (F : Fault → Prop) :
    Attempt.FaultsOnly (c.findPartner p t a u tries) F := by
  induction tries with
  | zero => exact .throw _
  | succ tries ih =>
    refine .drawn (PointSelector.select_faults hc hu hsize F)
      (PointSelector.select_yields c.points hu) fun i hi => ?_
    obtain ⟨b, hb⟩ := exists_subtree hu.spells hi
    refine .known hb ?_
    exact .ite (fun _ => .pure b) fun _ => ih

theorem findPoints_faults (hc : c.points.Usable) (ht : t.Proper p type) (hu : u.Proper p other)
    (htsize : t.size < 2 ^ 64) (husize : u.size < 2 ^ 64) (F : Fault → Prop) :
    Attempt.FaultsOnly (c.findPoints p t u) F := by
  refine .drawn (PointSelector.select_faults hc ht htsize F)
    (PointSelector.select_yields c.points ht) fun i hi => ?_
  obtain ⟨a, ha⟩ := exists_subtree ht.spells hi
  refine .known ha ?_
  exact .andThen (findPartner_faults hc t a hu husize _ F) fun b => .pure (a, b)

/-! ## Children -/

theorem rebuild_faults (hp : p.IsBuilt) (hc : c.generator.Sane) (ht : t.Proper p type)
    (ha : t.Contains p a) (hu : u.Proper p other) (hb : u.Contains p b) :
    Attempt.FaultsOnly (c.rebuild p t a u b) p.LiteralFault := by
  obtain ⟨i, hi⟩ := ha
  obtain ⟨r, e, hr, he, rfl⟩ := subtree?_eq_some hi
  have hlt : i < t.size := (List.getElem?_eq_some_iff.1 hr).1
  refine .drawn (Refill.head_faults ht hlt .empty) (Refill.head_yields hp ht .empty)
    fun out hout => ?_
  obtain ⟨_, _, _, _, hout⟩ := hout
  have hrecord : demand t.records[i]? = .ok r := by rw [hr, demand_some]
  refine .known hrecord ?_
  obtain ⟨j, hj⟩ := hb
  have hchildren := children_eq hu.spells (subtree?_start hj ▸ subtree?_lt_size hj)
  refine .known hchildren ?_
  rw [Palette.argumentTypes_eq he]
  exact Refill.arguments_faults hp hc _ hu (hp.arguments_lt he)
    (fun _ => contains_of_mem_arguments) hout.1

/-- Only an exchange that grows arguments draws literals. -/
theorem Usable.exchange_faults (hc : c.Usable) (hp : p.IsBuilt) (ht : t.Proper p type)
    (hu : u.Proper p other) (ha : t.Contains p a) (hb : u.Contains p b) :
    Attempt.FaultsOnly (c.exchange p t u a b) fun f => c.kind = .advanced ∧ p.LiteralFault f := by
  obtain ⟨out, hout⟩ := ht.duplicate.exists_swapSubtrees hu.duplicate ha hb
  unfold exchange
  split
  · next hkind =>
    have hsane := hc.generator hkind
    have hgrown (f : Fault) (hf : p.LiteralFault f) := And.intro hkind hf
    refine .bind ((rebuild_faults hp hsane hu hb ht ha).mono hgrown) (rebuild_yields hp c hu hb ht)
      fun left hleft => ?_
    refine .bind ((rebuild_faults hp hsane ht ha hu hb).mono hgrown) (rebuild_yields hp c ht ha hu)
      fun right hright => ?_
    obtain ⟨v, hv⟩ := ht.duplicate.exists_replaceSubtree ha hleft.sound
    obtain ⟨w, hw⟩ := hu.duplicate.exists_replaceSubtree hb hright.sound
    exact .known hv (.known hw (.pure _))
  · exact .lift hout

theorem exchange_faults (hp : p.IsBuilt) (hc : c.Sane) (ht : t.Proper p type)
    (hu : u.Proper p other) (ha : t.Contains p a) (hb : u.Contains p b) :
    Attempt.FaultsOnly (c.exchange p t u a b) fun f => c.kind = .advanced ∧ p.LiteralFault f :=
  hc.usable.exchange_faults hp ht hu ha hb

theorem Usable.apply_faults (hc : c.Usable) (hp : p.IsBuilt) (ht : t.Proper p type)
    (hu : u.Proper p other) (htsize : t.size < 2 ^ 64) (husize : u.size < 2 ^ 64) :
    Attempt.FaultsOnly (c.apply p t u) p.LiteralFault := by
  rw [apply_eq]
  refine .andThen (.except _) fun _ => .andThen (.except _) fun _ => ?_
  refine .bind (findPoints_faults hc.points ht hu htsize husize _) (findPoints_yields c t u)
    fun ab hab => ?_
  obtain ⟨ha, hb, -⟩ := hab
  exact (hc.exchange_faults hp ht hu ha hb).mono fun _ hf => hf.2

/-! ## Outcomes -/

theorem checkSize_eq_error (h : t.size < c.leastSize) :
    c.checkSize t = .error (.treeTooSmall t.size c.leastSize) :=
  if_pos h

theorem checkSize_eq_ok (h : c.leastSize ≤ t.size) : c.checkSize t = .ok () :=
  if_neg (Nat.not_lt.2 h)

/-- A tree that is large enough for crossover has a root, and so a type. -/
theorem exists_proper (ht : t.Sound p) (hcheck : t.check p = .ok ()) (h : c.leastSize ≤ t.size) :
    ∃ type, t.Proper p type := by
  have hone : 1 ≤ c.leastSize := Nat.le_max_right _ _
  exact exists_proper_of_check ht hcheck (Nat.le_trans hone h)

/-- A child passes its check and returns what its parent returned. -/
structure IsChild (p : Palette C) (parent child : Tree) : Prop where
  sound : child.Sound p
  check : child.check p = .ok ()
  rootType? : child.rootType? p = parent.rootType? p

theorem isChild_of_proper {child : Tree} (ht : t.Proper p type) (hchild : child.Proper p type) :
    IsChild p t child where
  sound := hchild.sound
  check := hchild.check
  rootType? := by rw [rootType?_eq hchild.spells, rootType?_eq ht.spells]

/-- The ways in which crossover of two parents ends, from a stream. -/
inductive Outcome (p : Palette C) (c : Crossover) (t u : Tree) (g : Random) :
    Except Fault (Except GenerationError (Tree × Tree) × Random) → Prop where
  | firstTooSmall : t.size < c.leastSize →
      Outcome p c t u g (.ok (.error (.treeTooSmall t.size c.leastSize), g))
  | secondTooSmall : c.leastSize ≤ t.size → u.size < c.leastSize →
      Outcome p c t u g (.ok (.error (.treeTooSmall u.size c.leastSize), g))
  | unmatched {a : Subtree} {g' : Random} : c.leastSize ≤ t.size → c.leastSize ≤ u.size →
      Unmatched p c t u a g g' → Outcome p c t u g (.ok (.error (.noValidType (some a.returns)), g'))
  | children {v w : Tree} {g' : Random} : c.leastSize ≤ t.size → c.leastSize ≤ u.size →
      IsChild p t v → IsChild p u w → Outcome p c t u g (.ok (.ok (v, w), g'))
  /-- The draw of a literal that is grown ends in a fault. -/
  | fault {f : Fault} : c.leastSize ≤ t.size → c.leastSize ≤ u.size → c.kind = .advanced →
      p.LiteralFault f → Outcome p c t u g (.error f)

/-- Crossover of trees of any size that a machine can hold has such an outcome, from any stream, which
is read up to `Draw.attempts`. -/
theorem apply_outcome (hp : p.IsBuilt) (hc : c.Sane) (ht : t.Made p) (hu : u.Made p)
    (htcheck : t.check p = .ok ()) (hucheck : u.check p = .ok ()) (htsize : t.size < 2 ^ 64)
    (husize : u.size < 2 ^ 64) (g : Random) : Outcome p c t u g ((c.apply p t u).run g) := by
  rw [apply_eq]
  rcases Nat.lt_or_ge t.size c.leastSize with hsmall | htleast
  · rw [checkSize_eq_error hsmall]
    exact .firstTooSmall hsmall
  rw [checkSize_eq_ok htleast]
  rcases Nat.lt_or_ge u.size c.leastSize with hsmall | huleast
  · rw [checkSize_eq_error hsmall]
    exact .secondTooSmall htleast hsmall
  rw [checkSize_eq_ok huleast]
  obtain ⟨type, ht⟩ := exists_proper ht.sound htcheck htleast
  obtain ⟨other, hu⟩ := exists_proper hu.sound hucheck huleast
  -- both sizes are fine, and what is left is to find two points and to exchange them
  change Outcome p c t u g
    ((c.findPoints p t u >>= fun ab => c.exchange p t u ab.1 ab.2 : Attempt _).run g)
  obtain ⟨a, b, g', hrun, ha, hb, hreturns⟩ | ⟨a, g', hrun, hunmatched⟩ :=
    findPoints_cases hc ht hu htsize husize g
  · rw [Attempt.run_bind hrun]
    obtain ⟨⟨v, w⟩, g'', hrun, hv, hw⟩ | ⟨f, hrun, hkind, hf⟩ :=
      (exchange_yields hp c ht hu ha hb hreturns).cases (exchange_faults hp hc ht hu ha hb) g'
    · rw [hrun]
      exact .children htleast huleast (isChild_of_proper ht hv) (isChild_of_proper hu hw)
    · rw [hrun]
      exact .fault htleast huleast hkind hf
  · rw [Attempt.run_bind_error hrun]
    exact .unmatched htleast huleast hunmatched

/-! ### A choice and a byte -/

open Mutation (choices chosen isBuilt_choices made_chosen)

/-- Nodes are refilled, and found in three tries. -/
def refilling : Crossover where
  kind := .advanced
  tries := 3
  minTreeSize := 0
  points := ⟨.zero, true, .one⟩
  replacement := ⟨0, 2⟩
  generator := .grow ⟨0x3FE0000000000000⟩

/-- The listing of `7`. -/
def seven : Tree := ⟨[⟨1, 8, ⟨true, false⟩⟩], ⟨[⟨[.word 7], [], 511⟩], none⟩⟩

theorem sane_refilling : refilling.Sane := ⟨⟨rfl, rfl⟩, rfl⟩

theorem made_seven : seven.Made choices := by
  have hbyte : Tree.pushLiteral choices .empty 1 ⟨.uint8, (7 : UInt8)⟩ = .ok (.ok seven) := rfl
  exact .pushLiteral .empty hbyte

theorem apply_outcome_seven : choices.IsBuilt ∧ refilling.Sane ∧ chosen.Made choices ∧
    seven.Made choices ∧ chosen.check choices = .ok () ∧ seven.check choices = .ok () ∧
    chosen.size < 2 ^ 64 ∧ seven.size < 2 ^ 64 ∧
    ∀ g, Outcome choices refilling chosen seven g ((refilling.apply choices chosen seven).run g) :=
  ⟨isBuilt_choices, sane_refilling, made_chosen, made_seven, rfl, rfl, by decide, by decide,
    apply_outcome isBuilt_choices sane_refilling made_chosen made_seven rfl rfl (by decide)
      (by decide)⟩

end Crossover

end GeneticProgramming
