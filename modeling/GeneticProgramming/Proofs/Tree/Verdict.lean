import GeneticProgramming.Proofs.Tree.Edits
import GeneticProgramming.Proofs.Tree.Listing

/-!
# What the check of a tree answers

`Term.misfits` goes over the arguments of a term, node by node in the order of the listing, and
collects those that do not return what the node above them requires.  The main statement,
`Tree.check_outcome`, says that the check of a tree counts bytes, then looks for the one term that
is listed, and then answers with the first misfit of that term.
-/

namespace GeneticProgramming

variable {C : Type} {p : Palette C}

/-- The record of a known operator, whose literal takes whole words. -/
structure Record.IsRegistered (p : Palette C) (r : Record) : Prop where
  known : (p.entry? r.operator).isSome
  whole : r.Whole

/-- The records of the nodes under the operators of a palette. -/
def Palette.records (p : Palette C) : List Record :=
  p.entries.zipIdx.map fun entry => Tree.recordOf entry.1 entry.2

theorem Palette.isRegistered_of_mem_records {r : Record} (h : r ∈ p.records) :
    r.IsRegistered p := by
  obtain ⟨⟨e, id⟩, hentry, rfl⟩ := List.mem_map.1 h
  have he : p.entry? id = some e := List.mem_zipIdx_iff_getElem?.1 hentry
  exact ⟨Option.isSome_of_eq_some he, Tree.whole_recordOf e id⟩

/-- An argument at an index that returns another type than is required of it. -/
structure Misfit where
  index : Nat
  expected : TypeId
  found : TypeId
deriving DecidableEq, Repr

def Misfit.error (m : Misfit) : TreeError := .typeMismatch m.index m.expected m.found

/-- Whether an argument of which a type is required is a misfit. -/
def Misfit.of? (argument : Subtree × TypeId) : Option Misfit :=
  if argument.1.returns = argument.2 then none
  else some ⟨argument.1.start, argument.2, argument.1.returns⟩

namespace Term

variable (p)

mutual

/-- Each argument returns what the node above it requires. -/
def IsTyped : Term → Prop
  | .node n ts =>
    ts.map (returns? p) = (p.argumentTypes n.record.operator).map some ∧ AreTyped ts

def AreTyped : List Term → Prop
  | [] => True
  | t :: ts => IsTyped t ∧ AreTyped ts

end

mutual

/-- The misfits of a term that is listed from an index on: those among the arguments of the node on
top, from the first one to the last, and then those within each argument. -/
def misfits : Nat → Term → List Misfit
  | i, .node n ts =>
    ((extents p (i + 1) ts).zip (p.argumentTypes n.record.operator)).filterMap Misfit.of? ++
      misfitsAll (i + 1) ts

def misfitsAll : Nat → List Term → List Misfit
  | _, [] => []
  | i, t :: ts => misfits i t ++ misfitsAll (i + t.nodes.length) ts

end

variable {p} {ts : List Term}

/-- Arguments without misfits return the required types. -/
theorem filterMap_misfit_eq_nil_iff {types : List TypeId} {i : Nat}
    (hlen : ts.length = types.length) (hknown : ∀ u ∈ ts, (u.returns? p).isSome) :
    ((extents p i ts).zip types).filterMap Misfit.of? = [] ↔
      ts.map (returns? p) = types.map some := by
  induction ts generalizing i types with
  | nil => simp [List.length_eq_zero_iff.1 hlen.symm, extents]
  | cons u ts ih =>
    obtain ⟨hu, hts⟩ := List.forall_mem_cons.1 hknown
    obtain ⟨found, hfound⟩ := Option.isSome_iff_exists.1 hu
    cases types with
    | nil => contradiction
    | cons type types =>
      have hrest := ih (i := i + u.nodes.length) (Nat.succ.inj hlen) hts
      rw [extents, hfound, List.zip_cons_cons, List.filterMap_cons, List.map_cons, List.map_cons,
        hfound, List.cons.injEq, ← hrest, Option.some.injEq]
      by_cases htype : found = type
      · simp only [Misfit.of?, htype, if_true, true_and]
      · simp only [Misfit.of?, htype, if_false, false_and, List.cons_ne_nil]

theorem misfitsAll_eq_nil_iff (hfull : AreFull p ts)
    (hknown : ∀ r ∈ recordsAll ts, (p.entry? r.operator).isSome) (i : Nat) :
    misfitsAll p i ts = [] ↔ AreTyped p ts := by
  induction ts using forest_induction generalizing i with
  | nil => simp [misfitsAll, AreTyped]
  | cons n us ts ihus ihts =>
    obtain ⟨⟨harity, hus⟩, hts⟩ := hfull
    simp only [recordsAll_cons, List.forall_mem_cons, List.forall_mem_append] at hknown
    obtain ⟨hn, hknownus, hknownts⟩ := hknown
    obtain ⟨e, he⟩ := Option.isSome_iff_exists.1 hn
    have hlen : us.length = (p.argumentTypes n.record.operator).length := by
      rw [harity, Palette.arity_eq he, Palette.argumentTypes_eq he]
    have hreturns : ∀ u ∈ us, (u.returns? p).isSome := by
      intro u hu
      obtain ⟨e, he⟩ := Option.isSome_iff_exists.1 (hknownus _ (mem_recordsAll_of_mem hu))
      rw [returns?, Palette.returns?_eq he, Option.isSome_some]
    rw [misfitsAll, misfits, List.append_eq_nil_iff, List.append_eq_nil_iff,
      filterMap_misfit_eq_nil_iff hlen hreturns, ihus hus hknownus, ihts hts hknownts, AreTyped,
      IsTyped]

theorem misfits_eq_nil_iff {u : Term} (hfull : u.IsFull p)
    (hknown : ∀ r ∈ recordsAll [u], (p.entry? r.operator).isSome) (i : Nat) :
    u.misfits p i = [] ↔ u.IsTyped p := by
  have hall := misfitsAll_eq_nil_iff (areFull_singleton.2 hfull) hknown i
  simpa [misfitsAll, AreTyped] using hall

end Term

namespace Tree

open Term

variable {t : Tree} {i : Nat} {u : Term} {ts : List Term} {rest : List Record}

/-! ## Mismatches -/

/-- The mismatch that is found at a node is its first misfit. -/
theorem mismatch_of_drop {n : Node} (h : (Term.node n ts).IsFull p)
    (hdrop : t.records.drop i = recordsAll [.node n ts] ++ rest) :
    t.mismatch p i n.record.operator = (((extents p (i + 1) ts).zip
      (p.argumentTypes n.record.operator)).filterMap Misfit.of?).head?.map Misfit.error := by
  rw [mismatch, arguments_of_drop h hdrop, List.head?_filterMap, List.map_findSome?]
  congr 1
  funext argument
  simp only [Function.comp_apply, Misfit.of?]
  split
  · rfl
  · rfl

/-- The first mismatch that is found among the records of some terms is their first misfit. -/
theorem findSome?_mismatch (h : AreFull p ts) (hdrop : t.records.drop i = recordsAll ts ++ rest) :
    ((recordsAll ts).zipIdx i).findSome? (fun entry => t.mismatch p entry.2 entry.1.operator) =
      (misfitsAll p i ts).head?.map Misfit.error := by
  induction ts using forest_induction generalizing i rest with
  | nil => rfl
  | cons n us ts ihus ihts =>
    have hnode : t.records.drop i = recordsAll [.node n us] ++ (recordsAll ts ++ rest) := by
      simp [hdrop]
    rw [recordsAll_cons, List.cons_append, List.append_assoc] at hdrop
    have harguments := drop_succ_of_drop hdrop
    have hbehind : t.records.drop (i + 1 + (recordsAll us).length) = recordsAll ts ++ rest := by
      rw [← List.drop_drop, harguments, List.drop_left' rfl]
    rw [recordsAll_cons, List.zipIdx_cons, List.findSome?_cons, List.zipIdx_append,
      List.findSome?_append, ihus h.1.2 harguments, ihts h.2 hbehind, mismatch_of_drop h.1 hnode,
      misfitsAll, misfits, List.head?_append, List.head?_append, length_nodes_node, Option.or_assoc,
      ← Nat.add_assoc, Nat.add_right_comm, Option.map_or, Option.map_or]
    cases Option.map Misfit.error (List.head? (List.filterMap Misfit.of? _)) <;> rfl

/-! ## The check of known operators -/

section

variable (h : ∀ r ∈ t.records, (p.entry? r.operator).isSome)
include h

theorem check_of_known : t.check p = (do
    if literalWords t.records ≠ t.values.words then
      throw (.byteMismatch (8 * literalWords t.records) t.values.size)
    t.checkArity p
    firstError (t.records.zipIdx.findSome? fun entry =>
      t.mismatch p entry.2 entry.1.operator)) := by
  unfold check
  rw [findSome?_unknown_eq_none_iff.2 h]
  rfl

theorem check_of_words_ne (hwords : literalWords t.records ≠ t.values.words) :
    t.check p = .error (.byteMismatch (8 * literalWords t.records) t.values.size) := by
  rw [check_of_known h, if_pos hwords]
  rfl

variable (hwords : literalWords t.records = t.values.words)
include hwords

theorem check_of_unlisted (hsome : t.records ≠ []) (hnone : ¬ ∃ u, t.IsListing p u) :
    t.check p = .error (.unbalancedArity (t.endpoint p 0) t.size) := by
  have hdebt : (walkEnd p 0 1 t.records).2 ≠ 0 := mt exists_isListing_iff.2 hnone
  have harity : t.checkArity p = .error (.unbalancedArity (t.endpoint p 0) t.size) := by
    have hstop := walkEnd_fst (p := p) t.records 0 1
    rw [checkArity, isEmpty, if_neg (mt List.isEmpty_iff.1 hsome), endpoint, List.drop_zero,
      ← hstop]
    split
    · next hend => exact absurd (congrArg Prod.snd hend) hdebt
    · next hend => rw [hend]
  rw [check_of_known h, if_neg (not_not_intro hwords), harity]
  rfl

/-- Of a listed term the check finds the first misfit. -/
theorem check_of_isListing (hu : t.IsListing p u) :
    t.check p = firstError ((u.misfits p 0).head?.map Misfit.error) := by
  have harity : t.checkArity p = .ok () :=
    checkArity_eq_ok_iff.2 (.inr (exists_isListing_iff.1 ⟨u, hu⟩))
  have hdrop : t.records.drop 0 = recordsAll [u] ++ [] := by
    rw [List.append_nil, List.drop_zero, hu.records_eq]
  have hfind := findSome?_mismatch (areFull_singleton.2 hu.full) hdrop
  rw [← hu.records_eq, misfitsAll, misfitsAll, List.append_nil] at hfind
  rw [check_of_known h, if_neg (not_not_intro hwords), harity, hfind]
  rfl

end

/-- The check of known operators counts the bytes of the literals, then asks whether the records are
those of one term, and then names the first of its misfits; it accepts what is left. -/
theorem check_outcome (h : ∀ r ∈ t.records, r.IsRegistered p) :
    (t.check p = .ok () ↔ t.literalSize = t.values.size ∧
      (t.records = [] ∨ ∃ u, t.IsListing p u ∧ u.IsTyped p)) ∧
    (t.literalSize ≠ t.values.size →
      t.check p = .error (.byteMismatch t.literalSize t.values.size)) ∧
    (t.literalSize = t.values.size → t.records ≠ [] → (¬ ∃ u, t.IsListing p u) →
      t.check p = .error (.unbalancedArity (t.endpoint p 0) t.size)) ∧
    (∀ u, t.literalSize = t.values.size → t.IsListing p u → ¬ u.IsTyped p →
      ∃ m, (u.misfits p 0).head? = some m ∧
        t.check p = .error (.typeMismatch m.index m.expected m.found)) := by
  have hknown : ∀ r ∈ t.records, (p.entry? r.operator).isSome := fun r hr => (h r hr).known
  have hsize : t.literalSize = 8 * literalWords t.records :=
    literalSize_eq fun r hr => (h r hr).whole
  have hbytes : t.literalSize = t.values.size ↔ literalWords t.records = t.values.words := by
    rw [hsize, Stack.size]
    omega
  have hmisfits : ∀ u, t.IsListing p u → (u.misfits p 0 = [] ↔ u.IsTyped p) := fun u hu =>
    misfits_eq_nil_iff hu.full (hu.records_eq ▸ hknown) 0
  have hmismatch : t.literalSize ≠ t.values.size →
      t.check p = .error (.byteMismatch t.literalSize t.values.size) := by
    intro hne
    rw [hsize]
    exact check_of_words_ne hknown (mt hbytes.2 hne)
  have hunlisted : t.literalSize = t.values.size → t.records ≠ [] → (¬ ∃ u, t.IsListing p u) →
      t.check p = .error (.unbalancedArity (t.endpoint p 0) t.size) := fun heq =>
    check_of_unlisted hknown (hbytes.1 heq)
  have hmisfit : ∀ u, t.literalSize = t.values.size → t.IsListing p u → ¬ u.IsTyped p →
      ∃ m, (u.misfits p 0).head? = some m ∧
        t.check p = .error (.typeMismatch m.index m.expected m.found) := by
    intro u heq hu htyped
    have hcheck := check_of_isListing hknown (hbytes.1 heq) hu
    cases hlist : u.misfits p 0 with
    | nil => exact absurd ((hmisfits u hu).1 hlist) htyped
    | cons m ms =>
      rw [hlist] at hcheck
      exact ⟨m, rfl, hcheck⟩
  refine ⟨⟨fun hok => ?_, ?_⟩, hmismatch, hunlisted, hmisfit⟩
  · obtain ⟨hwords, hempty | ⟨type, hspells⟩⟩ := check_eq_ok_iff.1 hok
    · exact ⟨hbytes.2 hwords, .inl hempty⟩
    · obtain ⟨u, hu⟩ := exists_isListing hspells
      refine ⟨hbytes.2 hwords, .inr ⟨u, hu, ?_⟩⟩
      by_contra htyped
      obtain ⟨m, -, hcheck⟩ := hmisfit u (hbytes.2 hwords) hu htyped
      rw [hcheck] at hok
      contradiction
  · rintro ⟨heq, hempty | ⟨u, hu, htyped⟩⟩
    · exact check_eq_ok_iff.2 ⟨hbytes.1 heq, .inl hempty⟩
    · rw [check_of_isListing hknown (hbytes.1 heq) hu, (hmisfits u hu).2 htyped]
      rfl

/-! ### Numbers under conditions -/

def condition : Operator Unit := ⟨none, .literal .bool (pure true)⟩

def amount : Operator Unit := ⟨none, .literal .uint64 (pure 1)⟩

def provided : Operator Unit :=
  ⟨some "provided", .compute [.bool, .uint64] .uint64 fun (c, x, _) => if c then x else 0⟩

def conditional : Palette Unit :=
  ⟨⟨[.bool, .uint64]⟩, [⟨condition, 0, []⟩, ⟨amount, 1, []⟩, ⟨provided, 1, [0, 1]⟩], [0, 0], none⟩

/-- The listing of `(provided true (provided 7 true))`. -/
def reversed : Tree where
  records := [⟨2, 8, ⟨false, false⟩⟩, ⟨0, 8, ⟨true, false⟩⟩, ⟨2, 8, ⟨false, false⟩⟩,
    ⟨1, 8, ⟨true, false⟩⟩, ⟨0, 8, ⟨true, false⟩⟩]
  values := ⟨[⟨[.word 1, .word 7, .word 1], [], 509⟩], none⟩

def reversedTerm : Term :=
  .node ⟨⟨2, 8, ⟨false, false⟩⟩, []⟩ [.node ⟨⟨0, 8, ⟨true, false⟩⟩, [.word 1]⟩ [],
    .node ⟨⟨2, 8, ⟨false, false⟩⟩, []⟩ [.node ⟨⟨1, 8, ⟨true, false⟩⟩, [.word 7]⟩ [],
      .node ⟨⟨0, 8, ⟨true, false⟩⟩, [.word 1]⟩ []]]

/-- Records of which the first one lacks an argument. -/
def lacking : Tree where
  records := [⟨2, 8, ⟨false, false⟩⟩, ⟨0, 8, ⟨true, false⟩⟩]
  values := ⟨[⟨[.word 1], [], 511⟩], none⟩

theorem isListing_reversed : reversed.IsListing conditional reversedTerm :=
  ⟨⟨rfl, ⟨rfl, trivial⟩, ⟨rfl, ⟨rfl, trivial⟩, ⟨rfl, trivial⟩, trivial⟩, trivial⟩, rfl⟩

theorem check_outcome_reversed : (∀ r ∈ reversed.records, r.IsRegistered conditional) ∧
    reversed.literalSize = reversed.values.size ∧
    reversed.IsListing conditional reversedTerm ∧ ¬ reversedTerm.IsTyped conditional ∧
    (∃ m, (reversedTerm.misfits conditional 0).head? = some m ∧
      reversed.check conditional = .error (.typeMismatch m.index m.expected m.found)) ∧
    (∀ r ∈ lacking.records, r.IsRegistered conditional) ∧
    lacking.literalSize = lacking.values.size ∧ lacking.records ≠ [] ∧
    (¬ ∃ u, lacking.IsListing conditional u) ∧
    lacking.check conditional = .error (.unbalancedArity 2 2) := by
  have hreversed : ∀ r ∈ reversed.records, r.IsRegistered conditional := by
    have hall : ∀ r ∈ reversed.records, r ∈ conditional.records := by decide
    exact fun r hr => Palette.isRegistered_of_mem_records (hall r hr)
  have hlacking : ∀ r ∈ lacking.records, r.IsRegistered conditional := by
    have hall : ∀ r ∈ lacking.records, r ∈ conditional.records := by decide
    exact fun r hr => Palette.isRegistered_of_mem_records (hall r hr)
  have htyped : ¬ reversedTerm.IsTyped conditional := fun h =>
    absurd h.2.2.1.1 (by decide)
  have hnone : ¬ ∃ u, lacking.IsListing conditional u := mt exists_isListing_iff.1 (by decide)
  have hmisfit := (check_outcome hreversed).2.2.2 reversedTerm rfl isListing_reversed htyped
  have hunbalanced := (check_outcome hlacking).2.2.1 rfl (by decide) hnone
  exact ⟨hreversed, rfl, isListing_reversed, htyped, hmisfit, hlacking, rfl, by decide, hnone,
    hunbalanced⟩

/-- The number in the place of a condition comes before the condition in the place of a number. -/
example : reversedTerm.misfits conditional 0 = [⟨3, 0, 1⟩, ⟨4, 1, 0⟩] := rfl

end Tree

end GeneticProgramming
