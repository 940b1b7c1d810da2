import GeneticProgramming.Proofs.Evaluation.Denotation
import GeneticProgramming.Proofs.Evaluation.Workspace

/-!
# Evaluation computes the denotation

The evaluator walks the records from the last one to the first.  At each suffix of the listing its
stack carries the values of the terms that the suffix spells out, the first one topmost: this is
`walk_carries`, by induction on the nodes.  At the whole listing that is the value of the tree.
-/

namespace GeneticProgramming

variable {C : Type} {p : Palette C}

/-! ## Operators -/

namespace Operator

/-- Arguments of the right types give a value of the right type. -/
theorem exists_applied? {op : Operator C} (hop : op.isLiteral = false) {vs : List Value}
    (hvs : vs.map Value.type = op.arguments) (context : C) :
    ∃ x, op.applied? context vs = some ⟨op.returns, x⟩ := by
  unfold arguments at hvs
  unfold applied? returns
  cases hrule : op.rule with
  | compute arguments returns run =>
    rw [hrule] at hvs
    obtain ⟨xs, hxs⟩ := Arguments.exists_ofValues? hvs
    exact ⟨run xs, by simp only [hxs, Option.map_some]⟩
  | consult arguments returns run =>
    rw [hrule] at hvs
    obtain ⟨xs, hxs⟩ := Arguments.exists_ofValues? hvs
    exact ⟨run context xs, by simp only [hxs, Option.map_some]⟩
  | literal returns draw => simp [isLiteral, hrule] at hop

/-- On the stack an operator does what it does to values. -/
theorem invoke?_carries {op : Operator C} {context : C} {us vs : List Value} {v : Value} {s : Stack}
    (hv : op.applied? context us = some v) (hs : s.Carries (us ++ vs)) :
    ∃ s', op.invoke? context s = some (.ok s') ∧ s'.Carries (v :: vs) := by
  unfold applied? at hv
  unfold invoke?
  cases hrule : op.rule with
  | compute arguments returns run =>
    rw [hrule] at hv
    obtain ⟨xs, hxs, rfl⟩ := Option.map_eq_some_iff.1 hv
    obtain ⟨s', hs', hcarries⟩ := hs.replaceArguments hxs run
    exact ⟨s', congrArg some hs', hcarries⟩
  | consult arguments returns run =>
    rw [hrule] at hv
    obtain ⟨xs, hxs, rfl⟩ := Option.map_eq_some_iff.1 hv
    obtain ⟨s', hs', hcarries⟩ := hs.replaceArguments hxs (run context)
    exact ⟨s', congrArg some hs', hcarries⟩
  | literal returns draw =>
    rw [hrule] at hv
    contradiction

end Operator

theorem Palette.invoke_carries {id : OperatorId} {e : Entry C} (he : p.entry? id = some e)
    {context : C} {us vs : List Value} {v : Value} {s : Stack}
    (hv : e.operator.applied? context us = some v) (hs : s.Carries (us ++ vs)) :
    ∃ s', p.invoke id context s = .ok s' ∧ s'.Carries (v :: vs) := by
  obtain ⟨s', hs', hcarries⟩ := Operator.invoke?_carries hv hs
  exact ⟨s', by rw [invoke, he, Option.bind_some, hs'], hcarries⟩

/-! ## The walk -/

/-- The values of a literal's cells, as they are pushed. -/
def Slot.ofNode (n : Node) (t : ValueType) (h : n.literal.length = t.words) : Slot where
  value := ⟨t, t.load n.literal⟩
  run := n.literal
  length_run := h
  load_run := rfl

/-- Values whose types are those that a palette numbers so. -/
def Palette.HaveTypes (p : Palette C) (vs : List Value) (ts : List TypeId) : Prop :=
  ts.map p.type? = (vs.map Value.type).map some

/-- A node over arguments of its types has a value of its type. -/
theorem Term.exists_value? {n : Node} {e : Entry C} (he : p.entry? n.record.operator = some e)
    (hliteral : n.record.isLiteral = e.operator.isLiteral) {context : C} {args : List Term}
    {us : List Value} (hargs : Term.values? p context args = some us)
    (htypes : us.map Value.type = e.operator.arguments) :
    ∃ x, Term.value? p context (.node n args) = some ⟨e.operator.returns, x⟩ := by
  rw [Term.value?, he]
  simp only [bind, Option.bind_some, hliteral]
  cases hop : e.operator.isLiteral with
  | true => exact ⟨_, rfl⟩
  | false =>
    rw [if_neg (by decide), hargs]
    exact Operator.exists_applied? hop htypes context

/-- A node's own step: its value takes the place of those of its arguments. -/
theorem walk_cons_carries {n : Node} {rs : List Record} {e : Entry C}
    (he : p.entry? n.record.operator = some e)
    (hrecord : n.record = Tree.recordOf e n.record.operator) (hfits : n.Fits)
    {literals : Stack} {before behind : List (List Cell)}
    (hliterals : literals.Holds (before ++ [n.literal] ++ behind)) {s s' : Stack} {context : C}
    (hwalk : Workspace.walk p literals context s rs = .ok (s', behind.flatten.length))
    {args : List Term} {us vs : List Value} {v : Value}
    (hargs : Term.values? p context args = some us)
    (htypes : us.map Value.type = e.operator.arguments) (hcarries : s'.Carries (us ++ vs))
    (hv : Term.value? p context (.node n args) = some v) :
    ∃ s'', Workspace.walk p literals context s (n.record :: rs) =
        .ok (s'', n.literal.length + behind.flatten.length) ∧
      s''.Carries (v :: vs) := by
  have hwords : n.literal.length = n.record.words := hfits
  have hliteral : n.record.isLiteral = e.operator.isLiteral := by rw [hrecord]; rfl
  rw [Term.value?, he] at hv
  rw [Workspace.walk, hwalk]
  simp only [bind, Except.bind, Option.bind_some, hliteral] at hv ⊢
  cases hop : e.operator.isLiteral with
  | true =>
    rw [hop, if_pos rfl] at hv
    injection hv with hv
    subst hv
    rw [Operator.arguments_of_isLiteral hop, List.map_eq_nil_iff] at htypes
    have hlength : n.literal.length = e.operator.returns.words := by
      rw [hwords, hrecord, Tree.words_recordOf, if_pos hop]
    refine ⟨s'.pushRun n.literal, ?_, ?_⟩
    · rw [if_pos rfl, ← hwords, hliterals.runAt, Nat.add_comm]
      rfl
    · rw [htypes] at hcarries
      exact hcarries.pushRun (Slot.ofNode n e.operator.returns hlength)
  | false =>
    rw [hop, if_neg (by decide), hargs] at hv
    have hnone : n.literal.length = 0 := by
      rw [hwords, hrecord, Tree.words_recordOf, hop]
      rfl
    obtain ⟨s'', hs'', hafter⟩ := Palette.invoke_carries he hv hcarries
    refine ⟨s'', ?_, hafter⟩
    rw [if_neg (by decide), hs'', hnone, Nat.zero_add]
    rfl

/-- Some nodes that spell out trees list terms with values of their types, and the walk over them
leaves these values on any stack. -/
theorem walk_carries (hp : p.IsBuilt) {ns : List Node} {ts : List TypeId}
    (hspells : Spells p ts (ns.map Node.record)) (hns : ∀ n ∈ ns, n.Genuine p ∧ n.Fits)
    {literals : Stack} {before : List (List Cell)}
    (hliterals : literals.Holds (before ++ Node.literals ns)) (context : C) :
    ∃ terms vs, Term.assemble p ns = some terms ∧ Term.values? p context terms = some vs ∧
      p.HaveTypes vs ts ∧
      ∀ s us, s.Carries us → ∃ s', Workspace.walk p literals context s (ns.map Node.record) =
          .ok (s', (Node.literals ns).flatten.length) ∧
        s'.Carries (vs ++ us) := by
  induction ns generalizing ts before with
  | nil =>
    cases hspells
    exact ⟨[], [], by rw [Term.assemble], by rw [Term.values?], rfl, fun s us hs => ⟨s, rfl, hs⟩⟩
  | cons n ns ih =>
    obtain ⟨⟨⟨e', he', hrecord, -⟩, hfits⟩, hrest⟩ := List.forall_mem_cons.1 hns
    rw [List.map_cons] at hspells
    cases hspells with
    | @cons e _ ts _ he hspells =>
    rw [he] at he'
    injection he' with he'
    subst he'
    have hheld : literals.Holds (before ++ [n.literal] ++ Node.literals ns) := by
      simpa using hliterals
    obtain ⟨terms, vs, hterms, hvs, htypes, hwalks⟩ := ih hspells hrest hheld
    have hlen : terms.length = e.arguments.length + ts.length := by
      rw [← Term.length_values? hvs, ← List.length_append]
      have hcount := congrArg List.length htypes
      simp only [List.length_map] at hcount
      exact hcount.symm
    -- the terms behind the node are its arguments and those that follow it
    rw [← List.take_append_drop e.arguments.length terms] at hvs
    obtain ⟨args, others, rfl, hargs, hothers, hcount⟩ := Term.values?_append hvs
    rw [List.length_take, Nat.min_eq_left (by omega)] at hcount
    obtain ⟨hargTypes, hotherTypes⟩ : p.HaveTypes args e.arguments ∧ p.HaveTypes others ts := by
      unfold Palette.HaveTypes at htypes
      rw [List.map_append, List.map_append, List.map_append] at htypes
      exact List.append_inj htypes (by simp [hcount])
    have harguments : args.map Value.type = e.operator.arguments :=
      (List.map_inj_right fun _ _ => Option.some.inj).1
        (hargTypes.symm.trans (hp.typed he).arguments)
    have hliteral : n.record.isLiteral = e.operator.isLiteral := by rw [hrecord]; rfl
    obtain ⟨x, hx⟩ := Term.exists_value? he hliteral hargs harguments
    refine ⟨.node n (terms.take e.arguments.length) :: terms.drop e.arguments.length,
      ⟨e.operator.returns, x⟩ :: others, ?_, ?_, ?_, fun s us hs => ?_⟩
    · rw [Term.assemble, hterms]
      simp only [bind, Option.bind_some, Palette.arity_eq he]
      rw [if_neg (by omega)]
    · rw [Term.values?, hx, hothers]
      rfl
    · have htype : p.type? e.returns = some e.operator.returns := (hp.typed he).returns
      unfold Palette.HaveTypes at hotherTypes ⊢
      simp only [List.map_cons, htype, hotherTypes]
    · obtain ⟨s', hwalk, hcarries⟩ := hwalks s us hs
      rw [List.append_assoc] at hcarries
      obtain ⟨s'', hstep, hafter⟩ :=
        walk_cons_carries he hrecord hfits hheld hwalk hargs harguments hcarries hx
      exact ⟨s'', by simpa using hstep, hafter⟩

/-! ## Whole trees -/

/-- The listing of a well-typed tree is that of one term. -/
theorem Tree.term?_eq {t : Tree} {type : TypeId} {term : Term}
    (hspells : Spells p [type] t.records) (h : Term.assemble p t.nodes = some [term]) :
    t.term? p = some term := by
  have hend : t.endpoint p 0 = t.nodes.length := by
    have hspan := hspells.span_eq []
    rw [List.append_nil] at hspan
    rw [Tree.endpoint, List.drop_zero, Nat.zero_add]
    exact hspan.trans t.length_nodes.symm
  rw [Tree.term?, hend, List.take_length, h]
  rfl

namespace Workspace

variable {w : Workspace} {t : Tree} {type : TypeId} {context : C}

/-- An evaluation leaves the one value pending that the walk over the records leaves. -/
theorem evaluate_of_walk (hw : w.Ready) (hspells : Spells p [type] t.records) {v : Value}
    (htype : p.type? type = some v.type)
    (htyped : ∀ {id e}, p.entry? id = some e → e.Typed p.types)
    (hwalk : ∀ s, s.Carries [] → ∃ s' n,
      walk p t.values context s t.records = .ok (s', n) ∧ s'.Carries [v]) :
    (∃ values, w.evaluate p t context = .ok ⟨values, some ⟨type, v.type⟩⟩ ∧
        values.Carries [v]) ∨
      w.evaluate p t context = .error .overflow ∧
        2 ^ 63 < t.values.size + 8 * t.size + 4096 := by
  obtain ⟨discarded, hdiscard⟩ := hw.exists_discard
  obtain ⟨root, e, hroot, he, hreturns⟩ : ∃ root e, t.records.head? = some root ∧
      p.entry? root.operator = some e ∧ e.returns = type := by
    generalize t.records = records at hspells
    cases hspells with
    | cons he _ => exact ⟨_, _, rfl, he, rfl⟩
  have hvalue : e.operator.returns = v.type := by
    have h := (htyped he).returns
    rw [hreturns] at h
    exact Option.some.inj (h.symm.trans htype)
  rw [evaluate, hdiscard]
  simp only [bind, Except.bind, hroot]
  rcases Stack.reserve_cases discarded.values.reset (t.values.size + 8 * t.size) with
    ⟨reserved, hreserved⟩ | ⟨hrefused, hlarge⟩
  · obtain ⟨values, n, hvalues, hcarries⟩ :=
      hwalk reserved (.of_holds_nil ((Stack.Holds.reset _).reserve hreserved))
    have hwords : values.words = e.operator.returns.words := by
      rw [hcarries.words_eq, hvalue, Value.totalWords_cons, Value.totalWords_nil, Nat.add_zero]
    refine .inl ⟨values, ?_, hcarries⟩
    simp only [hreserved, hvalues, he, demand_some, hwords, ne_eq, not_true_eq_false, if_false,
      hreturns, hvalue]
    rfl
  · refine .inr ⟨?_, hlarge⟩
    rw [hrefused]

/-- An evaluation of a well-typed tree leaves the value of its term pending. -/
theorem evaluate_carries (hp : p.IsBuilt) (ht : t.Sound p) (hspells : Spells p [type] t.records)
    (hw : w.Ready) (context : C) : ∃ term v, t.term? p = some term ∧ term.nodes = t.nodes ∧
      term.value? p context = some v ∧ p.type? type = some v.type ∧
      ((∃ values, w.evaluate p t context = .ok ⟨values, some ⟨type, v.type⟩⟩ ∧
          values.Carries [v]) ∨
        w.evaluate p t context = .error .overflow ∧
          2 ^ 63 < t.values.size + 8 * t.size + 4096) := by
  have hgenuine : ∀ n ∈ t.nodes, n.Genuine p ∧ n.Fits :=
    fun n hn => ⟨ht.1.genuine n hn, ht.1.lists.fits n hn⟩
  have hnodes : Spells p [type] (t.nodes.map Node.record) := by rwa [← ht.1.lists.records]
  have hheld : t.values.Holds ([] ++ Node.literals t.nodes) := ht.2
  obtain ⟨terms, vs, hterms, hvs, htypes, hwalks⟩ :=
    walk_carries hp hnodes hgenuine hheld context
  obtain ⟨v, rfl⟩ : ∃ v, vs = [v] := by
    have hcount := congrArg List.length htypes
    simp only [List.length_map] at hcount
    exact List.length_eq_one_iff.1 hcount.symm
  obtain ⟨term, rfl⟩ : ∃ term, terms = [term] :=
    List.length_eq_one_iff.1 (Term.length_values? hvs).symm
  have hterm : term.value? p context = some v := by
    rw [Term.values?, Term.values?] at hvs
    obtain ⟨v', hv', h⟩ := Option.bind_eq_some_iff.1 hvs
    injection h with h
    injection h with h
    rw [hv', h]
  have htype : p.type? type = some v.type := (List.cons.inj htypes).1
  refine ⟨term, v, Tree.term?_eq hspells hterms, ?_, hterm, htype, ?_⟩
  · have hlisted := Term.nodesAll_assemble hterms
    rwa [Term.nodesAll, Term.nodesAll, List.append_nil] at hlisted
  · exact evaluate_of_walk hw hspells htype (hp.typed ·) fun s hs => by
      obtain ⟨s', hwalk, hcarries⟩ := hwalks s [] hs
      rw [← ht.1.lists.records] at hwalk
      exact ⟨s', _, hwalk, hcarries⟩

/-- In a workspace that was used in any way before, a tree that passes its check evaluates to what
its term denotes: only the value is left on the stack, pending, and is taken from there.  A tree
that needs more storage than can be addressed is refused before anything is evaluated. -/
theorem evaluate_denotation (hp : p.IsBuilt) (ht : t.Made p) (hcheck : t.check p = .ok ())
    (hne : t.isEmpty = false) (hw : w.Used) (context : C) :
    ∃ term type v, t.term? p = some term ∧ term.nodes = t.nodes ∧
      term.value? p context = some v ∧ t.rootType? p = some type ∧ p.type? type = some v.type ∧
      ((∃ w', w.evaluate p t context = .ok w' ∧ w'.values.size = v.type.size ∧
          w'.pending = some ⟨type, v.type⟩ ∧
          ∃ w'', w'.take v.type = .ok (.ok v.content, w'')) ∨
        w.evaluate p t context = .error .overflow ∧
          2 ^ 63 < t.values.size + 8 * t.size + 4096) := by
  obtain ⟨-, hempty | ⟨type, hspells⟩⟩ := Tree.check_eq_ok_iff.1 hcheck
  · rw [Tree.isEmpty, hempty] at hne
    contradiction
  · obtain ⟨term, v, hterm, hnodes, hv, htype, hresult⟩ :=
      evaluate_carries hp ht.sound hspells hw.ready context
    refine ⟨term, type, v, hterm, hnodes, hv, Tree.rootType?_eq hspells, htype, ?_⟩
    refine hresult.imp_left ?_
    rintro ⟨values, hvalues, hcarries⟩
    obtain ⟨rest, hpop, -⟩ := hcarries.pop
    refine ⟨_, hvalues, ?_, rfl, ⟨rest, none⟩, ?_⟩
    · simp [Stack.size, hcarries.words_eq, ValueType.size]
    · simp only [take, checkPending, if_true, hpop]
      rfl

/-! ### A tree of three nodes -/

def number : Operator UInt64 := ⟨none, .literal .uint64 (pure 0)⟩

/-- Scales the difference of two numbers by the context. -/
def scale : Operator UInt64 :=
  ⟨some "scale", .consult [.uint64, .uint64] .uint64 fun c (x, y, _) => c * (x - y)⟩

def scaling : Palette UInt64 := ⟨⟨[.uint64]⟩, [⟨number, 0, []⟩, ⟨scale, 0, [0, 0]⟩], [0], none⟩

/-- The listing of `(scale 5 3)`. -/
def difference : Tree where
  records := [⟨1, 8, ⟨false, false⟩⟩, ⟨0, 8, ⟨true, false⟩⟩, ⟨0, 8, ⟨true, false⟩⟩]
  values := ⟨[⟨[.word 3, .word 5], [], 510⟩], none⟩

theorem isBuilt_scaling : scaling.IsBuilt := ⟨[number, scale], none, rfl⟩

theorem made_difference : difference.Made scaling := by
  have hhead : Tree.empty.push scaling 1 default =
      .ok (⟨[⟨1, 8, ⟨false, false⟩⟩], .empty⟩, default) := rfl
  have hfirst : Tree.pushLiteral scaling ⟨[⟨1, 8, ⟨false, false⟩⟩], .empty⟩ 0
      ⟨.uint64, (5 : UInt64)⟩ = .ok (.ok ⟨[⟨1, 8, ⟨false, false⟩⟩, ⟨0, 8, ⟨true, false⟩⟩],
        ⟨[⟨[.word 5], [], 511⟩], none⟩⟩) := rfl
  have hsecond : Tree.pushLiteral scaling ⟨[⟨1, 8, ⟨false, false⟩⟩, ⟨0, 8, ⟨true, false⟩⟩],
      ⟨[⟨[.word 5], [], 511⟩], none⟩⟩ 0 ⟨.uint64, (3 : UInt64)⟩ = .ok (.ok difference) := rfl
  exact .pushLiteral (.pushLiteral (.push .empty hhead) hfirst) hsecond

/-- A workspace in which the tree was evaluated before. -/
def evaluatedOnce : Workspace :=
  ⟨⟨[⟨[.word 4], [5], 511⟩], none⟩, some ⟨0, .uint64⟩⟩

theorem used_evaluatedOnce : evaluatedOnce.Used := by
  have hevaluate : Workspace.empty.evaluate scaling difference 2 = .ok evaluatedOnce := rfl
  exact .evaluate .empty made_difference hevaluate

theorem evaluate_denotation_difference : scaling.IsBuilt ∧ difference.Made scaling ∧
    difference.check scaling = .ok () ∧ difference.isEmpty = false ∧ evaluatedOnce.Used ∧
    ∃ term type v, difference.term? scaling = some term ∧ term.nodes = difference.nodes ∧
      term.value? scaling (10 : UInt64) = some v ∧ difference.rootType? scaling = some type ∧
      scaling.type? type = some v.type ∧
      ((∃ w', evaluatedOnce.evaluate scaling difference 10 = .ok w' ∧
          w'.values.size = v.type.size ∧ w'.pending = some ⟨type, v.type⟩ ∧
          ∃ w'', w'.take v.type = .ok (.ok v.content, w'')) ∨
        evaluatedOnce.evaluate scaling difference 10 = .error .overflow ∧
          2 ^ 63 < difference.values.size + 8 * difference.size + 4096) :=
  ⟨isBuilt_scaling, made_difference, rfl, rfl, used_evaluatedOnce,
    evaluate_denotation isBuilt_scaling made_difference rfl rfl used_evaluatedOnce 10⟩

/-- The first argument is the minuend. -/
example : (scaling.evaluate difference .uint64 10).toOption.bind Except.toOption =
    some (20 : UInt64) := rfl

end Workspace

end GeneticProgramming
