import GeneticProgramming.Proofs.Evaluation.Correct

/-!
# The protocol of a workspace

A workspace is asked to evaluate trees, of any palettes, and for the result, as a value to take or
to look at.  Seen from outside it holds one value or none: an evaluation puts the value of the tree in
the place of what was there, and a request for a result of the right type takes it away.
`Request.answer` and `Request.leaves` say so without a stack, and the main statement,
`Workspace.serveAll_answers`, says that every sequence of requests is answered in this way.
-/

namespace GeneticProgramming

/-! ## Values of trees -/

/-- The value of a tree in a context; an empty tree has none. -/
def Tree.value? {C : Type} (p : Palette C) (t : Tree) (context : C) : Option Value :=
  (t.term? p).bind (Term.value? p context)

theorem Tree.value?_of_isEmpty {C : Type} {t : Tree} (h : t.isEmpty = true) (p : Palette C)
    (context : C) : t.value? p context = none := by
  rw [isEmpty, List.isEmpty_iff] at h
  have hnodes : t.nodes = [] := by rw [nodes, h]; rfl
  rw [value?, term?, hnodes, List.take_nil, Term.assemble]
  rfl

namespace Workspace

/-! ## Requests -/

/-- What a workspace is asked for.  A tree is evaluated with the operators of its own palette. -/
inductive Request where
  | evaluate {C : Type} (p : Palette C) (t : Tree) (context : C)
  | take (type : ValueType)
  | look (type : ValueType)

inductive Answer where
  | done
  | value (v : Value)
  | refused (e : EvaluationError)

def Answer.ofResult {type : ValueType} : Except EvaluationError type.Carrier → Answer
  | .ok x => .value ⟨type, x⟩
  | .error e => .refused e

def serve (w : Workspace) : Request → Except Fault (Answer × Workspace)
  | .evaluate p t context => do return (.done, ← w.evaluate p t context)
  | .take type => do
    let (result, next) ← w.take type
    return (.ofResult result, next)
  | .look type => do
    let (result, next) ← w.look type
    return (.ofResult result, next)

/-- Serves one request after another. -/
def serveAll (w : Workspace) : List Request → Except Fault (List Answer × Workspace)
  | [] => .ok ([], w)
  | r :: rs => do
    let (answer, next) ← w.serve r
    let (answers, last) ← next.serveAll rs
    return (answer :: answers, last)

/-! ## The protocol -/

namespace Request

/-- The type of the result that is asked for. -/
def type? : Request → Option ValueType
  | .evaluate _ _ _ => none
  | .take type => some type
  | .look type => some type

/-- The answer to a request for a result, where one value or none is held. -/
def found (held : Option Value) (type : ValueType) : Answer :=
  match held with
  | none => .refused .empty
  | some v =>
    if v.type = type then .value v else .refused (.typeMismatch type.label v.type.label)

def answer (held : Option Value) : Request → Answer
  | .evaluate _ _ _ => .done
  | .take type => found held type
  | .look type => found held type

/-- What is held after a request. -/
def leaves (held : Option Value) : Request → Option Value
  | .evaluate p t context => t.value? p context
  | .take type => held.filter (·.type ≠ type)
  | .look type => held.filter (·.type ≠ type)

/-- What is held after some requests. -/
def leavesAll (held : Option Value) (rs : List Request) : Option Value := rs.foldl leaves held

def answers : Option Value → List Request → List Answer
  | _, [] => []
  | held, r :: rs => r.answer held :: answers (r.leaves held) rs

/-- A tree that is evaluated was made for its palette and passes its check. -/
def IsChecked : Request → Prop
  | .evaluate p t _ => p.IsBuilt ∧ t.Made p ∧ t.check p = .ok ()
  | _ => True

/-- A tree is evaluated that asks for more storage than can be addressed. -/
def IsUnstorable : Request → Prop
  | .evaluate _ t _ => 2 ^ 63 < t.values.size + 8 * t.size + 4096
  | _ => False

/-- A request is answered by what is held after those before it. -/
theorem getElem?_answers (held : Option Value) (front : List Request) (r : Request)
    (behind : List Request) : (answers held (front ++ r :: behind))[front.length]? =
      some (r.answer (leavesAll held front)) := by
  induction front generalizing held with
  | nil => rfl
  | cons s front ih =>
    rw [List.cons_append, answers, List.length_cons, List.getElem?_cons_succ]
    exact ih (s.leaves held)

theorem answer_of_type? {r : Request} {type : ValueType} (h : r.type? = some type)
    (held : Option Value) : r.answer held = found held type := by
  cases r with
  | evaluate p t context => contradiction
  | take type' | look type' =>
    injection h with h
    rw [h, answer]

theorem leaves_of_type? {r : Request} {type : ValueType} (h : r.type? = some type)
    (held : Option Value) : r.leaves held = held.filter (·.type ≠ type) := by
  cases r with
  | evaluate p t context => contradiction
  | take type' | look type' =>
    injection h with h
    rw [h, leaves]

/-- Requests for results keep a value until its type is asked for. -/
theorem leavesAll_of_type? {rs : List Request} (h : ∀ r ∈ rs, r.type?.isSome)
    (held : Option Value) :
    leavesAll held rs = held.filter fun v => ∀ r ∈ rs, r.type? ≠ some v.type := by
  induction rs generalizing held with
  | nil => cases held <;> simp [leavesAll, Option.filter_some]
  | cons r rs ih =>
    obtain ⟨hr, hrs⟩ := List.forall_mem_cons.1 h
    obtain ⟨type, htype⟩ := Option.isSome_iff_exists.1 hr
    change leavesAll (r.leaves held) rs = _
    rw [ih hrs, leaves_of_type? htype]
    cases held with
    | none => rfl
    | some v =>
      by_cases hv : type = v.type
      · simp [Option.filter_some, htype, hv]
      · simp [Option.filter_some, htype, hv, Ne.symm hv]

end Request

open Request

/-! ## Serving -/

variable {C : Type} {p : Palette C} {w : Workspace} {held : Option Value}

/-- A workspace that holds one value, on an otherwise empty stack, or none. -/
def Shows (w : Workspace) : Option Value → Prop
  | none => w.pending = none
  | some v => (∃ id, w.pending = some ⟨id, v.type⟩) ∧ w.values.Carries [v]

namespace Shows

theorem ready (h : w.Shows held) : w.Ready := by
  intro pending hpending
  cases held with
  | none => exact absurd (hpending.symm.trans h) (Option.some_ne_none pending)
  | some v =>
    obtain ⟨⟨id, hid⟩, slots, hholds, hslots⟩ := h
    rw [hid] at hpending
    obtain ⟨slot, none, rfl, rfl, hnone⟩ := List.map_eq_cons_iff.1 hslots
    obtain rfl := List.map_eq_nil_iff.1 hnone
    injection hpending with hpending
    subst hpending
    exact ⟨slot.run, slot.length_run, hholds⟩

theorem checkPending_none (h : w.Shows none) (type : ValueType) :
    w.checkPending type = .error .empty := by
  have hnone : w.pending = none := h
  rw [Workspace.checkPending, hnone]

theorem checkPending_some {v : Value} (h : w.Shows (some v)) (type : ValueType) :
    w.checkPending type =
      if v.type = type then .ok () else .error (.typeMismatch type.label v.type.label) := by
  obtain ⟨⟨id, hid⟩, -⟩ := h
  rw [Workspace.checkPending, hid]

/-- What is held is taken. -/
theorem take {v : Value} (h : w.Shows (some v)) :
    ∃ next, w.take v.type = .ok (.ok v.content, next) ∧ next.Shows none := by
  obtain ⟨rest, hpop, -⟩ := h.2.pop
  refine ⟨⟨rest, none⟩, ?_, rfl⟩
  rw [Workspace.take, h.checkPending_some]
  simp only [if_true, hpop]
  rfl

/-- What is held is looked at, and is then gone as well. -/
theorem look {v : Value} (h : w.Shows (some v)) :
    ∃ next, w.look v.type = .ok (.ok v.content, next) ∧ next.Shows none := by
  have hvalue : w.values.valueAt v.type 0 = .ok v.content := by
    have htop : w.values.Carries ([] ++ v :: []) := h.2
    exact htop.valueAt
  obtain ⟨next, hdiscard⟩ := h.ready.exists_discard
  refine ⟨next, ?_, pending_of_discard hdiscard⟩
  rw [Workspace.look, h.checkPending_some]
  simp only [if_true, hvalue, hdiscard]
  rfl

/-- Either way of asking for a result, which refuses it in the same cases and then leaves the
workspace as it is, is answered by the protocol. -/
theorem fetch (h : w.Shows held)
    {fetch : (type : ValueType) → Except Fault (Except EvaluationError type.Carrier × Workspace)}
    (hrefuses : ∀ type e, w.checkPending type = .error e → fetch type = .ok (.error e, w))
    (hfetches : ∀ v, held = some v →
      ∃ next, fetch v.type = .ok (.ok v.content, next) ∧ next.Shows none) (type : ValueType) :
    ∃ result next, fetch type = .ok (result, next) ∧ Answer.ofResult result = found held type ∧
      next.Shows (held.filter (·.type ≠ type)) := by
  cases held with
  | none => exact ⟨_, w, hrefuses type _ (h.checkPending_none type), rfl, h⟩
  | some v =>
    have hcheck := h.checkPending_some type
    by_cases htype : v.type = type
    · subst htype
      obtain ⟨next, hfetch, hnext⟩ := hfetches v rfl
      refine ⟨_, next, hfetch, ?_, by simpa [Option.filter_some] using hnext⟩
      rw [found, if_pos rfl, Answer.ofResult]
    · rw [if_neg htype] at hcheck
      refine ⟨_, w, hrefuses type _ hcheck, ?_, by simpa [Option.filter_some, htype] using h⟩
      rw [found, if_neg htype, Answer.ofResult]

/-- An evaluation puts the value of the tree in the place of what was held. -/
theorem evaluate (h : w.Shows held) {t : Tree} (hp : p.IsBuilt) (ht : t.Made p)
    (hcheck : t.check p = .ok ()) (context : C) :
    (∃ next, w.evaluate p t context = .ok next ∧ next.Shows (t.value? p context)) ∨
      w.evaluate p t context = .error .overflow ∧
        2 ^ 63 < t.values.size + 8 * t.size + 4096 := by
  obtain ⟨-, hempty | ⟨root, hspells⟩⟩ := Tree.check_eq_ok_iff.1 hcheck
  · obtain ⟨cleared, hdiscard⟩ := h.ready.exists_discard
    refine .inl ⟨⟨cleared.values.reset, none⟩, ?_, ?_⟩
    · rw [Workspace.evaluate, hdiscard, hempty]
      rfl
    · rw [Tree.value?_of_isEmpty (List.isEmpty_iff.2 hempty)]
      rfl
  · obtain ⟨term, v, hterm, -, hv, -, hresult⟩ :=
      evaluate_carries hp ht.sound hspells h.ready context
    refine hresult.imp_left ?_
    rintro ⟨values, hvalues, hcarries⟩
    refine ⟨_, hvalues, ?_⟩
    rw [Tree.value?, hterm, Option.bind_some, hv]
    exact ⟨⟨root, rfl⟩, hcarries⟩

/-- One request is answered by the protocol, and what is held then is what the protocol says. -/
theorem serve (h : w.Shows held) {r : Request} (hr : r.IsChecked) :
    (∃ next, w.serve r = .ok (r.answer held, next) ∧ next.Shows (r.leaves held)) ∨
      w.serve r = .error .overflow ∧ r.IsUnstorable := by
  cases r with
  | evaluate p t context =>
    obtain ⟨hp, ht, hcheck⟩ := hr
    rcases h.evaluate hp ht hcheck context with ⟨next, hnext, hshows⟩ | ⟨hrefused, hlarge⟩
    · exact .inl ⟨next, by rw [Workspace.serve, hnext]; rfl, hshows⟩
    · exact .inr ⟨by rw [Workspace.serve, hrefused]; rfl, hlarge⟩
  | take type =>
    obtain ⟨result, next, hfetch, hanswer, hnext⟩ :=
      h.fetch (fun type e he => by rw [Workspace.take, he]) (fun v hv => (hv ▸ h).take) type
    exact .inl ⟨next, by rw [Workspace.serve, hfetch, answer, ← hanswer]; rfl, hnext⟩
  | look type =>
    obtain ⟨result, next, hfetch, hanswer, hnext⟩ :=
      h.fetch (fun type e he => by rw [Workspace.look, he]) (fun v hv => (hv ▸ h).look) type
    exact .inl ⟨next, by rw [Workspace.serve, hfetch, answer, ← hanswer]; rfl, hnext⟩

end Shows

/-- All requests are answered as the protocol says. -/
def IsAnswered (rs : List Request) : Prop :=
  ∃ w, serveAll .empty rs = .ok (answers none rs, w)

theorem Shows.serveAll (h : w.Shows held) {rs : List Request} (hrs : ∀ r ∈ rs, r.IsChecked) :
    (∃ last, w.serveAll rs = .ok (answers held rs, last)) ∨
      w.serveAll rs = .error .overflow ∧ ∃ front r back, rs = front ++ r :: back ∧
        (∃ last, w.serveAll front = .ok (answers held front, last)) ∧ r.IsUnstorable := by
  induction rs generalizing w held with
  | nil => exact .inl ⟨w, rfl⟩
  | cons r rs ih =>
    obtain ⟨hr, hrs⟩ := List.forall_mem_cons.1 hrs
    rcases h.serve hr with ⟨next, hnext, hshows⟩ | ⟨hrefused, hlarge⟩
    · rcases ih hshows hrs with ⟨last, hlast⟩ | ⟨hfault, front, s, back, rfl, ⟨last, hlast⟩, hlarge⟩
      · refine .inl ⟨last, ?_⟩
        rw [Workspace.serveAll, hnext]
        simp only [bind, Except.bind, hlast]
        rfl
      · refine .inr ⟨?_, r :: front, s, back, rfl, ⟨last, ?_⟩, hlarge⟩
        · rw [Workspace.serveAll, hnext]
          simp only [bind, Except.bind, hfault]
        · rw [Workspace.serveAll, hnext]
          simp only [bind, Except.bind, hlast]
          rfl
    · refine .inr ⟨?_, [], r, rs, rfl, ⟨w, rfl⟩, hlarge⟩
      rw [Workspace.serveAll, hrefused]
      rfl

/-- What a workspace makes of some requests. -/
structure Follows (rs : List Request) : Prop where
  /-- Each request is answered as the protocol says, up to one that asks for too much storage. -/
  answered : IsAnswered rs ∨ serveAll .empty rs = .error .overflow ∧
    ∃ front r back, rs = front ++ r :: back ∧ IsAnswered front ∧ r.IsUnstorable
  /-- The value of a tree is of the type that the tree returns; an empty tree has none. -/
  values : ∀ {C : Type} (p : Palette C) t context, .evaluate p t context ∈ rs →
    if t.isEmpty then t.value? p context = none
    else ∃ root v, t.rootType? p = some root ∧ p.type? root = some v.type ∧
      t.value? p context = some v
  /-- A result is that of the tree which was evaluated last, unless its type was asked for since. -/
  latest : ∀ {C : Type} (p : Palette C) t context front since r type behind,
    rs = front ++ .evaluate p t context :: since ++ r :: behind →
    (∀ s ∈ since, s.type?.isSome) → r.type? = some type →
      (answers none rs)[front.length + 1 + since.length]? =
        some (found ((t.value? p context).filter fun v => ∀ s ∈ since, s.type? ≠ some v.type) type)

/-- A tree that passes its check has a value of the type that it returns, unless it is empty. -/
theorem value?_of_isChecked {t : Tree} {context : C} (h : (Request.evaluate p t context).IsChecked) :
    if t.isEmpty then t.value? p context = none
    else ∃ root v, t.rootType? p = some root ∧ p.type? root = some v.type ∧
      t.value? p context = some v := by
  obtain ⟨hp, ht, hcheck⟩ := h
  split
  · next hempty => exact Tree.value?_of_isEmpty hempty p context
  · next hempty =>
    obtain ⟨-, hnil | ⟨root, hspells⟩⟩ := Tree.check_eq_ok_iff.1 hcheck
    · exact absurd (List.isEmpty_iff.2 hnil) hempty
    · obtain ⟨term, v, hterm, -, hv, htype, -⟩ :=
        evaluate_carries hp ht.sound hspells Used.empty.ready context
      refine ⟨root, v, Tree.rootType?_eq hspells, htype, ?_⟩
      rw [Tree.value?, hterm, Option.bind_some, hv]

/-- Whatever trees are evaluated, and whenever results are asked for, in a workspace that is new at
first, the requests are answered by the protocol; the stack is never found broken. -/
theorem serveAll_answers {rs : List Request} (h : ∀ r ∈ rs, r.IsChecked) : Follows rs := by
  constructor
  case answered =>
    have hnew : Workspace.empty.Shows none := rfl
    exact hnew.serveAll h
  case values =>
    intro C p t context hmem
    exact value?_of_isChecked (h _ hmem)
  case latest =>
    intro C p t context front since r type behind hrs hsince htype
    have hheld : leavesAll none (front ++ .evaluate p t context :: since) =
        leavesAll (t.value? p context) since := by
      rw [leavesAll, List.foldl_append]
      rfl
    have hget := getElem?_answers none (front ++ .evaluate p t context :: since) r behind
    rw [hheld, leavesAll_of_type? hsince, answer_of_type? htype, List.length_append,
      List.length_cons] at hget
    rw [hrs, ← hget]
    congr 1
    omega

/-! ### Two palettes in turn -/

def caption : Operator Unit := ⟨none, .literal .text (pure "four")⟩

def captions : Palette Unit := ⟨⟨[.text]⟩, [⟨caption, 0, []⟩], [0], none⟩

/-- A text alone. -/
def four : Tree := ⟨[⟨0, 8, ⟨true, true⟩⟩], Stack.empty.push .text "four"⟩

theorem isBuilt_captions : captions.IsBuilt := ⟨[caption], none, rfl⟩

theorem made_four : four.Made captions := by
  have hpush : Tree.pushLiteral captions .empty 0 ⟨.text, "four"⟩ = .ok (.ok four) := rfl
  exact .pushLiteral .empty hpush

/-- A number is asked for as a text and then taken; of a text, which nobody asks for, nothing is
left behind an empty tree. -/
def session : List Request :=
  [.evaluate scaling difference 10, .look .text, .take .uint64, .take .uint64,
    .evaluate captions four (), .evaluate scaling .empty 10, .look .text]

theorem serveAll_answers_session : (∀ r ∈ session, r.IsChecked) ∧ Follows session := by
  have hchecked : ∀ r ∈ session, r.IsChecked := by
    intro r hr
    simp only [session, List.mem_cons, List.not_mem_nil, or_false] at hr
    rcases hr with rfl | rfl | rfl | rfl | rfl | rfl | rfl
    case inl => exact ⟨isBuilt_scaling, made_difference, rfl⟩
    case inr.inr.inr.inr.inl => exact ⟨isBuilt_captions, made_four, rfl⟩
    case inr.inr.inr.inr.inr.inl => exact ⟨isBuilt_scaling, .empty, rfl⟩
    all_goals trivial
  exact ⟨hchecked, serveAll_answers hchecked⟩

example : answers none session = [.done, .refused (.typeMismatch "alloc::string::String" "u64"),
    .value ⟨.uint64, (20 : UInt64)⟩, .refused .empty, .done, .done, .refused .empty] := by
  rfl

end Workspace

end GeneticProgramming
