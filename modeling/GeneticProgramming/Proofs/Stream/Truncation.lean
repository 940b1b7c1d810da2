import GeneticProgramming.Proofs.Stream.Exact
import GeneticProgramming.Proofs.Stream.Taking

/-!
# Streams that end too early

A reader takes bytes strictly one after another, and what it has taken decides how it goes on.  So a
reader that finds a value in some bytes refuses each stream that breaks off within these bytes, at
the very byte that is missing: `Reader.Needs` says this of one reader and its bytes, and
`Reader.IsExact` that it holds of whatever the reader accepts.  States, generations and trees are
read by exact readers.
-/

namespace GeneticProgramming

namespace Reader

variable {α β : Type} {r : Reader α} {f : α → Reader β} {bs cs : Bytes} {a : α} {b : β}

/-- A value is read from the bytes, and from no fewer of them: short of any, the stream ends too
early. -/
structure Needs (r : Reader α) (bs : Bytes) (a : α) : Prop where
  reads : Reads r bs a
  starves : ∀ n < bs.length, r (bs.take n) = .error .shortRead

namespace Needs

theorem pure (a : α) : Needs (pure a) [] a :=
  ⟨.pure a, fun _ hn => absurd hn (Nat.not_lt_zero _)⟩

/-- A cut falls into the bytes of the first reader, or into those of the second one behind them. -/
theorem bind (hr : Needs r bs a) (hf : Needs (f a) cs b) : Needs (r >>= f) (bs ++ cs) b := by
  refine ⟨hr.reads.bind hf.reads, fun n hn => ?_⟩
  by_cases hfirst : n < bs.length
  · rw [List.take_append_of_le_length (Nat.le_of_lt hfirst)]
    exact bind_apply_of_error (hr.starves n hfirst)
  · obtain ⟨m, rfl⟩ := Nat.exists_eq_add_of_le (Nat.le_of_not_lt hfirst)
    rw [List.length_append] at hn
    rw [List.take_length_add_append, hr.reads.bind_eq]
    exact hf.starves m (Nat.lt_of_add_lt_add_left hn)

/-- A check that holds is passed, however short the stream is. -/
theorem past {c : Prop} [Decidable c] {e : StreamError} {k : α → Reader β} {s : Reader β}
    (hc : ¬ c) (hs : Needs s bs b) : Needs (if c then throw e >>= k else s) bs b := by
  rw [if_neg hc]
  exact hs

end Needs

/-- A reader needs all that it takes. -/
def IsExact (r : Reader α) : Prop := Takes r (Needs r)

namespace IsExact

theorem pure (a : α) : IsExact (pure a : Reader α) := Takes.pure (Needs.pure a)

theorem throw (e : StreamError) : IsExact (throw e : Reader α) := Takes.throw e

theorem bind (hr : IsExact r) (hf : ∀ a, IsExact (f a)) : IsExact (r >>= f) :=
  Takes.bind hr fun _ a ha => (hf a).mono fun _ _ hb => ha.bind hb

theorem past {c : Prop} [Decidable c] {e : StreamError} {k : β → Reader α}
    (hr : IsExact r) : IsExact (if c then (MonadExcept.throw e : Reader β) >>= k else r) :=
  Takes.past fun hc => hr.mono fun _ _ ha => Needs.past hc ha

theorem ite {c : Prop} [Decidable c] {s : Reader α} (hr : IsExact r) (hs : IsExact s) :
    IsExact (if c then r else s) := by
  split
  · exact hr
  · exact hs

/-- What needs no stream is exact. -/
theorem lift (x : Except StreamError α) : IsExact (liftM x : Reader α) := by
  cases x with
  | ok a => exact .pure a
  | error e => exact .throw e

/-- Of the bytes that are found, each strict part is refused. -/
theorem starves (hr : IsExact r) (hread : Reads r bs a) :
    ∀ n < bs.length, r (bs.take n) = .error .shortRead := by
  obtain ⟨front, hbs, hneeds⟩ := hr _ a [] (hread [])
  rw [List.append_nil, List.append_nil] at hbs
  exact hbs ▸ hneeds.starves

end IsExact

/-! ## Numbers and lists -/

theorem split_eq_none {n : Nat} (h : bs.length < n) : split n bs = none := by
  induction n generalizing bs with
  | zero => exact absurd h (Nat.not_lt_zero _)
  | succ n ih =>
    cases bs with
    | nil => rfl
    | cons b bs => rw [split, ih (Nat.lt_of_succ_lt_succ h), Option.map_none]

theorem take_isExact (n : Nat) : IsExact (take n) := by
  refine (take_takes n).mono fun bs a ha => ?_
  obtain ⟨rfl, hlen⟩ := ha
  refine ⟨take_reads hlen, fun m hm => ?_⟩
  rw [take, split_eq_none]
  rw [List.length_take, ← hlen]
  exact Nat.lt_of_le_of_lt (Nat.min_le_left _ _) hm

theorem byte_isExact : IsExact byte := .bind (take_isExact 1) fun _ => .pure _

theorem word_isExact : IsExact word := .bind (take_isExact 8) fun _ => .pure _

theorem nat_isExact : IsExact nat := .bind word_isExact fun _ => .pure _

theorem nat16_isExact : IsExact nat16 := .bind (take_isExact 2) fun _ => .pure _

theorem double_isExact : IsExact double := .bind word_isExact fun _ => .pure _

theorem times_isExact (hr : IsExact r) (n : Nat) : IsExact (times r n) := by
  induction n with
  | zero => exact .pure []
  | succ n ih => exact .bind hr fun x => .bind ih fun xs => .pure _

theorem list_isExact (hr : IsExact r) : IsExact (list r) := .bind nat_isExact (times_isExact hr)

end Reader

open Reader

/-! ## Schemas -/

namespace Description

theorem readName_isExact (id : Nat) : IsExact (readName id) := by
  refine .bind byte_isExact fun mark => .ite (.pure none) ?_
  refine .bind nat_isExact fun length => .past (.bind (take_isExact length) fun bytes => ?_)
  split
  · exact .pure _
  · exact .throw _

theorem read_isExact : IsExact read := by
  refine .bind nat_isExact fun id => .bind (readName_isExact id) fun name => ?_
  refine .bind nat_isExact fun argumentBytes => .bind nat_isExact fun returnBytes => ?_
  refine .bind nat16_isExact fun arity => .bind nat16_isExact fun contextArity => ?_
  exact .bind nat_isExact fun returns => .bind (list_isExact nat_isExact) fun arguments => .pure _

end Description

variable {C : Type} (p : Palette C)

theorem Palette.compareAll_isExact (ds : List Description) : IsExact (compareAll ds) := by
  induction ds with
  | nil => exact .pure ()
  | cons own ds ih =>
    exact .bind Description.read_isExact fun found => .bind (.lift (found.compare own)) fun _ => ih

theorem Palette.readSchema_isExact : IsExact p.readSchema :=
  .bind nat_isExact fun _ => .past (compareAll_isExact p.schema)

/-! ## Trees -/

namespace Tree

theorem readRecord_isExact (index : Nat) : IsExact (readRecord p index) := by
  refine .bind nat16_isExact fun size => .bind nat_isExact fun id => .bind byte_isExact fun b => ?_
  dsimp only
  split
  · exact .throw _
  · exact .past (.past (.past (.pure _)))

theorem readRecords_isExact (index n : Nat) : IsExact (readRecords p index n) := by
  induction n generalizing index with
  | zero => exact .pure []
  | succ n ih =>
    exact .bind (readRecord_isExact p index) fun r => .bind (ih (index + 1)) fun rs => .pure _

theorem read_isExact : IsExact (read p) := by
  refine .bind nat_isExact fun count => .bind (readRecords_isExact p 0 count) fun records => ?_
  refine .bind nat_isExact fun found => .past (.bind (take_isExact _) fun bytes => ?_)
  dsimp only
  split
  · exact .pure _
  · exact .throw _

end Tree

/-! ## States and generations -/

theorem Fitness.read_isExact : IsExact read := by
  refine .bind double_isExact fun raw => .bind double_isExact fun standardized => ?_
  exact .bind double_isExact fun adjusted => .bind word_isExact fun hits => .pure _

theorem Statistics.read_isExact : IsExact read := by
  refine .bind double_isExact fun best => .bind double_isExact fun worst => ?_
  refine .bind double_isExact fun average => .bind double_isExact fun overall => ?_
  exact .bind (list_isExact double_isExact) fun normalized => .pure _

theorem Individual.read_isExact : IsExact (read p) :=
  .bind Fitness.read_isExact fun _ => .bind (Tree.read_isExact p) fun _ => .pure _

theorem Population.read_isExact : IsExact (read p) := list_isExact (Individual.read_isExact p)

theorem SavedState.read_isExact : IsExact (read p) := by
  refine .bind (Palette.readSchema_isExact p) fun _ => ?_
  refine .bind (list_isExact Statistics.read_isExact) fun history => ?_
  exact .bind Statistics.read_isExact fun stats => .bind (Population.read_isExact p) fun _ => .pure _

end GeneticProgramming
