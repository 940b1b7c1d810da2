import GeneticProgramming.Proofs.Run.Lineage
import GeneticProgramming.Proofs.Stream.Difference

/-!
# Names that are too long

Names of any length are written, but a reader takes none beyond `Description.longestName`.  A
palette with a longer name refuses its own schema, and so the states that its own runs saved; all
other palettes accept theirs: `Run.loadState_legible`.
-/

namespace GeneticProgramming

open Reader Palette

variable {C : Type} {p : Palette C}

/-! ## Schemas -/

namespace Palette

/-- No name is longer than a reader takes. -/
def IsLegible (p : Palette C) : Prop :=
  ∀ (id : OperatorId) e, p.entry? id = some e → (Description.ofEntry id e).IsLegible

/-- A palette that could be held in memory, with no more operators and arguments than the types
that count them can tell. -/
structure Countable (p : Palette C) : Prop where
  memory : p.Addressable
  size : p.size ≤ 2 ^ 32
  arities : ∀ e ∈ p.entries, e.arity < 2 ^ 16

/-- Portable palettes are the legible ones, as far as palettes can be counted at all. -/
theorem portable_iff (hp : p.IsBuilt) : p.Portable ↔ p.Countable ∧ p.IsLegible := by
  constructor
  · intro hport
    refine ⟨⟨hport.addressable hp, hport.size, hport.arities⟩, fun id e he => ?_⟩
    exact hport.names e (List.mem_of_getElem? he)
  · rintro ⟨hcount, hlegible⟩
    refine ⟨fun e he => ?_, hcount.size, hcount.arities⟩
    obtain ⟨id, hid⟩ := List.mem_iff_getElem?.1 he
    exact hlegible id e hid

/-- The first operator whose name is longer than a reader takes. -/
structure FirstLong (p : Palette C) (id : OperatorId) (name : String) : Prop where
  found : ∃ e, p.entry? id = some e ∧ e.operator.name = some name
  long : Description.longestName < name.utf8ByteSize
  before : ∀ i < id, ∀ e, p.entry? i = some e → (Description.ofEntry i e).IsLegible

theorem exists_firstLong (h : ¬ p.IsLegible) : ∃ id name, p.FirstLong id name := by
  classical
  unfold IsLegible at h
  push Not at h
  obtain ⟨e, he, hname⟩ := Nat.find_spec h
  unfold Description.IsLegible at hname
  push Not at hname
  obtain ⟨name, hname, hsize⟩ := hname
  refine ⟨Nat.find h, name, ⟨e, he, hname⟩, hsize, ?_⟩
  intro i hi e' he'
  by_contra hno
  exact Nat.find_min h hi ⟨e', he', hno⟩

/-- The name is refused when all before it has been accepted. -/
theorem FirstLong.refused (hp : p.IsBuilt) (hcount : p.Countable) {id : OperatorId} {name : String}
    (h : p.FirstLong id name) (rest : Bytes) :
    p.readSchema (p.schemaBytes ++ rest) = .error (.invalidName id none none) := by
  obtain ⟨e, he, hname⟩ := h.found
  have hbound : id < p.size := (List.getElem?_eq_some_iff.1 he).1
  have hsize : p.size < 2 ^ 64 := Nat.lt_of_le_of_lt hcount.size (by decide)
  have hbefore : List.Forall₂ (fun d own => d.Fits ∧ d.compare own = .ok ()) (p.schema.take id)
      (p.schema.take id) := by
    refine List.forall₂_same.2 fun d hmem => ?_
    obtain ⟨i, hi, rfl⟩ := List.mem_take_iff_getElem.1 hmem
    obtain ⟨hi, hbound⟩ := lt_min_iff.1 hi
    obtain ⟨f, hf⟩ := exists_entry (Nat.lt_of_lt_of_eq hbound p.length_schema)
    obtain ⟨_, hown⟩ := exists_schema_eq hf
    rw [hown]
    refine ⟨fits_ofEntry hp hcount.size hf ?_ (h.before i hi f hf), Description.compare_self rfl⟩
    exact hcount.arities f (List.mem_of_getElem? hf)
  have hmem : Description.ofEntry id e ∈ p.schema := by
    obtain ⟨hlt, hd⟩ := exists_schema_eq he
    exact hd ▸ List.getElem_mem hlt
  have hname : (Description.ofEntry id e).name = some name := hname
  have hread := Description.read_long hname h.long ((hcount.memory.operators _ hmem).name _ hname)
  rw [readSchema_reaches hsize rfl he he hbefore, compareAll]
  change Except.bind _ _ = _
  rw [hread, Description.ofEntry, Nat.mod_eq_of_lt (Nat.lt_trans hbound hsize)]
  rfl

end Palette

/-! ## States -/

namespace Run

variable {source target : Run C} {bytes : Bytes}

/-- A state is refused with its schema. -/
theorem Saves.loadState_error (h : source.Saves bytes) (hsource : source.palette = p)
    (hpalette : target.palette = p) {e : StreamError}
    (hrefused : ∀ rest, p.readSchema (p.schemaBytes ++ rest) = .error e) :
    target.loadState bytes = .error e := by
  rw [h.bytes_eq, hsource, SavedState.toBytes, List.append_assoc, List.append_assoc, loadState,
    hpalette, StateT.run, SavedState.read]
  change Except.bind (Except.bind _ _) _ = _
  rw [hrefused]
  rfl

/-- A palette without too long names accepts its own schema, and its runs load the states that any
of them saved.  All other palettes refuse the first too long name in their own schema, and in all
states that their runs saved. -/
theorem loadState_legible (hp : p.IsBuilt) (hcount : p.Countable) :
    (p.IsLegible →
      (∀ rest, p.readSchema (p.schemaBytes ++ rest) = .ok ((), rest)) ∧
      ∀ objective May source bytes, Lineage p objective May source → source.Saves bytes →
        ∀ target : Run C, target.palette = p →
          target.loadState bytes = .ok (target.resume source.repacked)) ∧
    (∀ id name, p.FirstLong id name →
      (∀ rest, p.readSchema (p.schemaBytes ++ rest) = .error (.invalidName id none none)) ∧
      ∀ objective May source bytes, Lineage p objective May source → source.Saves bytes →
        ∀ target : Run C, target.palette = p →
          target.loadState bytes = .error (.invalidName id none none)) ∧
    (p.IsLegible ∨ ∃ id name, p.FirstLong id name) := by
  have htyped {objective May} {source : Run C} (h : Lineage p objective May source) :
      source.IsTyped p := h.isTyped hp hcount.memory hcount.size
  refine ⟨fun hlegible => ⟨?accepted, ?loaded⟩, fun id name hlong => ⟨?refused, ?kept⟩, ?all⟩
  case accepted => exact schema_reads hp ((portable_iff hp).2 ⟨hcount, hlegible⟩)
  case loaded =>
    intro objective May source bytes hlineage hsaves target hpalette
    exact hsaves.loadState_eq hp ((portable_iff hp).2 ⟨hcount, hlegible⟩) (htyped hlineage) hpalette
  case refused => exact hlong.refused hp hcount
  case kept =>
    intro objective May source bytes hlineage hsaves target hpalette
    exact hsaves.loadState_error (htyped hlineage).palette hpalette (hlong.refused hp hcount)
  case all =>
    by_cases hlegible : p.IsLegible
    · exact .inl hlegible
    · exact .inr (exists_firstLong hlegible)

end Run

/-! ### A long name -/

theorem utf8ByteSize_replicate (c : Char) (n : Nat) :
    (String.ofList (List.replicate n c)).utf8ByteSize = n * c.utf8Size := by
  induction n with
  | zero =>
    rw [Nat.zero_mul]
    rfl
  | succ n ih =>
    rw [List.replicate_succ', String.ofList_append, String.utf8ByteSize_append, ih, Nat.succ_mul]
    exact congrArg _ String.utf8ByteSize_singleton

namespace Palette

/-- A name with one letter more than a reader takes. -/
def longName : String := .ofList (List.replicate (Description.longestName + 1) 'a')

def longNamed : Palette Unit :=
  ⟨⟨[.uint8]⟩, [⟨⟨some longName, .literal .uint8 (pure 97)⟩, 0, []⟩], [0], none⟩

theorem utf8ByteSize_longName : longName.utf8ByteSize = Description.longestName + 1 :=
  utf8ByteSize_replicate 'a' _

theorem isBuilt_longNamed : longNamed.IsBuilt :=
  ⟨longNamed.entries.map Entry.operator, none, rfl⟩

theorem countable_longNamed : longNamed.Countable := by
  refine ⟨⟨by decide, ?_⟩, by decide, ?_⟩
  · intro d hd
    obtain rfl := List.mem_singleton.1 hd
    refine ⟨fun name hname => ?_, by decide⟩
    injection hname with hname
    rw [← hname, utf8ByteSize_longName]
    decide
  · intro e he
    obtain rfl := List.mem_singleton.1 he
    decide

theorem firstLong_longNamed : longNamed.FirstLong 0 longName := by
  refine ⟨⟨_, rfl, rfl⟩, ?_, nofun⟩
  rw [utf8ByteSize_longName]
  exact Nat.lt_succ_self _

/-- Not each palette accepts its own schema. -/
theorem longNamed_refused : ¬ ∀ p : Palette Unit, p.IsBuilt → p.Countable →
    ∀ rest, p.readSchema (p.schemaBytes ++ rest) = .ok ((), rest) := by
  intro h
  have haccepted := h longNamed isBuilt_longNamed countable_longNamed []
  rw [firstLong_longNamed.refused isBuilt_longNamed countable_longNamed] at haccepted
  contradiction

end Palette

/-- One palette accepts its own schema, and another one refuses each state that its runs saved. -/
theorem Run.loadState_legible_longNamed :
    (coins.IsBuilt ∧ coins.Countable ∧ coins.IsLegible ∧
      ∀ rest, coins.readSchema (coins.schemaBytes ++ rest) = .ok ((), rest)) ∧
    longNamed.IsBuilt ∧ longNamed.Countable ∧
    (∀ rest, longNamed.readSchema (longNamed.schemaBytes ++ rest) =
      .error (.invalidName 0 none none)) ∧
    ∀ objective May source bytes, Lineage longNamed objective May source → source.Saves bytes →
      ∀ target : Run Unit, target.palette = longNamed →
        target.loadState bytes = .error (.invalidName 0 none none) := by
  obtain ⟨hcount, hlegible⟩ := (portable_iff isBuilt_coins).1 portable_coins
  have haccepted := (loadState_legible isBuilt_coins hcount).1 hlegible
  have hrefused := loadState_legible isBuilt_longNamed countable_longNamed
  exact ⟨⟨isBuilt_coins, hcount, hlegible, haccepted.1⟩, isBuilt_longNamed, countable_longNamed,
    hrefused.2.1 0 longName firstLong_longNamed⟩

end GeneticProgramming
