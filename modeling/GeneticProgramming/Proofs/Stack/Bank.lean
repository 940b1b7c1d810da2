import GeneticProgramming.Proofs.Stack.Operands
import Mathlib.Logic.Function.Basic

/-!
# Banks of stacks

Stacks that commands move values between, and the flat lists of stored values that stand for them.
A flat list knows no pages: pushing puts a value in front, dropping takes values off, and a range in
the middle gives way to others.  `Flat.Step` says this of each command, with the error that answers
a request for more than there is.  The main statement, `Bank.run_refines`, says that a bank that is
commanded in any way, as long as runs of bytes end where values end and no value is of a type that
has to stand at multiples of more than eight bytes, does what the flat lists do, and that each value
can then be read in place.  It has one exception: a request that no memory can meet ends the
computation, and a transfer asks for its block before it is known whether there are as many bytes.
-/

namespace GeneticProgramming

/-! ## Commands -/

inductive Command where
  | push (i : Nat) (v : Value)
  | pop (i : Nat) (t : ValueType)
  /-- Pushes the cells of some stored values as one run. -/
  | copyFrom (i : Nat) (slots : List Slot)
  | popBytes (i bytes : Nat)
  | transferBytes (i j bytes : Nat)
  /-- Replaces words by the cells of some stored values. -/
  | splice (i start removed : Nat) (slots : List Slot)
  | reserve (i bytes : Nat)
  | reset (i : Nat)
  /-- Makes the second stack a copy of the first. -/
  | duplicate (i j : Nat)

/-- Values on a stack stand at multiples of eight bytes, so each value of a command has to be of a
type that asks for no more. -/
def Command.IsAligned : Command → Prop
  | .push _ v => v.type.alignment ≤ 8
  | .pop _ t => t.alignment ≤ 8
  | .copyFrom _ slots => ∀ slot ∈ slots, slot.value.type.alignment ≤ 8
  | .splice _ _ _ slots => ∀ slot ∈ slots, slot.value.type.alignment ≤ 8
  | _ => True

inductive Reply where
  | done
  | value (v : Value)
  | refused (e : StackError)

def Reply.ofResult {α : Type} (success : α → Reply) : Except StackError α → Reply
  | .ok x => success x
  | .error e => .refused e

/-- Stacks by their numbers. -/
abbrev Bank := Nat → Stack

namespace Bank

def exec (b : Bank) : Command → Except Fault (Reply × Bank)
  | .push i v => .ok (.done, Function.update b i ((b i).push v.type v.content))
  | .pop i t =>
    let (result, s) := (b i).pop t
    .ok (.ofResult (fun x => .value ⟨t, x⟩) result, Function.update b i s)
  | .copyFrom i slots => .ok (.done, Function.update b i ((b i).pushRun (Slot.runs slots).flatten))
  | .popBytes i bytes =>
    let (result, s) := (b i).popBytes bytes
    .ok (.ofResult (fun _ => .done) result, Function.update b i s)
  | .transferBytes i j bytes => do
    let (result, s, t) ← (b i).transferBytes (b j) bytes
    return (.ofResult (fun _ => .done) result, Function.update (Function.update b i s) j t)
  | .splice i start removed slots => do
    Stack.checkRange (8 * start) (8 * removed)
    let (result, s) := (b i).splice start removed (Slot.runs slots).flatten
    return (.ofResult (fun _ => .done) result, Function.update b i s)
  | .reserve i bytes => do return (.done, Function.update b i (← (b i).reserve bytes))
  | .reset i => .ok (.done, Function.update b i (b i).reset)
  | .duplicate i j => .ok (.done, Function.update b j (b i).duplicate)

/-- Carries out commands one after another. -/
def run (b : Bank) : List Command → Except Fault (List Reply × Bank)
  | [] => .ok ([], b)
  | c :: cs => do
    let (reply, next) ← b.exec c
    let (replies, last) ← next.run cs
    return (reply :: replies, last)

/-- Stacks that nothing was pushed onto yet, some of them with room set aside. -/
def IsNew (b : Bank) : Prop := ∀ i, b i = .empty ∨ ∃ bytes, Stack.withCapacity bytes = .ok (b i)

end Bank

/-! ## Flat lists -/

namespace Slot

/-- The words of some stored values. -/
def words (slots : List Slot) : Nat := (runs slots).flatten.length

/-- The bytes of some stored values, the oldest first. -/
def bytes (slots : List Slot) : List UInt8 := (runs slots).flatten.flatMap Cell.bytes

/-- Puts stored values in front of others; those without cells leave no trace. -/
def put (slots below : List Slot) : List Slot := slots.filter (·.run ≠ []) ++ below

theorem flatten_runs_singleton (slot : Slot) : (runs [slot]).flatten = slot.run := by
  simp [runs]

@[simp] theorem words_append (newer slots : List Slot) :
    words (newer ++ slots) = words slots + words newer := by
  simp [words]

end Slot

/-- The values that each stack of a bank should hold, the newest first. -/
abbrev Flat := Nat → List Slot

namespace Flat

/-- What a command makes of flat lists, and how it is answered.  A value that is pushed takes cells of
its own, but what stands behind it in the last one is left open. -/
inductive Step (f : Flat) : Command → Reply → Flat → Prop where
  | push (i : Nat) (v : Value) (before : List UInt64) :
      Step f (.push i v) .done
        (Function.update f i (Slot.put [Slot.ofValue v.type v.content before] (f i)))
  | pop {i : Nat} {slot : Slot} {rest : List Slot} : f i = slot :: rest →
      Step f (.pop i slot.value.type) (.value slot.value) (Function.update f i rest)
  /-- A value without cells is popped off anything. -/
  | popNothing (i : Nat) {t : ValueType} : t.words = 0 → Step f (.pop i t) (.value ⟨t, t.load []⟩) f
  | popEmpty {i : Nat} {t : ValueType} : f i = [] → t.words ≠ 0 →
      Step f (.pop i t) (.refused (.underflow t.size 0)) f
  | copyFrom (i : Nat) (slots : List Slot) :
      Step f (.copyFrom i slots) .done (Function.update f i (Slot.put slots (f i)))
  | popBytes {i : Nat} {newer older : List Slot} : f i = newer ++ older →
      Step f (.popBytes i (8 * Slot.words newer)) .done (Function.update f i older)
  | popTooMany {i bytes : Nat} : 8 * Slot.words (f i) < bytes →
      Step f (.popBytes i bytes) (.refused (.underflow bytes (8 * Slot.words (f i)))) f
  | transfer {i j : Nat} {newer older : List Slot} : i ≠ j → f i = newer ++ older →
      Step f (.transferBytes i j (8 * Slot.words newer)) .done
        (Function.update (Function.update f i older) j (newer ++ f j))
  | transferTooMany {i j bytes : Nat} : i ≠ j → 8 * Slot.words (f i) < bytes →
      Step f (.transferBytes i j bytes) (.refused (.underflow bytes (8 * Slot.words (f i)))) f
  | splice {i : Nat} {newer removed older : List Slot} (slots : List Slot) :
      f i = newer ++ removed ++ older →
      Step f (.splice i (Slot.words older) (Slot.words removed) slots) .done
        (Function.update f i (newer ++ Slot.put slots older))
  | spliceBeyond {i start removed : Nat} (slots : List Slot) :
      Slot.words (f i) < start + removed → Step f (.splice i start removed slots)
        (.refused (.outOfRange (8 * start) (8 * removed) (8 * Slot.words (f i)))) f
  | reserve (i bytes : Nat) : Step f (.reserve i bytes) .done f
  | reset (i : Nat) : Step f (.reset i) .done (Function.update f i [])
  | duplicate (i j : Nat) : Step f (.duplicate i j) .done (Function.update f j (f i))

/-- Whether commands only cut runs of bytes where values end, only pop what was pushed, and only
have to do with values that may stand where a stack puts them. -/
def Admits : Flat → List Command → Prop
  | _, [] => True
  | f, c :: cs => c.IsAligned ∧ (∃ reply f', f.Step c reply f') ∧
      ∀ reply f', f.Step c reply f' → Admits f' cs

/-- What commands make of flat lists, and how they are answered. -/
inductive Run : Flat → List Command → List Reply → Flat → Prop where
  | nil (f : Flat) : Run f [] [] f
  | cons {f f' f'' : Flat} {c : Command} {cs : List Command} {reply : Reply}
      {replies : List Reply} : f.Step c reply f' → Run f' cs replies f'' →
      Run f (c :: cs) (reply :: replies) f''

end Flat

/-! ## Refinement -/

namespace Stack

/-- The stored values that a stack holds, the newest first, each in one piece. -/
def Stores (s : Stack) (slots : List Slot) : Prop := s.Holds (Slot.runs slots)

/-- A stored value can be read where it lies. -/
structure ReadsAt (s : Stack) (slot : Slot) (offset : Nat) : Prop where
  locate : ∃ place, s.locateBack offset slot.value.type.size = .ok place
  value : s.valueAt slot.value.type offset = .ok slot.value.content
  bytes : s.bytesAt offset slot.value.type.size = .ok (slot.run.flatMap Cell.bytes)

namespace Stores

variable {s s' t : Stack} {slots newer removed older : List Slot} {slot : Slot}

theorem words_eq (h : s.Stores slots) : s.words = Slot.words slots := Holds.words_eq h

theorem size_eq (h : s.Stores slots) : s.size = 8 * Slot.words slots := by
  rw [size, h.words_eq]

theorem bytes_eq (h : s.Stores slots) : s.contents.flatMap Cell.bytes = Slot.bytes slots := by
  rw [h.contents, Slot.bytes]

theorem flatten_filter (slots : List Slot) :
    (Slot.runs (slots.filter (·.run ≠ []))).flatten = (Slot.runs slots).flatten := by
  induction slots with
  | nil => rfl
  | cons slot slots ih =>
    rw [List.filter_cons]
    split
    · rw [Slot.runs_cons, Slot.runs_cons, List.flatten_append, List.flatten_append, ih]
    · next hrun =>
      have hnil : slot.run = [] := by simpa using hrun
      rw [Slot.runs_cons, List.flatten_append, hnil, ih]
      simp

theorem pushRun (h : s.Stores older) (slots : List Slot) :
    (s.pushRun (Slot.runs slots).flatten).Stores (Slot.put slots older) := by
  have hrun := Holds.pushRun h (Slot.runs slots).flatten
  rw [← flatten_filter, ← List.append_nil (_ ++ _)] at hrun
  have hpieces := hrun.refine
  rwa [List.append_nil, flatten_filter, ← Slot.runs_append] at hpieces

theorem push (h : s.Stores slots) (v : Value) : ∃ before,
    (s.push v.type v.content).Stores
      (Slot.put [Slot.ofValue v.type v.content before] slots) := by
  have hpush := h.pushRun [Slot.ofValue v.type v.content (s.landing v.type.words).stale]
  rw [Slot.flatten_runs_singleton] at hpush
  exact ⟨_, hpush⟩

/-- The newest values are dropped together. -/
theorem drop (h : s.Stores (newer ++ older)) :
    ∃ t, s.drop (Slot.words newer) = .ok t ∧ t.Stores older := by
  rw [Stores, Slot.runs_append] at h
  exact Holds.drop h

theorem popBytes (h : s.Stores (newer ++ older)) :
    ∃ t, s.popBytes (8 * Slot.words newer) = (.ok (), t) ∧ t.Stores older := by
  obtain ⟨t, ht, hstores⟩ := h.drop
  refine ⟨t, ?_, hstores⟩
  have hsize := h.size_eq
  rw [Slot.words_append] at hsize
  rw [Stack.popBytes, if_neg (by omega), Nat.mul_div_cancel_left _ (by decide),
    dropFrom_of_drop ht]

theorem popBytes_eq_error {bytes : Nat} (h : s.Stores slots) (hlt : 8 * Slot.words slots < bytes) :
    s.popBytes bytes = (.error (.underflow bytes (8 * Slot.words slots)), s) := by
  rw [Stack.popBytes, h.size_eq, if_pos hlt]

theorem moveBytes (h : s.Stores (newer ++ older)) (ht : t.Stores slots) :
    ∃ s' t', s.moveBytes t (8 * Slot.words newer) = (.ok (), s', t') ∧ s'.Stores older ∧
      t'.Holds (Slot.runs slots ++ Slot.runs newer) := by
  obtain ⟨s', hs', hstores⟩ := h.drop
  have hsize := h.size_eq
  have hwords := h.words_eq
  rw [Slot.words_append] at hsize hwords
  have hnewest : s.contents.drop (s.words - Slot.words newer) = (Slot.runs newer).flatten := by
    rw [Holds.contents h, Slot.runs_append, List.flatten_append, hwords, Nat.add_sub_cancel]
    exact List.drop_left' rfl
  refine ⟨s', t.pushRun (Slot.runs newer).flatten, ?_, hstores, ?_⟩
  · rw [Stack.moveBytes, if_neg (by omega), Nat.mul_div_cancel_left _ (by decide), hnewest,
      dropFrom_of_drop hs']
  · have hrun := Holds.pushRun ht (Slot.runs newer).flatten
    rw [← List.append_nil (_ ++ _)] at hrun
    simpa using hrun.refine

theorem moveBytes_eq_error {bytes : Nat} (h : s.Stores slots)
    (hlt : 8 * Slot.words slots < bytes) (t : Stack) :
    s.moveBytes t bytes = (.error (.underflow bytes (8 * Slot.words slots)), s, t) := by
  rw [Stack.moveBytes, h.size_eq, if_pos hlt]

/-- Values in the middle give way to others. -/
theorem splice (h : s.Stores (newer ++ removed ++ older)) (slots : List Slot) :
    ∃ t, s.splice (Slot.words older) (Slot.words removed) (Slot.runs slots).flatten = (.ok (), t) ∧
      t.Stores (newer ++ Slot.put slots older) := by
  rw [Stores, Slot.runs_append, Slot.runs_append, ← List.append_assoc] at h
  obtain ⟨t, ht, hholds⟩ := Holds.splice h (Slot.runs (slots.filter (·.run ≠ [])))
  rw [flatten_filter] at ht
  refine ⟨t, ht, ?_⟩
  rwa [Stores, Slot.put, Slot.runs_append, Slot.runs_append]

theorem splice_eq_error {start count : Nat} (h : s.Stores slots)
    (hlt : Slot.words slots < start + count) (run : List Cell) :
    s.splice start count run =
      (.error (.outOfRange (8 * start) (8 * count) (8 * Slot.words slots)), s) := by
  have hwords := h.words_eq
  rw [Stack.splice, h.size_eq, hwords, if_pos hlt]

/-! ### Values in place -/

theorem readsAt (h : s.Stores (newer ++ slot :: older)) :
    s.ReadsAt slot (8 * Slot.words newer) := by
  rw [Stores, Slot.runs_append, Slot.runs_cons] at h
  obtain ⟨place, hplace, hbelow, hrun⟩ := Holds.locateBack h
  have hsize : 8 * slot.run.length = slot.value.type.size := by
    rw [slot.length_run, ValueType.size_eq]
  rw [hsize] at hplace
  refine ⟨⟨place, hplace⟩, ?_, ?_⟩
  · have hread := Holds.runAt h
    rw [slot.length_run] at hread
    rw [valueAt, Slot.words, hread]
    exact congrArg Except.ok slot.load_run
  · have height : place.below = 8 * (place.below / 8) := by omega
    rw [bytesAt, Slot.words, hplace]
    change Except.ok ((place.page.bytes.drop place.below).take _) = _
    rw [Page.bytes, height, Cell.drop_flatMap_bytes, ← hsize, Cell.take_flatMap_bytes, hrun]

/-- The newest value can be popped. -/
theorem pop (h : s.Stores (slot :: older)) :
    ∃ t, s.pop slot.value.type = (.ok slot.value.content, t) ∧ t.Stores older := by
  have htop : s.Stores ([] ++ slot :: older) := h
  have hvalue := htop.readsAt.value
  have hone : s.Stores ([slot] ++ older) := h
  obtain ⟨t, ht, hstores⟩ := hone.drop
  have hwords : Slot.words [slot] = slot.value.type.words := by
    rw [Slot.words, Slot.flatten_runs_singleton, slot.length_run]
  rw [Stores, Slot.runs_cons] at h
  have hhead := Holds.le_headSize h
  rw [slot.length_run, ← ValueType.size_eq] at hhead
  rw [hwords] at ht
  refine ⟨t, ?_, hstores⟩
  rw [Stack.pop, if_neg (by omega), dropFrom_of_drop ht,
    show s.valueAt slot.value.type 0 = .ok slot.value.content from hvalue]

/-- Values without cells are popped off anything, and leave it as it is. -/
theorem pop_nothing (s : Stack) {type : ValueType} (h : type.words = 0) :
    s.pop type = (.ok (type.load []), s) := by
  have hsize : type.size = 0 := by rw [ValueType.size_eq, h]
  have hdrop : s.drop 0 = .ok s := by
    rw [Stack.drop, if_neg (Nat.not_lt_zero _)]
    unfold dropFrom
    split
    · next hpages => rw [← hpages]
    · next hpages => rw [if_pos rfl, ← hpages]
  have hrun : s.runAt 0 0 = .ok [] := by
    rw [runAt, locateBack, if_neg (by omega), locate, if_neg (by omega), if_pos rfl]
    rfl
  rw [Stack.pop, if_neg (by omega), valueAt, h, hrun, dropFrom_of_drop hdrop]
  rfl

theorem pop_empty (h : s.Stores []) {type : ValueType} (hwords : type.words ≠ 0) :
    s.pop type = (.error (.underflow type.size 0), s) := by
  have hpages : s.pages = [] := pages_of_words h.filled h.words_eq
  have hhead : s.headSize = 0 := by
    rw [headSize, hpages]
    rfl
  rw [Stack.pop, hhead, if_pos (by rw [ValueType.size_eq]; omega)]

end Stores

/-- What can be seen of a stack that stores some values: their bytes, each value in its place, and
that no more bytes are given than there are. -/
structure Shows (s : Stack) (slots : List Slot) : Prop where
  bytes : s.contents.flatMap Cell.bytes = Slot.bytes slots
  size : s.size = (Slot.bytes slots).length
  reads : ∀ newer slot older, slots = newer ++ slot :: older →
    s.ReadsAt slot (8 * Slot.words newer)
  pops : ∀ slot older, slots = slot :: older →
    ∃ t, s.pop slot.value.type = (.ok slot.value.content, t)
  copies : ∀ bytes ≤ s.size, s.copyBytes bytes = .ok ((Slot.bytes slots).drop (s.size - bytes))
  copiesNoMore : ∀ bytes, s.size < bytes → s.copyBytes bytes = .error (.underflow bytes s.size)
  popsNoMore : ∀ bytes, s.size < bytes → s.popBytes bytes = (.error (.underflow bytes s.size), s)
  movesNoMore : ∀ t bytes, s.size < bytes → bytes < 2 ^ 63 →
    s.transferBytes t bytes = .ok (.error (.underflow bytes s.size), s, t)

theorem Stores.shows {s : Stack} {slots : List Slot} (h : s.Stores slots) : s.Shows slots where
  bytes := h.bytes_eq
  size := by rw [h.size_eq, Slot.bytes, Cell.length_flatMap_bytes, Slot.words]
  reads newer slot older hslots := by
    subst hslots
    exact h.readsAt
  pops slot older hslots := by
    subst hslots
    obtain ⟨t, ht, -⟩ := h.pop
    exact ⟨t, ht⟩
  copies bytes hle := by rw [copyBytes, if_neg (Nat.not_lt.2 hle), h.bytes_eq]
  copiesNoMore bytes hlt := if_pos hlt
  popsNoMore bytes hlt := if_pos hlt
  movesNoMore t bytes hlt hblock := by
    rw [transferBytes, demandBlock_of_lt hblock, Stack.moveBytes, if_pos hlt]
    rfl

end Stack

/-- A request for a block that no memory has, or for a range that ends behind all memory. -/
def Command.IsHuge : Command → Prop
  | .reserve _ bytes => 2 ^ 63 < bytes + 4096
  | .transferBytes _ _ bytes => 2 ^ 63 ≤ bytes
  | .splice _ start removed _ => 2 ^ 64 ≤ 8 * start + 8 * removed
  | _ => False

namespace Bank

variable {b : Bank} {f f' : Flat} {c : Command} {cs : List Command} {reply : Reply}

/-- Each stack holds what the flat list says. -/
def Refines (b : Bank) (f : Flat) : Prop := ∀ i, (b i).Stores (f i)

theorem Refines.update (h : b.Refines f) {s : Stack} {slots : List Slot} (hs : s.Stores slots)
    (i : Nat) : Refines (Function.update b i s) (Function.update f i slots) := by
  intro j
  by_cases hj : j = i
  · subst hj
    rwa [Function.update_self, Function.update_self]
  · rw [Function.update_of_ne hj, Function.update_of_ne hj]
    exact h j

theorem Refines.update_left (h : b.Refines f) {i : Nat} {s : Stack} (hs : s.Stores (f i)) :
    Refines (Function.update b i s) f := by
  have hupdate := h.update hs i
  rwa [Function.update_eq_self] at hupdate

theorem IsNew.refines (h : b.IsNew) : b.Refines fun _ => [] := by
  intro i
  rcases h i with hempty | ⟨bytes, hroom⟩
  · rw [hempty]
    exact Stack.Holds.empty
  · exact Stack.Holds.empty.reserve hroom

/-- A huge block of memory is refused before it is known whether there are as many bytes. -/
theorem exec_transferBytes_huge (b : Bank) (i j : Nat) {bytes : Nat} (h : 2 ^ 63 ≤ bytes) :
    b.exec (.transferBytes i j bytes) = .error .overflow := by
  have hblock : demandBlock bytes = .error .overflow := if_neg (Nat.not_lt.2 h)
  rw [exec, Stack.transferBytes, hblock]
  rfl

theorem exec_transferBytes (b : Bank) (i j : Nat) {bytes : Nat} (h : bytes < 2 ^ 63)
    {result : Except StackError Unit} {s t : Stack}
    (hmove : (b i).moveBytes (b j) bytes = (result, s, t)) : b.exec (.transferBytes i j bytes) =
      .ok (.ofResult (fun _ => .done) result, Function.update (Function.update b i s) j t) := by
  rw [exec, Stack.transferBytes, demandBlock_of_lt h, hmove]
  rfl

theorem exec_splice (b : Bank) (i : Nat) {start removed : Nat} {slots : List Slot}
    (h : 8 * start + 8 * removed < 2 ^ 64) {result : Except StackError Unit} {s : Stack}
    (hsplice : (b i).splice start removed (Slot.runs slots).flatten = (result, s)) :
    b.exec (.splice i start removed slots) =
      .ok (.ofResult (fun _ => .done) result, Function.update b i s) := by
  rw [exec, Stack.checkRange, demandWord_of_lt h, hsplice]
  rfl

theorem exec_splice_huge (b : Bank) (i : Nat) {start removed : Nat} (slots : List Slot)
    (h : 2 ^ 64 ≤ 8 * start + 8 * removed) :
    b.exec (.splice i start removed slots) = .error .overflow := by
  have hword : demandWord (8 * start + 8 * removed) = .error .overflow := if_neg (Nat.not_lt.2 h)
  rw [exec, Stack.checkRange, hword]
  rfl

/-- What a bank does, its flat lists do. -/
def Follows (b : Bank) (f : Flat) (c : Command) : Prop :=
  ∃ reply b' f', b.exec c = .ok (reply, b') ∧ f.Step c reply f' ∧ Refines b' f'

/-- A command that is cut where values end does what the flat lists do, or asks for too much
memory. -/
theorem exec_refines (h : b.Refines f) (hstep : f.Step c reply f') :
    b.Follows f c ∨ b.exec c = .error .overflow ∧ c.IsHuge := by
  cases hstep with
  | push i v =>
    obtain ⟨before, hpush⟩ := (h i).push v
    exact .inl ⟨_, _, _, rfl, .push i v before, h.update hpush i⟩
  | @pop i slot rest hslots =>
    have hstores := h i
    rw [hslots] at hstores
    obtain ⟨t, ht, hrest⟩ := hstores.pop
    refine .inl ⟨_, _, _, ?_, .pop hslots, h.update hrest i⟩
    rw [exec, ht]
    rfl
  | @popNothing i t hwords =>
    refine .inl ⟨_, _, _, ?_, .popNothing i hwords, h.update_left (h i)⟩
    rw [exec, Stack.Stores.pop_nothing _ hwords]
    rfl
  | @popEmpty i t hslots hwords =>
    have hstores := h i
    rw [hslots] at hstores
    refine .inl ⟨_, _, _, ?_, .popEmpty hslots hwords, h.update_left (h i)⟩
    rw [exec, hstores.pop_empty hwords]
    rfl
  | copyFrom i slots =>
    exact .inl ⟨_, _, _, rfl, .copyFrom i slots, h.update ((h i).pushRun slots) i⟩
  | @popBytes i newer older hslots =>
    have hstores := h i
    rw [hslots] at hstores
    obtain ⟨t, ht, hrest⟩ := hstores.popBytes
    refine .inl ⟨_, _, _, ?_, .popBytes hslots, h.update hrest i⟩
    rw [exec, ht]
    rfl
  | @popTooMany i bytes hlt =>
    refine .inl ⟨_, _, _, ?_, .popTooMany hlt, h.update_left (h i)⟩
    rw [exec, (h i).popBytes_eq_error hlt]
    rfl
  | @transfer i j newer older hne hslots =>
    rcases Nat.lt_or_ge (8 * Slot.words newer) (2 ^ 63) with hblock | hhuge
    · have hstores := h i
      rw [hslots] at hstores
      obtain ⟨s, t, hmove, hs, ht⟩ := hstores.moveBytes (h j)
      rw [← Slot.runs_append] at ht
      exact .inl ⟨_, _, _, exec_transferBytes b i j hblock hmove, .transfer hne hslots,
        (h.update hs i).update ht j⟩
    · exact .inr ⟨exec_transferBytes_huge b i j hhuge, hhuge⟩
  | @transferTooMany i j bytes hne hlt =>
    rcases Nat.lt_or_ge bytes (2 ^ 63) with hblock | hhuge
    · have hmove := (h i).moveBytes_eq_error hlt (b j)
      exact .inl ⟨_, _, _, exec_transferBytes b i j hblock hmove, .transferTooMany hne hlt,
        (h.update_left (h i)).update_left (h j)⟩
    · exact .inr ⟨exec_transferBytes_huge b i j hhuge, hhuge⟩
  | @splice i newer removed older slots hslots =>
    rcases Nat.lt_or_ge (8 * Slot.words older + 8 * Slot.words removed) (2 ^ 64)
      with hrange | hhuge
    · have hstores := h i
      rw [hslots] at hstores
      obtain ⟨t, ht, hspliced⟩ := hstores.splice slots
      exact .inl ⟨_, _, _, exec_splice b i hrange ht, .splice slots hslots, h.update hspliced i⟩
    · exact .inr ⟨exec_splice_huge b i slots hhuge, hhuge⟩
  | @spliceBeyond i start removed slots hlt =>
    rcases Nat.lt_or_ge (8 * start + 8 * removed) (2 ^ 64) with hrange | hhuge
    · have hsplice := (h i).splice_eq_error hlt (Slot.runs slots).flatten
      exact .inl ⟨_, _, _, exec_splice b i hrange hsplice, .spliceBeyond slots hlt,
        h.update_left (h i)⟩
    · exact .inr ⟨exec_splice_huge b i slots hhuge, hhuge⟩
  | reserve i bytes =>
    rcases (b i).reserve_cases bytes with ⟨t, ht⟩ | ⟨hfault, hhuge⟩
    · refine .inl ⟨_, _, _, ?_, .reserve i bytes, h.update_left ((h i).reserve ht)⟩
      rw [exec, ht]
      rfl
    · refine .inr ⟨?_, hhuge⟩
      rw [exec, hfault]
      rfl
  | reset i =>
    have hreset : (b i).reset.Stores [] := Stack.Holds.reset (b i)
    exact .inl ⟨_, _, _, rfl, .reset i, h.update hreset i⟩
  | duplicate i j =>
    have hcopy : (b i).duplicate.Stores (f i) := Stack.Holds.duplicate (h i)
    exact .inl ⟨_, _, _, rfl, .duplicate i j, h.update hcopy j⟩

/-- Any number of commands does what the flat lists do. -/
theorem run_follows (h : b.Refines f) (hadmits : f.Admits cs) :
    (∃ replies b' f', b.run cs = .ok (replies, b') ∧ Flat.Run f cs replies f' ∧ Refines b' f') ∨
      b.run cs = .error .overflow ∧ ∃ c ∈ cs, c.IsHuge := by
  induction cs generalizing b f with
  | nil => exact .inl ⟨[], b, f, rfl, .nil f, h⟩
  | cons c cs ih =>
    obtain ⟨-, ⟨reply, f', hstep⟩, hlater⟩ := hadmits
    rcases exec_refines h hstep with ⟨reply, b', f', hexec, hstep, hrefines⟩ | ⟨hfault, hhuge⟩
    · rcases ih hrefines (hlater reply f' hstep) with
        ⟨replies, b'', f'', hrun, hflat, hlast⟩ | ⟨hfault, hhuge⟩
      · refine .inl ⟨reply :: replies, b'', f'', ?_, .cons hstep hflat, hlast⟩
        rw [run, hexec]
        simp only [bind, Except.bind, hrun]
        rfl
      · refine .inr ⟨?_, ?_⟩
        · rw [run, hexec]
          simp only [bind, Except.bind, hfault]
        · obtain ⟨c', hc', hhuge⟩ := hhuge
          exact ⟨c', List.mem_cons_of_mem c hc', hhuge⟩
    · refine .inr ⟨?_, c, List.mem_cons_self, hhuge⟩
      rw [run, hfault]
      rfl

/-- Whatever new stacks are commanded to do, as long as runs of bytes are cut where values end, they
show what the flat lists say, in whatever pages; only a huge request for memory ends the computation.
Such a request is made by every huge transfer, also by one for which there are too few bytes. -/
theorem run_refines (hnew : b.IsNew) (hadmits : Flat.Admits (fun _ => []) cs) :
    ((∃ replies b' f', b.run cs = .ok (replies, b') ∧ Flat.Run (fun _ => []) cs replies f' ∧
        ∀ i, Stack.Shows (b' i) (f' i)) ∨
      b.run cs = .error .overflow ∧ ∃ c ∈ cs, c.IsHuge) ∧
      ∀ (b : Bank) (i j bytes : Nat), 2 ^ 63 ≤ bytes →
        b.exec (.transferBytes i j bytes) = .error .overflow := by
  refine ⟨?_, fun b i j bytes h => exec_transferBytes_huge b i j h⟩
  rcases run_follows hnew.refines hadmits with ⟨replies, b', f', hrun, hflat, hrefines⟩ | hfault
  · exact .inl ⟨replies, b', f', hrun, hflat, fun i => (hrefines i).shows⟩
  · exact .inr hfault

/-- One value is pushed onto an empty stack and moved onto another one. -/
def handover : List Command := [.push 0 ⟨.uint64, (5 : UInt64)⟩, .transferBytes 0 1 8]

theorem admits_handover : Flat.Admits (fun _ => []) handover := by
  refine ⟨Nat.le_refl 8, ⟨_, _, .push 0 _ []⟩, ?_⟩
  intro reply f' hstep
  cases hstep with
  | push _ _ before =>
    have hpushed : Function.update (fun _ => []) 0
        (Slot.put [Slot.ofValue .uint64 (5 : UInt64) before] []) 0 =
          [Slot.ofValue .uint64 (5 : UInt64) before] ++ [] := rfl
    exact ⟨trivial, ⟨_, _, .transfer (j := 1) Nat.zero_ne_one hpushed⟩, fun _ _ _ => trivial⟩

theorem run_refines_handover : IsNew (fun _ => .empty) ∧ Flat.Admits (fun _ => []) handover ∧
    ((∃ replies b' f', run (fun _ => .empty) handover = .ok (replies, b') ∧
        Flat.Run (fun _ => []) handover replies f' ∧ ∀ i, Stack.Shows (b' i) (f' i)) ∨
      run (fun _ => .empty) handover = .error .overflow ∧ ∃ c ∈ handover, c.IsHuge) ∧
      ∀ (b : Bank) (i j bytes : Nat), 2 ^ 63 ≤ bytes →
        b.exec (.transferBytes i j bytes) = .error .overflow :=
  ⟨fun _ => .inl rfl, admits_handover, run_refines (fun _ => .inl rfl) admits_handover⟩

/-- Of three requests for more bytes than one value has, the one that needs a block is not refused. -/
theorem transfer_faults :
    let s := Stack.empty.push .uint64 (1 : UInt64)
    s.copyBytes 18446744073709551608 = .error (.underflow 18446744073709551608 8) ∧
      s.popBytes 18446744073709551608 = (.error (.underflow 18446744073709551608 8), s) ∧
      s.transferBytes .empty 18446744073709551608 = .error .overflow :=
  ⟨rfl, rfl, rfl⟩

end Bank

end GeneticProgramming
