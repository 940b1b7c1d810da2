import GeneticProgramming.Fault
import GeneticProgramming.Value.Cell

/-!
# The value stack

Values of any stored size lie on one stack of cells, kept in pages.  A run of cells that is pushed
at once never straddles two pages, so every value can be read in place.  The largest page that was
emptied is kept as a spare and used again if it is large enough.

A page is not wiped when cells are dropped.  A run of whole cells replaces what it is pushed onto; a
value only replaces its own bytes, so the bytes behind it show what lay there before: the word of a
cell, which for a reference is not the address that memory has (`Cell.toWord`).

`Stack.cells` forgets the pages: it lists all cells, the newest first.
-/

namespace GeneticProgramming

/-- A page: its cells, the newest first; the words that lie behind them since they were dropped, the
nearest first; and the number of words that still fit.  Words further behind are zero. -/
structure Page where
  cells : List Cell
  stale : List UInt64
  room : Nat
deriving DecidableEq, Repr

namespace Page

def used (p : Page) : Nat := p.cells.length

def capacity (p : Page) : Nat := p.used + p.room

/-- The words of an ordinary page. -/
def ordinary : Nat := 512

/-- The capacity of a new page that has to hold `words` words: a multiple of the ordinary one. -/
def capacityFor (words : Nat) : Nat :=
  max ((words + ordinary - 1) / ordinary) 1 * ordinary

/-- A new page that has to hold `words` words. -/
def new (words : Nat) : Page := ⟨[], [], capacityFor words⟩

def push (p : Page) (run : List Cell) : Page :=
  ⟨run.reverse ++ p.cells, p.stale.drop run.length, p.room - run.length⟩

/-- Drops the newest words; what they were stays behind, with zeros for references. -/
def drop (p : Page) (n : Nat) : Page :=
  ⟨p.cells.drop n, (p.cells.take n).reverse.map Cell.toWord ++ p.stale, p.room + min n p.used⟩

def clear (p : Page) : Page := p.drop p.used

/-- The bytes of a page, the oldest first. -/
def bytes (p : Page) : List UInt8 := p.cells.reverse.flatMap Cell.bytes

theorem le_capacityFor (words : Nat) : words ≤ capacityFor words := by
  unfold capacityFor ordinary; omega

@[simp] theorem cells_new (words : Nat) : (new words).cells = [] := rfl

@[simp] theorem cells_push (p : Page) (run : List Cell) :
    (p.push run).cells = run.reverse ++ p.cells := rfl

@[simp] theorem cells_drop (p : Page) (n : Nat) : (p.drop n).cells = p.cells.drop n := rfl

@[simp] theorem cells_clear (p : Page) : p.clear.cells = [] := List.drop_length

@[simp] theorem capacity_drop (p : Page) (n : Nat) : (p.drop n).capacity = p.capacity := by
  simp only [capacity, used, drop, List.length_drop]; omega

end Page

/-- Pages, the newest first, and a spare page whose cells do not count. -/
structure Stack where
  pages : List Page
  spare : Option Page
deriving DecidableEq, Repr

namespace Stack

def empty : Stack := ⟨[], none⟩

instance : Inhabited Stack := ⟨empty⟩

/-- All cells, the newest first. -/
def cells (s : Stack) : List Cell := s.pages.flatMap Page.cells

/-- All cells, the oldest first. -/
def contents (s : Stack) : List Cell := s.cells.reverse

def words (s : Stack) : Nat := (s.pages.map Page.used).sum

/-- The size in bytes. -/
def size (s : Stack) : Nat := 8 * s.words

/-- The bytes in the newest page. -/
def headSize (s : Stack) : Nat := 8 * (s.pages.head?.map Page.used).getD 0

def isEmpty (s : Stack) : Bool := s.words = 0

theorem words_eq_length_cells (s : Stack) : s.words = s.cells.length := by
  rw [words, cells, List.length_flatMap]; rfl

@[simp] theorem cells_empty : empty.cells = [] := rfl

/-! ## Pages -/

/-- The larger of the spare page and one that fell empty. -/
def recycle (spare : Option Page) (p : Page) : Option Page :=
  match spare with
  | some kept => if p.capacity ≤ kept.capacity then some kept else some p.clear
  | none => some p.clear

/-- A page for `words` words: the spare one if it is large enough. -/
def freshPage (s : Stack) (words : Nat) : Page :=
  match s.spare with
  | some kept => if words ≤ kept.capacity then kept.clear else .new words
  | none => .new words

/-- Empties the stack and keeps its largest page. -/
def reset (s : Stack) : Stack := ⟨[], s.pages.foldl recycle s.spare⟩

@[simp] theorem cells_reset (s : Stack) : s.reset.cells = [] := rfl

/-- Makes sure that a run of so many bytes can be pushed without a further page. -/
def reserve (s : Stack) (bytes : Nat) : Except Fault Stack := do
  let words := (← demandWord (roundToWords bytes)) / 8
  if words = 0 || s.pages.head?.any (words ≤ ·.room) || s.spare.any (words ≤ ·.capacity) then
    return s
  let page := Page.new words
  let _ ← demandBlock (8 * page.capacity)
  return { s with spare := some page }

theorem cells_reserve {s t : Stack} {bytes : Nat} (h : s.reserve bytes = .ok t) :
    t.cells = s.cells := by
  unfold reserve at h
  cases hw : demandWord (roundToWords bytes) with
  | error e => simp [hw, bind, Except.bind] at h
  | ok n =>
    simp only [hw, bind, Except.bind] at h
    split at h
    · injection h with h; rw [h]
    · split at h
      · contradiction
      · injection h with h; rw [← h]; rfl

def withCapacity (bytes : Nat) : Except Fault Stack := empty.reserve bytes

/-- A copy holds the same pages, but no spare one. -/
def duplicate (s : Stack) : Stack := { s with spare := none }

@[simp] theorem cells_duplicate (s : Stack) : s.duplicate.cells = s.cells := rfl

/-! ## Pushing and dropping -/

/-- The page that takes a run of so many words. -/
def landing (s : Stack) (words : Nat) : Page :=
  match s.pages with
  | p :: _ => if words ≤ p.room then p else s.freshPage words
  | [] => s.freshPage words

/-- Pushes a run of cells, given in memory order, into one page. -/
def pushRun (s : Stack) (run : List Cell) : Stack :=
  if run.isEmpty then s
  else match s.pages with
    | p :: ps =>
      if run.length ≤ p.room then { s with pages := p.push run :: ps }
      else ⟨(s.freshPage run.length).push run :: p :: ps, none⟩
    | [] => ⟨[(s.freshPage run.length).push run], none⟩

theorem cells_freshPage (s : Stack) (n : Nat) : (s.freshPage n).cells = [] := by
  unfold freshPage; split
  · split <;> simp
  · rfl

@[simp] theorem cells_pushRun (s : Stack) (run : List Cell) :
    (s.pushRun run).cells = run.reverse ++ s.cells := by
  unfold pushRun
  split
  · next h => simp [List.isEmpty_iff.1 h]
  · split
    · next h =>
      split <;> simp [cells, h, cells_freshPage]
    · next h => simp [cells, h, cells_freshPage]

def dropFrom (spare : Option Page) : List Page → Nat → Stack
  | [], _ => ⟨[], spare⟩
  | p :: ps, n =>
    if n = 0 then ⟨p :: ps, spare⟩
    else if n < p.used then ⟨p.drop n :: ps, spare⟩
    else dropFrom (recycle spare p) ps (n - p.used)

/-- Drops the newest words, whatever pages they lie in. -/
def drop (s : Stack) (words : Nat) : Except StackError Stack :=
  if s.words < words then .error (.underflow (8 * words) s.size)
  else .ok (dropFrom s.spare s.pages words)

theorem cells_dropFrom (spare : Option Page) (ps : List Page) (n : Nat) :
    (dropFrom spare ps n).cells = (ps.flatMap Page.cells).drop n := by
  induction ps generalizing spare n with
  | nil => simp [dropFrom, cells]
  | cons p ps ih =>
    unfold dropFrom
    split
    · next h => simp [h, cells]
    · split
      · next h =>
        simp only [cells, Page.cells_drop, List.flatMap_cons, Page.used] at h ⊢
        rw [List.drop_append_of_le_length (Nat.le_of_lt h)]
      · next h =>
        have hle : p.cells.length ≤ n := by simpa [Page.used] using h
        rw [ih, List.flatMap_cons, List.drop_append, List.drop_eq_nil_of_le hle, List.nil_append]
        rfl

theorem dropFrom_of_drop {s t : Stack} {n : Nat} (h : s.drop n = .ok t) :
    dropFrom s.spare s.pages n = t := by
  unfold drop at h
  split at h
  · contradiction
  · injection h with h

theorem drop_eq_ok {s t : Stack} {n : Nat} (h : s.drop n = .ok t) : t.cells = s.cells.drop n := by
  rw [← dropFrom_of_drop h]
  exact cells_dropFrom _ _ _

/-- Drops the newest bytes, which have to be whole words; of too few of them none is dropped. -/
def popBytes (s : Stack) (bytes : Nat) : Except StackError Unit × Stack :=
  if s.size < bytes then (.error (.underflow bytes s.size), s)
  else (.ok (), dropFrom s.spare s.pages (bytes / 8))

/-! ## Reading in place -/

/-- Where a range of bytes starts: a page and the bytes of it that lie below. -/
structure Place where
  page : Page
  below : Nat
deriving DecidableEq, Repr

def search (start size : Nat) : List Page → Nat → Option Place
  | [], _ => none
  | p :: ps, stop =>
    let first := stop - 8 * p.used
    if first ≤ start then
      if stop < start + size then none else some ⟨p, start - first⟩
    else search start size ps first

/-- The end of a range of bytes has to be a machine word. -/
def checkRange (offset size : Nat) : Except Fault Unit := do
  let _ ← demandWord (offset + size)

/-- Finds a range of bytes by its distance from the oldest one. -/
def locate (s : Stack) (start size : Nat) : Except StackError Place :=
  let refused := StackError.outOfRange start size s.size
  if s.size < start + size then .error refused
  else if size = 0 then .ok ⟨.new 0, 0⟩
  else match search start size s.pages s.size with
    | some place => .ok place
    | none => .error refused

/-- Finds a range of bytes by its distance from the newest one. -/
def locateBack (s : Stack) (offset size : Nat) : Except StackError Place :=
  if s.size < offset + size then .error (.outOfRange offset size s.size)
  else s.locate (s.size - offset - size) size

/-- A range of bytes within one page, by its distance from the newest byte. -/
def bytesAt (s : Stack) (offset size : Nat) : Except StackError (List UInt8) := do
  let place ← s.locateBack offset size
  return (place.page.bytes.drop place.below).take size

/-- A run of cells within one page, by its distance in bytes from the newest byte. -/
def runAt (s : Stack) (offset words : Nat) : Except StackError (List Cell) := do
  let place ← s.locateBack offset (8 * words)
  return (place.page.cells.reverse.drop (place.below / 8)).take words

/-! ## Copying -/

/-- A run of cells, whatever pages it lies in, by its distance in words from the oldest. -/
def copyRun (s : Stack) (start words : Nat) : Except StackError (List Cell) :=
  if s.words < start + words then .error (.outOfRange (8 * start) (8 * words) s.size)
  else .ok ((s.contents.drop start).take words)

/-- The newest bytes. -/
def copyBytes (s : Stack) (bytes : Nat) : Except StackError (List UInt8) :=
  if s.size < bytes then .error (.underflow bytes s.size)
  else .ok ((s.contents.flatMap Cell.bytes).drop (s.size - bytes))

/-- Moves the newest bytes, which have to be whole words, onto another stack, where they are one
run.  Of too few of them none is moved. -/
def moveBytes (s other : Stack) (bytes : Nat) : Except StackError Unit × Stack × Stack :=
  if s.size < bytes then (.error (.underflow bytes s.size), s, other)
  else
    let run := s.contents.drop (s.words - bytes / 8)
    (.ok (), dropFrom s.spare s.pages (bytes / 8), other.pushRun run)

/-- Moves bytes by way of a block of memory.  The block is set aside before it is known whether there
are as many bytes. -/
def transferBytes (s other : Stack) (bytes : Nat) :
    Except Fault (Except StackError Unit × Stack × Stack) := do
  let _ ← demandBlock bytes
  return s.moveBytes other bytes

/-- Replaces a run of cells, by its distance in words from the oldest; one that is not all there
stays. -/
def splice (s : Stack) (start removed : Nat) (run : List Cell) : Except StackError Unit × Stack :=
  if s.words < start + removed then (.error (.outOfRange (8 * start) (8 * removed) s.size), s)
  else
    let tail := s.contents.drop (start + removed)
    let rest := dropFrom s.spare s.pages (tail.length + removed)
    (.ok (), (rest.pushRun run).pushRun tail)

/-! ## Values -/

/-- Pushes a value over what the page behind the newest cell holds. -/
def push (s : Stack) (t : ValueType) (x : t.Carrier) : Stack :=
  s.pushRun (t.storeOver x (s.landing t.words).stale)

/-- The value at a distance in bytes from the newest byte. -/
def valueAt (s : Stack) (t : ValueType) (offset : Nat) : Except StackError t.Carrier := do
  return t.load (← s.runAt offset t.words)

/-- Takes a value off the newest page; if that holds too few bytes, they stay. -/
def pop (s : Stack) (t : ValueType) : Except StackError t.Carrier × Stack :=
  if s.headSize < t.size then (.error (.underflow t.size s.headSize), s)
  else match s.valueAt t 0 with
    | .error e => (.error e, s)
    | .ok x => (.ok x, dropFrom s.spare s.pages t.words)

def describe (s : Stack) : String :=
  s!"ValueStack \x7b size_bytes: {s.size}, pages: {s.pages.length} \x7d"

end Stack

end GeneticProgramming
