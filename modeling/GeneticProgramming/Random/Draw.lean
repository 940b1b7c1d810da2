import GeneticProgramming.Fault
import GeneticProgramming.Number.Double
import GeneticProgramming.Random.Basic

/-!
# Drawing from the random stream

A `Draw` consumes words of the stream and may fault on a probability or a range that makes no sense.
Whole numbers are drawn by rejection, so that each is equally likely.  A rejection is less likely
than not, so a draw that goes on until a word is accepted comes to an end, but no bound can be told
beforehand; here it ends at the latest after `attempts` words.
-/

namespace GeneticProgramming

abbrev Draw := StateT Random (Except Fault)

namespace Draw

def fault {α : Type} (f : Fault) : Draw α := throw f

def word : Draw UInt64 := fun g => .ok g.next

/-- The upper half of a word. -/
def halfWord : Draw UInt32 := return ((← word) >>> 32).toUInt32

/-! ## Whole numbers -/

/-- The words after which a draw settles for the least number although none was accepted.  This end
is one of these definitions alone: a draw that knows none goes on with the stream.  Both agree unless
so many words in a row are rejected, which happens with a chance below 2^-256, so what is said of
every stream is said of a stream with such words as these definitions read it. -/
def attempts : Nat := 256

/-- The greatest low part that is accepted when a word is reduced to `n` outcomes: the greatest
multiple of `n` by a power of two that fits the width, less one. -/
def zone (width n : Nat) : Nat := n * 2 ^ (width - 1 - Nat.log2 n) - 1

/-- The greatest low part that is accepted where as few words as possible are rejected: the greatest
multiple of `n` that fits the width, less one. -/
def widestZone (width n : Nat) : Nat := 2 ^ width / n * n - 1

/-- Reduces words of a width to `n` outcomes; low parts up to `accepted` are accepted. -/
def reduce (width n accepted : Nat) (draw : Draw Nat) : Nat → Draw Nat
  | 0 => pure 0
  | tries + 1 => do
    let product := (← draw) * n
    if product % 2 ^ width ≤ accepted then pure (product / 2 ^ width)
    else reduce width n accepted draw tries

/-- A number below `n`, from whole words. -/
def below (n : Nat) : Draw Nat :=
  if n = 0 then fault .badRange else reduce 64 n (zone 64 n) (return (← word).toNat) attempts

/-- A number below `n`, from half words. -/
def belowHalf (n : Nat) : Draw Nat :=
  if n = 0 then fault .badRange else reduce 32 n (zone 32 n) (return (← halfWord).toNat) attempts

/-- A number below `n`, from as few half words as possible. -/
def belowHalfEagerly (n : Nat) : Draw Nat :=
  if n = 0 then fault .badRange
  else reduce 32 n (widestZone 32 n) (return (← halfWord).toNat) attempts

/-- An element of a list; nothing is drawn for an empty one. -/
def element {α : Type} (xs : List α) : Draw (Option α) :=
  if xs.isEmpty then pure none else return xs[← belowHalf xs.length]?

/-! ## Chances -/

/-- True with probability `p`; certainty needs no word. -/
def chance (p : Double) : Draw Bool :=
  if p.eq .one then pure true
  else if Double.le .zero p && p.lt .one then return (← word).toNat < p.floorScaled 64
  else fault .badProbability

/-! ## Real numbers -/

/-- A multiple of `2 ^ -53` below one. -/
def unit : Draw Double := do
  let w ← word
  return Double.mul (.ofFloat (w >>> 11).toFloat) ⟨0x3CA0000000000000⟩

/-- A multiple of `2 ^ -52` below one. -/
def fraction : Draw Double := do
  let low := (← word) >>> 12
  return Double.sub ⟨low ||| 0x3FF0000000000000⟩ .one

/-- A multiple of `2 ^ -23` below one. -/
def halfFraction : Draw Single := do
  let low := (← halfWord) >>> 9
  return Single.sub ⟨low ||| 0x3F800000⟩ .one

def untilSome {α : Type} (draw : Draw (Option α)) (fallback : α) : Nat → Draw α
  | 0 => pure fallback
  | tries + 1 => do
    match ← draw with
    | some a => pure a
    | none => untilSome draw fallback tries

/-- A double from `low` up to, but not including, `high`. -/
def double (low high : Double) : Draw Double :=
  let width := high - low
  untilSome (do
    let r := (← fraction) * width + low
    return if r.lt high then some r else none) low attempts

/-- A single from `low` up to, but not including, `high`. -/
def single (low high : Single) : Draw Single :=
  let width := high - low
  untilSome (do
    let r := (← halfFraction) * width + low
    return if r.lt high then some r else none) low attempts

def shrinkSingle (most low high : Single) : Nat → Single → Single
  | 0, scale => scale
  | n + 1, scale =>
    if high.lt (scale * most + low) then shrinkSingle most low high n scale.step else scale

/-- A single from `low` up to and including `high`. -/
def closedSingle (low high : Single) : Draw Single := do
  let most : Single := ⟨0x3F7FFFFE⟩
  let scale := shrinkSingle most low high attempts ((high - low) / most)
  return (← halfFraction) * scale + low

/-! ## Subsets -/

/-- How a subset is drawn. -/
inductive SubsetRule where
  /-- The first elements of a shuffle of all numbers. -/
  | shuffle
  /-- One draw for each element, among ever more numbers. -/
  | floyd
  /-- Draws among all numbers until there are enough. -/
  | rejection
deriving DecidableEq, Repr

/-- A subset of fewer elements is always drawn by `floyd`. -/
def leastShuffle : Nat := 12

/-- A subset of so many elements is large. -/
def largeSubset : Nat := 163

/-- From so many numbers on a shuffle costs more. -/
def manyNumbers : Nat := 500000

/-- The rule that is expected to be the fastest, for `amount` of the numbers below `length`. -/
def subsetRule (length amount : Nat) : SubsetRule :=
  let k := Single.ofNat amount
  let isMany := manyNumbers ≤ length
  if largeSubset ≤ amount then
    let factor := if isMany then Single.ofNat 330 / Single.ofNat 9 else Single.ofNat 270
    if (Single.ofNat length).lt (factor * k) then .shuffle else .rejection
  else
    let slope := Single.ofNat 8 / Single.ofNat (if isMany then 45 else 5)
    let base := if isMany then Single.ofNat 70 / Single.ofNat 9 else Single.ofNat 10
    if leastShuffle ≤ amount && (Single.ofNat length).lt ((base + slope * k) * k) then .shuffle
    else .floyd

def exchange (xs : Array Nat) (i j : Nat) : Array Nat :=
  match xs[i]?, xs[j]? with
  | some a, some b => (xs.setIfInBounds i b).setIfInBounds j a
  | _, _ => xs

/-- The first `amount` elements of a shuffle of the numbers below `length`. -/
def shuffled (length amount : Nat) : Draw (List Nat) := do
  let xs ← (List.range amount).foldlM (fun xs i => do
    let j ← belowHalf (length - i)
    return exchange xs i (i + j)) (List.range length).toArray
  return xs.toList.take amount

/-- Shuffles a list, its last place first. -/
def shuffleBack (xs : List Nat) : Draw (List Nat) := do
  let xs ← ((List.range xs.length).drop 1).reverse.foldlM (fun xs i => do
    return exchange xs i (← belowHalf (i + 1))) xs.toArray
  return xs.toList

/-- A subset of fewer elements comes out of `floyd` in random order. -/
def leastUnordered : Nat := 50

/-- Draws one number for each `j`, among those up to `j`; a number that is taken already gives way
to `j`.  In a small subset `j` goes in its place; a larger one is shuffled at the end. -/
def floyd (length amount : Nat) : Draw (List Nat) := do
  let js := (List.range length).drop (length - amount)
  if amount < leastUnordered then
    js.foldlM (fun xs j => do
      let t ← belowHalf (j + 1)
      return match xs.idxOf? t with
        | some place => xs.insertIdx place j
        | none => xs ++ [t]) []
  else
    let drawn ← js.foldlM (fun (xs : List Nat) j => do
      let t ← belowHalf (j + 1)
      return (if xs.contains t then j else t) :: xs) []
    shuffleBack drawn.reverse

/-- A number below `length` that is not taken: the first one drawn, or after so many draws the least
one. -/
def untaken (length : Nat) (taken : List Nat) : Nat → Draw Nat
  | 0 => return ((List.range length).find? fun n => !taken.contains n).getD 0
  | tries + 1 => do
    let n ← belowHalfEagerly length
    if taken.contains n then untaken length taken tries else return n

/-- Draws numbers below `length` and drops those that came before. -/
def rejecting (length amount : Nat) : Draw (List Nat) := do
  let drawn ← (List.range amount).foldlM (fun taken _ => do
    return (← untaken length taken attempts) :: taken) []
  return drawn.reverse

/-- Distinct numbers below `length`, in the order drawn. -/
def subset (length amount : Nat) : Draw (List Nat) :=
  if length < amount then fault .badRange
  else match subsetRule length amount with
    | .shuffle => shuffled length amount
    | .floyd => floyd length amount
    | .rejection => rejecting length amount

end Draw

/-! ## Weights -/

/-- Weights prepared for drawing: running sums without the last, and the width of the draw. -/
structure Weights where
  sums : List Double
  scale : Double
deriving DecidableEq, Repr

namespace Weights

def shrink (total : Double) : Nat → Double → Double
  | 0, scale => scale
  | n + 1, scale =>
    if total.le (scale * ⟨0x3FEFFFFFFFFFFFFE⟩ + .zero) then shrink total n scale.step else scale

/-- Running sums from the left. -/
def running (weights : List Double) : List Double :=
  match weights with
  | [] => []
  | w :: ws => ws.scanl Double.add w

/-- Prepares weights.  There is nothing to draw if one is negative or a NaN, or all are zero; a sum
without a finite value is a fault. -/
def ofList (weights : List Double) : Except Fault (Option Weights) :=
  let sums := running weights
  match sums.getLast? with
  | none => .ok none
  | some total =>
    if weights.any (fun w => !Double.le .zero w) || total.eq .zero then .ok none
    else if total.isFinite then
      .ok (some ⟨sums.dropLast, shrink total Draw.attempts total⟩)
    else .error .badRange

/-- The index of a weight, drawn in proportion to it. -/
def index (w : Weights) : Draw Nat := do
  let d := (← Draw.fraction) * w.scale + .zero
  return (w.sums.filter fun s => s.le d).length

end Weights

end GeneticProgramming
