import GeneticProgramming.Catalogue.Scene
import GeneticProgramming.Catalogue.Types
import GeneticProgramming.Palette.Basic

/-!
# The catalogue of operators

Operators of arithmetic, logic, text and arrays, by name.
-/

namespace GeneticProgramming

namespace Catalogue

/-! ## Singles -/

private def unarySingle (f : Single → Single) : Rule Scene :=
  .compute [.single] .single fun (a, _) => f a

private def binarySingle (f : Single → Single → Single) : Rule Scene :=
  .compute [.single, .single] .single fun (a, b, _) => f a b

def singles : List (String × Rule Scene) := [
  ("add", binarySingle (· + ·)),
  ("sub", binarySingle (· - ·)),
  ("mul", binarySingle (· * ·)),
  ("div", binarySingle Single.guardedDiv),
  ("neg", unarySingle (- ·)),
  ("one", .compute [] .single fun _ => .one),
  ("x", .consult [] .single fun k _ => k.x),
  ("scale", .consult [.single] .single fun k (a, _) => k.x * a),
  ("cif", .consult [.single, .single] .single fun k (a, b, _) => if k.on then a else b),
  ("if", .compute [.bool, .single, .single] .single fun (c, a, b, _) => if c then a else b),
  ("lt", .compute [.single, .single] .bool fun (a, b, _) => a.lt b),
  ("pos", .compute [.single] .bool fun (a, _) => Single.zero.lt a),
  ("half", .literal .single (pure ⟨0x3F000000⟩)),
  ("lit", .literal .single (Draw.closedSingle ⟨0xBF800000⟩ ⟨0x3F800000⟩)),
  ("lit_open", .literal .single (Draw.single ⟨0xC0000000⟩ ⟨0x40000000⟩)),
  ("f4", .compute [.single, .single, .single, .single] .single fun (a, b, c, d, _) =>
    (a - b) * (c - d)),
  ("f5", .compute [.single, .single, .single, .single, .single] .single fun (a, b, c, d, e, _) =>
    a - (b - (c - (d - e)))),
  ("f6", .compute [.single, .single, .single, .single, .single, .single] .single
    fun (a, b, c, d, e, f, _) => ((a - b) * c - d) * e - f),
  ("c3", .consult [.single, .single, .single] .single fun k (a, b, c, _) => k.x * a - b * c),
  ("c4", .consult [.single, .single, .single, .single] .single fun k (a, b, c, d, _) =>
    k.x * (a - b) * (c - d)),
  ("c5", .consult [.single, .single, .single, .single, .single] .single fun k (a, b, c, d, e, _) =>
    k.x - (a - (b - (c - (d - e))))),
  ("c6", .consult [.single, .single, .single, .single, .single, .single] .single
    fun k (a, b, c, d, e, f, _) => k.x * (((a - b) * c - d) * e - f))]

/-! ## Truth values -/

private def binaryTruth (f : Bool → Bool → Bool) : Rule Scene :=
  .compute [.bool, .bool] .bool fun (a, b, _) => f a b

def truths : List (String × Rule Scene) := [
  ("and", binaryTruth (· && ·)),
  ("or", binaryTruth (· || ·)),
  ("not", .compute [.bool] .bool fun (a, _) => !a),
  ("implies", binaryTruth fun a b => !a || b),
  ("true", .compute [] .bool fun _ => true),
  ("false", .compute [] .bool fun _ => false),
  ("on", .consult [] .bool fun k _ => k.on),
  ("flag", .literal .bool (Draw.chance ⟨0x3FE0000000000000⟩)),
  ("yes", .literal .bool (pure true))]

/-! ## Texts -/

private def byteLength (s : String) : Single := .ofNat s.utf8ByteSize

def texts : List (String × Rule Scene) := [
  ("join", .compute [.text, .text] .text fun (a, b, _) => a ++ "|" ++ b),
  ("shout", .compute [.text, .bool] .text fun (s, c, _) => if c then s.map Char.toUpper else s),
  ("weigh", .compute [.text, .single] .single fun (s, k, _) => byteLength s * ⟨0x41200000⟩ - k),
  ("len", .compute [.text] .single fun (s, _) => byteLength s),
  ("text", .consult [] .text fun k _ => k.s),
  ("tag", .consult [.text, .int64] .text fun k (s, n, _) =>
    k.s ++ s ++ ":" ++ toString (Int64.toInt n)),
  ("empty", .compute [] .text fun _ => ""),
  ("word", .literal .text (do return String.join (List.replicate (← Draw.below 3) "ab"))),
  ("four", .literal .text (pure "four"))]

/-! ## Integers -/

private def binaryInt (f : Int64 → Int64 → Int64) : Rule Scene :=
  .compute [.int64, .int64] .int64 fun (a, b, _) => f a b

/-- Division towards zero; by zero it is zero. -/
def totalDiv (a b : Int64) : Int64 := if b = 0 then 0 else a / b

def integers : List (String × Rule Scene) := [
  ("iadd", binaryInt (· + ·)),
  ("isub", binaryInt (· - ·)),
  ("imul", binaryInt (· * ·)),
  ("idiv", binaryInt totalDiv),
  ("ineg", .compute [.int64] .int64 fun (a, _) => Int64.neg a),
  ("ieq", .compute [.int64, .int64] .bool fun (a, b, _) => decide (a = b)),
  ("ipick", .compute [.bool, .int64, .int64] .int64 fun (c, a, b, _) => if c then a else b),
  ("n", .consult [] .int64 fun k _ => k.n),
  ("ilit", .literal .int64 (do return Int64.ofInt ((← Draw.below 201) - 100))),
  ("itof", .compute [.int64] .single fun (a, _) => Single.ofInt64 a),
  ("ftoi", .compute [.single] .int64 fun (a, _) => Single.toInt64 a)]

/-! ## Doubles and pairs -/

private def binaryDouble (f : Double → Double → Double) : Rule Scene :=
  .compute [.double, .double] .double fun (a, b, _) => f a b

def doubles : List (String × Rule Scene) := [
  ("dadd", binaryDouble (· + ·)),
  ("dsub", binaryDouble (· - ·)),
  ("ddiv", binaryDouble (· / ·)),
  ("y", .consult [] .double fun k _ => k.y),
  ("dlit", .literal .double (Draw.double .zero ⟨0x4024000000000000⟩)),
  ("done", .compute [] .double fun _ => .one),
  ("f2d", .compute [.single] .double fun (a, _) => Double.ofSingle a),
  ("d2f", .compute [.double] .single fun (a, _) => Double.toSingle a),
  ("fst", .compute [pair] .double fun (p, _) => p[0]),
  ("snd", .compute [pair] .double fun (p, _) => p[1]),
  ("mkpair", .compute [.double, .double] pair fun (a, b, _) => #v[a, b]),
  ("pairadd", .compute [pair, pair] pair fun (p, q, _) => #v[p[0] + q[0], p[1] - q[1]]),
  ("pairlit", .literal pair (pure #v[⟨0x3FD0000000000000⟩, ⟨0xBFF8000000000000⟩])),
  ("mix", .compute [.bool, pair, .uint8] .double fun (c, p, k, _) =>
    let k := Double.ofNat (UInt8.toNat k)
    if c then p[0] + p[1] * k else k)]

/-! ## Bytes, units, lists and arrays -/

private def sumInts (xs : List Int32) : Int64 := xs.foldl (fun sum x => sum + x.toInt64) 0

private def wordToSingle (w : UInt64) : Single := .ofNat w.toNat

private def byteToSingle (b : UInt8) : Single := .ofNat b.toNat

def collections : List (String × Rule Scene) := [
  ("u7", .compute [] .uint8 fun _ => (7 : UInt8)),
  ("u8lit", .literal .uint8 (do return (← Draw.halfWord).toUInt8)),
  ("u8add", .compute [.uint8, .uint8] .uint8 fun (a, b, _) => UInt8.add a b),
  ("nop", .compute [] .unit fun _ => ()),
  ("noplit", .literal .unit (pure ())),
  ("seq", .compute [.unit, .single] .single fun (_, a, _) => a),
  ("drop", .compute [.single] .unit fun _ => ()),
  ("vlit", .literal .ints (pure [1, 2, 3])),
  ("vnew", .compute [] .ints fun _ => ([] : List Int32)),
  ("vcat", .compute [.ints, .ints] .ints fun (a, b, _) => List.append a b),
  ("vsum", .compute [.ints] .int64 fun (v, _) => sumInts v),
  ("b12lit", .literal dozen (pure (Vector.ofFn fun i => i.val.toUInt8 + 1))),
  ("b12sum", .compute [dozen] .single fun (b, _) =>
    (Vector.toList b).foldl (fun sum byte => sum + byteToSingle byte) .zero),
  ("biglit", .literal big (pure (Vector.replicate 4112 7))),
  ("bigend", .compute [big, .single] .single fun (b, a, _) =>
    byteToSingle b[0] + byteToSingle b[4111] - a),
  ("maxlit", .literal longest (pure (Vector.replicate 8191 9))),
  ("maxend", .compute [longest] .single fun (m, _) => wordToSingle m[0] + wordToSingle m[8190]),
  ("hugelit", .literal huge (pure (Vector.replicate 8192 0))),
  ("hugearg", .compute [huge] .single fun (h, _) => wordToSingle h[0]),
  ("widelit", .literal .wide (pure (0, 0))),
  ("widearg", .compute [.wide] .single fun (w, _) => wordToSingle (Prod.fst w)),
  ("u32inc", .compute [.uint32] .uint32 fun (a, _) => UInt32.add a 1),
  ("u32zero", .compute [] .uint32 fun _ => (0 : UInt32))]

/-! ## All operators -/

def rules : List (String × Rule Scene) :=
  singles ++ truths ++ texts ++ integers ++ doubles ++ collections

def rule? (name : String) : Option (Rule Scene) := rules.lookup name

/-- The operator of a rule of the catalogue, under a name of its own or under none. -/
def operator? (rule : String) (name : Option String) : Option (Operator Scene) :=
  (rule? rule).map fun r => ⟨name, r⟩

end Catalogue

end GeneticProgramming
