/-
  Statechart.Decimal.Text — floating point numbers as text, written and read.

  A number is written with the fewest digits that read back as it. `floatFormat` holds
  the decisions of the format: which powers of ten are written out, and how the others
  are marked. A text is read as a sign, digits with at most one point, and a power of
  ten, rounded correctly; infinities and the undefined number have names.
-/

import Statechart.Decimal.Shortest

namespace Statechart

/-- How a decimal is spelt. -/
structure DecimalFormat where
  /-- The smallest and the greatest power of ten of a leading digit that is written out. -/
  least : Int
  greatest : Int
  exponentMark : String
  /-- How many digits a marked power has at least. -/
  exponentWidth : Nat
  infinity : String
  undefined : String
  deriving DecidableEq, Repr

/-- Powers of ten from -4 to 15 are written out, others as in `1e+16` and `1.5e-05`; the undefined number has
    no sign. -/
def floatFormat : DecimalFormat := ⟨-4, 15, "e", 2, "inf", "nan"⟩

namespace Decimal

def zeros (n : Nat) : List Char := List.replicate n '0'

def digits (n : Nat) : List Char := Nat.toDigits 10 n

/-- Digits with the point behind the first `p` of them. -/
def positional (ds : List Char) (p : Int) : List Char :=
  if p ≤ 0 then ['0', '.'] ++ zeros (-p).toNat ++ ds
  else if ds.length ≤ p.toNat then ds ++ zeros (p.toNat - ds.length) ++ ['.', '0']
  else ds.take p.toNat ++ ['.'] ++ ds.drop p.toNat

/-- Digits with the point behind the first and the power of ten marked. -/
def marked (f : DecimalFormat) (ds : List Char) (power : Int) : List Char :=
  let e := digits power.natAbs
  let fraction := if ds.length ≤ 1 then [] else '.' :: ds.drop 1
  ds.take 1 ++ fraction ++ f.exponentMark.toList ++ [if power < 0 then '-' else '+']
    ++ zeros (f.exponentWidth - e.length) ++ e

def render (f : DecimalFormat) (d : Decimal) : List Char :=
  let ds := digits d.coefficient
  let p := ds.length + d.exponent
  if d.coefficient = 0 then positional ds 1
  else if f.least ≤ p - 1 ∧ p - 1 ≤ f.greatest then positional ds p
  else marked f ds (p - 1)

def withSign (negative : Bool) (cs : List Char) : String := .ofList (if negative then '-' :: cs else cs)

def Reading.render (f : DecimalFormat) : Reading → String
  | .nan => f.undefined
  | .infinite s => withSign s f.infinity.toList
  | .finite s m q => withSign s ((shortest m q).render f)

end Decimal

/-- The text of a floating point number. -/
def floatText (x : Float) : String := (Decimal.Reading.ofBits x.toBits.toNat).render floatFormat

namespace Decimal

def digitValue (c : Char) : Nat := c.toNat - '0'.toNat

def isDigit (c : Char) : Bool := '0'.toNat ≤ c.toNat && c.toNat ≤ '9'.toNat

def natOf (cs : List Char) : Nat := cs.foldl (fun n c => 10 * n + digitValue c) 0

/-- A sign, if there is one, and what follows it. -/
def splitSign : List Char → Bool × List Char
  | '-' :: cs => (true, cs)
  | '+' :: cs => (false, cs)
  | cs => (false, cs)

/-- The power of ten a text is marked with: none, or `e`, a sign and digits. -/
def exponent? : List Char → Option Int
  | [] => some 0
  | c :: cs =>
    let (negative, ds) := splitSign cs
    if (c = 'e' ∨ c = 'E') ∧ ds ≠ [] ∧ ds.all isDigit then
      some (if negative then -(natOf ds : Int) else natOf ds)
    else none

/-- Digits with at most one point and a marked power. -/
def unsigned? (cs : List Char) : Option Decimal :=
  let whole := cs.takeWhile isDigit
  let rest := cs.dropWhile isDigit
  let (fraction, tail) := match rest with
    | '.' :: r => (r.takeWhile isDigit, r.dropWhile isDigit)
    | r => ([], r)
  if whole = [] ∧ fraction = [] then none
  else (exponent? tail).map fun e => ⟨natOf (whole ++ fraction), e - fraction.length⟩

def toFloat (d : Decimal) : Float := .ofScientific d.coefficient (d.exponent < 0) d.exponent.natAbs

def lowercase (c : Char) : Char := if 'A'.toNat ≤ c.toNat ∧ c.toNat ≤ 'Z'.toNat then Char.ofNat (c.toNat + 32) else c

def special? (cs : List Char) : Option Float :=
  match String.ofList (cs.map lowercase) with
  | "inf" | "infinity" => some (1.0 / 0.0)
  | "nan" => some (0.0 / 0.0)
  | _ => none

end Decimal

/-- The floating point number a text stands for. -/
def readFloat? (s : String) : Option Float :=
  let (negative, cs) := Decimal.splitSign s.toList
  let size := (Decimal.special? cs).or ((Decimal.unsigned? cs).map Decimal.toFloat)
  size.map fun x => if negative then -x else x

end Statechart
