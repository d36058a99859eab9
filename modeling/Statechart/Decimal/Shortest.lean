/-
  Statechart.Decimal.Shortest — the shortest decimal that reads back as a given floating
  point number.

  A positive finite number is m · 2^q. The reals that round to it form an interval
  around it, whose ends belong to it exactly when m is even. Among the decimals of one
  digit, then two, and so on, the two neighbours of the number are tried; the first
  that lies in the interval is the answer, of two the nearer one, and of two equally
  near the one with the even last digit. Seventeen digits always suffice.
-/

namespace Statechart

/-- A natural number times a power of ten. -/
structure Decimal where
  coefficient : Nat
  exponent : Int
  deriving DecidableEq, Repr

namespace Decimal

/-- What the bits of a floating point number say: its sign (`true` for minus) and its size, `mantissa` · 2^`power`. -/
inductive Reading where
  | nan
  | infinite (negative : Bool)
  | finite (negative : Bool) (mantissa : Nat) (power : Int)
  deriving DecidableEq, Repr

def Reading.ofBits (bits : Nat) : Reading :=
  let negative : Bool := bits / Nat.pow 2 63 % 2 = 1
  let e : Nat := bits / Nat.pow 2 52 % 2048
  let f : Nat := bits % Nat.pow 2 52
  if e = 2047 then if f = 0 then .infinite negative else .nan
  else if e = 0 then .finite negative f (-1074)
  else .finite negative (f + Nat.pow 2 52) ((e : Int) - 1075)

/-- The number and the ends of its interval, as numerators over one denominator. -/
structure Span where
  low : Nat
  value : Nat
  high : Nat
  denominator : Nat
  closed : Bool
  deriving DecidableEq, Repr

/-- Below a power of two the numbers lie twice as close, so the interval is narrower on that side. -/
def span (m : Nat) (q : Int) : Span :=
  let below := if m = Nat.pow 2 52 ∧ q ≠ -1074 then 1 else 2
  let n := Nat.pow 2 (q - 2).toNat
  ⟨(4 * m - below) * n, 4 * m * n, (4 * m + 2) * n, Nat.pow 2 (2 - q).toNat, m % 2 = 0⟩

/-- How many digits a natural number has. -/
def digitCount : Nat → Nat → Nat
  | 0, _ => 0
  | fuel + 1, n => if n = 0 then 0 else digitCount fuel (n / 10) + 1

/-- How many zeros follow the point in `n / d`, for `n` below `d`. -/
def zeroCount : Nat → Nat → Nat → Nat
  | 0, _, _ => 0
  | fuel + 1, n, d => if d ≤ 10 * n then 0 else zeroCount fuel (10 * n) d + 1

/-- The power of ten just above `n / d`. -/
def magnitude (n d : Nat) : Int :=
  if d ≤ n then digitCount 400 (n / d) else -zeroCount 400 n d

/-- Of the number's two neighbours among the decimals with this exponent, the better that lies in the interval. -/
def neighbour? (s : Span) (e : Int) : Option Nat :=
  let up := Nat.pow 10 (-e).toNat
  let unit := s.denominator * Nat.pow 10 e.toNat
  let v := s.value * up
  let c := v / unit
  let lowFits := s.low * up < c * unit || s.closed && s.low * up = c * unit
  let highFits := (c + 1) * unit < s.high * up || s.closed && (c + 1) * unit = s.high * up
  let downwards := v - c * unit
  let upwards := (c + 1) * unit - v
  if lowFits && highFits then
    if downwards < upwards then some c
    else if upwards < downwards then some (c + 1)
    else if c % 2 = 0 then some c else some (c + 1)
  else if lowFits then some c
  else if highFits then some (c + 1)
  else none

/-- Try `digits` digits, then more. -/
def search (s : Span) (magnitude : Int) : Nat → Nat → Decimal
  | 0, _ => ⟨s.value / s.denominator, 0⟩
  | fuel + 1, digits =>
    match neighbour? s (magnitude - digits) with
    | some c => ⟨c, magnitude - digits⟩
    | none => search s magnitude fuel (digits + 1)

/-- The same decimal without zeros at the end of its coefficient. -/
def trim : Nat → Decimal → Decimal
  | 0, d => d
  | fuel + 1, d =>
    if d.coefficient ≠ 0 ∧ d.coefficient % 10 = 0 then trim fuel ⟨d.coefficient / 10, d.exponent + 1⟩ else d

/-- The shortest decimal that reads back as m · 2^q. -/
def shortest (m : Nat) (q : Int) : Decimal :=
  if m = 0 then ⟨0, 0⟩
  else
    let s := span m q
    trim 20 (search s (magnitude s.value s.denominator) 17 1)

end Decimal

end Statechart
