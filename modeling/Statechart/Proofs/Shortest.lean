/-
  Statechart.Proofs.Shortest — the digits written for a number are rounded to it.

  The interval of a number is a `Span` of fractions of one denominator, and a decimal is
  compared with its ends in whole numbers (`Span.Holds`). On the grid of decimals with k
  digits the two neighbours of the number are tried; with seventeen digits one of them is
  always inside (`neighbour?_seventeen`), so the search comes to an end.

  Proved (`shortest_spec`): the decimal found has a digit and at most eighteen, it is
  rounded to the number, and it is of the same power of ten as the number, or the next.
-/

import Statechart.Proofs.Rounding
import Mathlib

namespace Statechart.Decimal

/-- What a decimal stands for. -/
def value (d : Decimal) : ℚ := d.coefficient * 10 ^ d.exponent

/-! ## The size of a number -/

theorem digitCount_spec (fuel : Nat) {n : Nat} (h : n < 10 ^ fuel) :
    n < 10 ^ digitCount fuel n ∧ (0 < n → 10 ^ digitCount fuel n ≤ 10 * n) := by
  induction fuel generalizing n with
  | zero =>
    obtain rfl : n = 0 := by simpa using h
    simp [digitCount]
  | succ fuel ih =>
    rw [digitCount]
    by_cases h0 : n = 0
    · simp [h0]
    · rw [if_neg h0, Nat.pow_succ]
      obtain ⟨hlt, hle⟩ := ih (n := n / 10) (by rw [Nat.pow_succ] at h; omega)
      refine ⟨by omega, fun _ => ?_⟩
      by_cases hten : n < 10
      · have hzero : n / 10 = 0 := by omega
        have hcount : digitCount fuel 0 = 0 := by cases fuel <;> rfl
        rw [hzero, hcount]
        omega
      · have := hle (by omega)
        omega

theorem zeroCount_spec (fuel : Nat) {n d : Nat} (hlt : n < d) (h : d ≤ 10 ^ fuel * n) :
    10 ^ zeroCount fuel n d * n < d ∧ d ≤ 10 * (10 ^ zeroCount fuel n d * n) := by
  induction fuel generalizing n with
  | zero => omega
  | succ fuel ih =>
    rw [zeroCount]
    by_cases hd : d ≤ 10 * n
    · rw [if_pos hd]
      omega
    · rw [if_neg hd]
      have hstep := ih (n := 10 * n) (by omega) (by rw [Nat.pow_succ, Nat.mul_assoc] at h; exact h)
      rw [Nat.pow_succ, Nat.mul_assoc]
      exact hstep

/-- The magnitude of a number is the power of ten just above it. -/
theorem magnitude_spec {n d : Nat} (hd : 0 < d) (hlarge : n < 10 ^ 400 * d) (hsmall : d ≤ 10 ^ 400 * n) :
    (10 : ℚ) ^ (magnitude n d - 1) ≤ n / d ∧ (n : ℚ) / d < 10 ^ magnitude n d := by
  have hd' : (0 : ℚ) < d := by exact_mod_cast hd
  unfold magnitude
  split
  · rename_i hle
    obtain ⟨hlt, hge⟩ := digitCount_spec 400 (n := n / d) ((Nat.div_lt_iff_lt_mul hd).mpr hlarge)
    generalize digitCount 400 (n / d) = k at hlt hge
    have hge := hge (Nat.div_pos hle hd)
    constructor
    · rw [zpow_sub_one₀ (by norm_num), zpow_natCast, le_div_iff₀ hd', ← div_eq_mul_inv, div_mul_eq_mul_div,
        div_le_iff₀ (by norm_num)]
      have : 10 ^ k * d ≤ n * 10 := by
        calc 10 ^ k * d ≤ 10 * (n / d) * d := Nat.mul_le_mul_right _ hge
          _ = 10 * (n / d * d) := Nat.mul_assoc ..
          _ ≤ 10 * n := Nat.mul_le_mul_left _ (Nat.div_mul_le_self n d)
          _ = n * 10 := Nat.mul_comm ..
      exact_mod_cast this
    · rw [zpow_natCast, div_lt_iff₀ hd']
      exact_mod_cast (Nat.div_lt_iff_lt_mul hd).mp hlt
  · rename_i hlt
    obtain ⟨hbelow, habove⟩ := zeroCount_spec 400 (by omega) hsmall
    generalize zeroCount 400 n d = k at hbelow habove
    constructor
    · rw [zpow_sub_one₀ (by norm_num), zpow_neg, zpow_natCast, le_div_iff₀ hd', ← mul_inv,
        inv_mul_le_iff₀ (by positivity)]
      have : (d : ℚ) ≤ 10 * (10 ^ k * n) := by exact_mod_cast habove
      linarith
    · rw [zpow_neg, zpow_natCast, div_lt_iff₀ hd', lt_inv_mul_iff₀ (by positivity)]
      exact_mod_cast hbelow

/-! ## Trimming -/

theorem trim_value (fuel : Nat) (d : Decimal) : (trim fuel d).value = d.value := by
  induction fuel generalizing d with
  | zero => rfl
  | succ fuel ih =>
    rw [trim]
    split
    · rename_i h
      rw [ih, value, value]
      have hten : d.coefficient = d.coefficient / 10 * 10 := by omega
      conv_rhs => rw [hten]
      rw [zpow_add_one₀ (by norm_num)]
      push_cast
      ring
    · rfl

theorem trim_le (fuel : Nat) (d : Decimal) : (trim fuel d).coefficient ≤ d.coefficient := by
  induction fuel generalizing d with
  | zero => exact le_refl _
  | succ fuel ih =>
    rw [trim]
    split
    · exact (ih _).trans (Nat.div_le_self _ _)
    · exact le_refl _

/-! ## Neighbours -/

/-- A decimal lies in the interval of a number. -/
structure Span.Holds (s : Span) (x : ℚ) : Prop where
  low : (s.low : ℚ) / s.denominator ≤ x
  high : x ≤ s.high / s.denominator
  lowClosed : x = s.low / s.denominator → s.closed = true
  highClosed : x = s.high / s.denominator → s.closed = true

theorem Span.Holds.of_le {s : Span} (hd : 0 < s.denominator) (hhigh : s.value < s.high) {x : ℚ}
    (hx : x ≤ s.value / s.denominator)
    (hlow : (s.low : ℚ) / s.denominator < x ∨ s.closed = true ∧ (s.low : ℚ) / s.denominator = x) : s.Holds x := by
  have hd' : (0 : ℚ) < s.denominator := by exact_mod_cast hd
  have hlt : (s.value : ℚ) / s.denominator < s.high / s.denominator := by gcongr
  refine ⟨?_, (hx.trans_lt hlt).le, fun h => ?_, fun h => absurd h (hx.trans_lt hlt).ne⟩
  · rcases hlow with h | ⟨-, h⟩
    · exact h.le
    · exact h.le
  · rcases hlow with h' | ⟨hc, -⟩
    · exact absurd h h'.ne'
    · exact hc

theorem Span.Holds.of_gt {s : Span} (hd : 0 < s.denominator) (hlow : s.low < s.value) {x : ℚ}
    (hx : (s.value : ℚ) / s.denominator < x)
    (hhigh : x < s.high / s.denominator ∨ s.closed = true ∧ x = (s.high : ℚ) / s.denominator) : s.Holds x := by
  have hd' : (0 : ℚ) < s.denominator := by exact_mod_cast hd
  have hlt : (s.low : ℚ) / s.denominator < s.value / s.denominator := by gcongr
  refine ⟨(hlt.trans hx).le, ?_, fun h => absurd h (hlt.trans hx).ne', fun h => ?_⟩
  · rcases hhigh with h | ⟨-, h⟩
    · exact h.le
    · exact h.le
  · rcases hhigh with h' | ⟨hc, -⟩
    · exact absurd h h'.ne
    · exact hc

section Neighbour

variable {s : Span} {e : Int}

/-- What `neighbour?` compares: `a` parts of the denominator with `b` units. -/
theorem unit_eq (e : Int) (d : Nat) :
    ((d * Nat.pow 10 e.toNat : Nat) : ℚ) = d * 10 ^ e * (Nat.pow 10 (-e).toNat : Nat) := by
  have hpow : (10 : ℚ) ^ e * 10 ^ (-e).toNat = 10 ^ e.toNat := by
    rw [← zpow_natCast, ← zpow_natCast, ← zpow_add₀ (by norm_num)]
    congr 1
    omega
  rw [mul_assoc]
  push_cast
  rw [Nat.pow_eq, Nat.pow_eq]
  push_cast
  rw [hpow]

theorem lt_unit_iff (e : Int) {d : Nat} (hd : 0 < d) (a b : Nat) :
    a * Nat.pow 10 (-e).toNat < b * (d * Nat.pow 10 e.toNat) ↔ (a : ℚ) / d < b * 10 ^ e := by
  have hd' : (0 : ℚ) < d := by exact_mod_cast hd
  have hu : (0 : ℚ) < (Nat.pow 10 (-e).toNat : Nat) := by exact_mod_cast Nat.pow_pos (by decide)
  rw [← Nat.cast_lt (α := ℚ), Nat.cast_mul, Nat.cast_mul b, unit_eq, ← mul_assoc, mul_lt_mul_iff_left₀ hu,
    div_lt_iff₀ hd']
  ring_nf

theorem unit_lt_iff (e : Int) {d : Nat} (hd : 0 < d) (a b : Nat) :
    b * (d * Nat.pow 10 e.toNat) < a * Nat.pow 10 (-e).toNat ↔ (b : ℚ) * 10 ^ e < a / d := by
  have hd' : (0 : ℚ) < d := by exact_mod_cast hd
  have hu : (0 : ℚ) < (Nat.pow 10 (-e).toNat : Nat) := by exact_mod_cast Nat.pow_pos (by decide)
  rw [← Nat.cast_lt (α := ℚ), Nat.cast_mul, Nat.cast_mul a, unit_eq, ← mul_assoc, mul_lt_mul_iff_left₀ hu,
    lt_div_iff₀ hd']
  ring_nf

theorem eq_unit_iff (e : Int) {d : Nat} (hd : 0 < d) (a b : Nat) :
    a * Nat.pow 10 (-e).toNat = b * (d * Nat.pow 10 e.toNat) ↔ (a : ℚ) / d = b * 10 ^ e := by
  have h₁ := lt_unit_iff e hd a b
  have h₂ := unit_lt_iff e hd a b
  constructor
  · intro h
    exact le_antisymm (not_lt.mp fun hlt => by rw [← h₂, h] at hlt; exact lt_irrefl _ hlt)
      (not_lt.mp fun hlt => by rw [← h₁, h] at hlt; exact lt_irrefl _ hlt)
  · intro h
    exact le_antisymm (not_lt.mp fun hlt => by rw [h₂, h] at hlt; exact lt_irrefl _ hlt)
      (not_lt.mp fun hlt => by rw [h₁, h] at hlt; exact lt_irrefl _ hlt)

/-- The interval has the number strictly inside. -/
structure Span.Proper (s : Span) : Prop where
  denominator : 0 < s.denominator
  low : s.low < s.value
  high : s.value < s.high

/-- The number itself. -/
def Span.size (s : Span) : ℚ := s.value / s.denominator

/-- The units below the number. -/
def floorUnits (s : Span) (e : Int) : Nat :=
  s.value * Nat.pow 10 (-e).toNat / (s.denominator * Nat.pow 10 e.toNat)

theorem floorUnits_spec (hs : s.Proper) :
    (floorUnits s e : ℚ) * 10 ^ e ≤ s.size ∧ s.size < ((floorUnits s e + 1 : Nat) : ℚ) * 10 ^ e := by
  have hunit : 0 < s.denominator * Nat.pow 10 e.toNat := Nat.mul_pos hs.denominator (Nat.pow_pos (by decide))
  constructor
  · exact not_lt.mp fun h => (Nat.div_mul_le_self _ _).not_gt ((lt_unit_iff e hs.denominator _ _).mpr h)
  · refine (lt_unit_iff e hs.denominator _ _).mp ?_
    rw [Nat.succ_mul]
    exact Nat.lt_div_mul_add hunit

/-- The neighbour below lies in the interval. -/
def lowFits (s : Span) (e : Int) : Bool :=
  s.low * Nat.pow 10 (-e).toNat < floorUnits s e * (s.denominator * Nat.pow 10 e.toNat) ||
    s.closed && s.low * Nat.pow 10 (-e).toNat = floorUnits s e * (s.denominator * Nat.pow 10 e.toNat)

/-- The neighbour above lies in the interval. -/
def highFits (s : Span) (e : Int) : Bool :=
  (floorUnits s e + 1) * (s.denominator * Nat.pow 10 e.toNat) < s.high * Nat.pow 10 (-e).toNat ||
    s.closed && (floorUnits s e + 1) * (s.denominator * Nat.pow 10 e.toNat) = s.high * Nat.pow 10 (-e).toNat

theorem lowFits_iff (hs : s.Proper) : lowFits s e = true ↔
    (s.low : ℚ) / s.denominator < floorUnits s e * 10 ^ e ∨
      s.closed = true ∧ (s.low : ℚ) / s.denominator = floorUnits s e * 10 ^ e := by
  rw [lowFits, Bool.or_eq_true, Bool.and_eq_true, decide_eq_true_iff, decide_eq_true_iff,
    lt_unit_iff e hs.denominator, eq_unit_iff e hs.denominator]

theorem highFits_iff (hs : s.Proper) : highFits s e = true ↔
    ((floorUnits s e + 1 : Nat) : ℚ) * 10 ^ e < s.high / s.denominator ∨
      s.closed = true ∧ ((floorUnits s e + 1 : Nat) : ℚ) * 10 ^ e = s.high / s.denominator := by
  rw [highFits, Bool.or_eq_true, Bool.and_eq_true, decide_eq_true_iff, decide_eq_true_iff,
    unit_lt_iff e hs.denominator, eq_comm (b := s.high * _), eq_unit_iff e hs.denominator,
    eq_comm (b := (s.high : ℚ) / s.denominator)]

/-- Of the two neighbours one that lies in the interval is chosen, if there is one. -/
theorem neighbour?_cases (s : Span) (e : Int) :
    neighbour? s e = some (floorUnits s e) ∧ lowFits s e = true ∨
    neighbour? s e = some (floorUnits s e + 1) ∧ highFits s e = true ∨
    neighbour? s e = none ∧ lowFits s e = false ∧ highFits s e = false := by
  have heq : neighbour? s e =
      if lowFits s e && highFits s e then
        if s.value * Nat.pow 10 (-e).toNat - floorUnits s e * (s.denominator * Nat.pow 10 e.toNat) <
            (floorUnits s e + 1) * (s.denominator * Nat.pow 10 e.toNat) - s.value * Nat.pow 10 (-e).toNat then
          some (floorUnits s e)
        else if (floorUnits s e + 1) * (s.denominator * Nat.pow 10 e.toNat) - s.value * Nat.pow 10 (-e).toNat <
            s.value * Nat.pow 10 (-e).toNat - floorUnits s e * (s.denominator * Nat.pow 10 e.toNat) then
          some (floorUnits s e + 1)
        else if floorUnits s e % 2 = 0 then some (floorUnits s e) else some (floorUnits s e + 1)
      else if lowFits s e then some (floorUnits s e)
      else if highFits s e then some (floorUnits s e + 1)
      else none := rfl
  cases hlow : lowFits s e <;> cases hhigh : highFits s e
  · simp [heq, hlow, hhigh]
  · simp [heq, hlow, hhigh]
  · simp [heq, hlow, hhigh]
  · rw [hlow, hhigh] at heq
    simp only [Bool.and_true, if_true] at heq
    split at heq
    · exact Or.inl ⟨heq, rfl⟩
    · split at heq
      · exact Or.inr (Or.inl ⟨heq, rfl⟩)
      · split at heq
        · exact Or.inl ⟨heq, rfl⟩
        · exact Or.inr (Or.inl ⟨heq, rfl⟩)

/-- A neighbour that is chosen lies in the interval, and no unit away from the number. -/
theorem neighbour?_eq_some (hs : s.Proper) {c : Nat} (h : neighbour? s e = some c) :
    s.Holds (c * 10 ^ e) ∧ (c = floorUnits s e ∨ c = floorUnits s e + 1) := by
  rcases neighbour?_cases s e with ⟨heq, hfits⟩ | ⟨heq, hfits⟩ | ⟨heq, -⟩
  · obtain rfl := Option.some.inj (heq.symm.trans h)
    exact ⟨.of_le hs.denominator hs.high (floorUnits_spec hs).1 ((lowFits_iff hs).mp hfits), Or.inl rfl⟩
  · obtain rfl := Option.some.inj (heq.symm.trans h)
    exact ⟨.of_gt hs.denominator hs.low (floorUnits_spec hs).2 ((highFits_iff hs).mp hfits), Or.inr rfl⟩
  · rw [heq] at h
    cases h

/-- If half a unit is less than the distance to both ends, one of the neighbours lies in the interval. -/
theorem neighbour?_ne_none (hs : s.Proper) (hlow : (10 : ℚ) ^ e / 2 < s.size - s.low / s.denominator)
    (hhigh : (10 : ℚ) ^ e / 2 < s.high / s.denominator - s.size) : neighbour? s e ≠ none := by
  intro hnone
  obtain ⟨hbelow, habove⟩ := floorUnits_spec (e := e) hs
  rcases neighbour?_cases s e with ⟨heq, -⟩ | ⟨heq, -⟩ | ⟨-, hl, hh⟩
  · rw [heq] at hnone
    cases hnone
  · rw [heq] at hnone
    cases hnone
  · have hl' : ¬ (s.low : ℚ) / s.denominator < floorUnits s e * 10 ^ e := fun h => by
      rw [(lowFits_iff hs).mpr (Or.inl h)] at hl
      cases hl
    have hh' : ¬ ((floorUnits s e + 1 : Nat) : ℚ) * 10 ^ e < s.high / s.denominator := fun h => by
      rw [(highFits_iff hs).mpr (Or.inl h)] at hh
      cases hh
    push_cast at hh' habove
    linarith

end Neighbour

/-- Once some number of digits suffices, the search ends with no more than that. -/
theorem search_spec {s : Span} {g : Int} {fuel digits last : Nat} (hfuel : digits + fuel = last + 1)
    (hlast : digits ≤ last) (h : neighbour? s (g - last) ≠ none) :
    ∃ k, digits ≤ k ∧ k ≤ last ∧ (search s g fuel digits).exponent = g - k ∧
      neighbour? s (g - k) = some (search s g fuel digits).coefficient := by
  induction fuel generalizing digits with
  | zero => omega
  | succ fuel ih =>
    rw [search]
    cases hn : neighbour? s (g - digits) with
    | some c => exact ⟨digits, le_refl _, hlast, rfl, hn⟩
    | none =>
      have hne : digits ≠ last := by
        rintro rfl
        exact h hn
      obtain ⟨k, hk, hk', he, hc⟩ := @ih (digits + 1) (by omega) (by omega)
      exact ⟨k, by omega, hk', he, hc⟩

/-! ## The interval of a number -/

open Rounding

theorem span_scale (a : Nat) (q : Int) :
    ((a * Nat.pow 2 (q - 2).toNat : Nat) : ℚ) / (Nat.pow 2 (2 - q).toNat : Nat) = a / 4 * 2 ^ q := by
  have hpow : (2 : ℚ) ^ (q - 2).toNat = 2 ^ q / 4 * 2 ^ (2 - q).toNat := by
    have hfour : (4 : ℚ) = 2 ^ (2 : Int) := by norm_num
    rw [hfour, ← zpow_sub₀ two_ne_zero, ← zpow_natCast, ← zpow_natCast, ← zpow_add₀ two_ne_zero]
    congr 1
    omega
  rw [Nat.pow_eq, Nat.pow_eq, div_eq_iff (by positivity)]
  push_cast
  rw [hpow]
  ring

section Canonical

variable {m : Nat} {q : Int}

theorem span_size (m : Nat) (q : Int) : (span m q).size = m * 2 ^ q := by
  refine (span_scale (4 * m) q).trans ?_
  push_cast
  ring

theorem span_low (h : Canonical m q) : ((span m q).low : ℚ) / (span m q).denominator = (m - margin m q) * 2 ^ q := by
  refine (span_scale _ q).trans ?_
  have hpos := h.pos
  rw [margin, ← Nat.pow_eq]
  split
  · rw [Nat.cast_sub (by omega)]
    push_cast
    ring
  · rw [Nat.cast_sub (by omega)]
    push_cast
    ring

theorem span_high (m : Nat) (q : Int) : ((span m q).high : ℚ) / (span m q).denominator = (m + 1 / 2) * 2 ^ q := by
  refine (span_scale (4 * m + 2) q).trans ?_
  push_cast
  ring

theorem span_proper (h : Canonical m q) : (span m q).Proper := by
  have hpos := h.pos
  have hn : 0 < Nat.pow 2 (q - 2).toNat := Nat.pow_pos (by decide)
  refine ⟨Nat.pow_pos (by decide), Nat.mul_lt_mul_of_pos_right ?_ hn, Nat.mul_lt_mul_of_pos_right (by omega) hn⟩
  split <;> omega

theorem rounds_of_holds (h : Canonical m q) {x : ℚ} (hx : (span m q).Holds x) : Rounds x m q := by
  have hclosed : (span m q).closed = true → m % 2 = 0 := of_decide_eq_true
  refine ⟨span_low h ▸ hx.low, span_high m q ▸ hx.high, fun heq => hclosed (hx.lowClosed ?_),
    fun heq => hclosed (hx.highClosed ?_)⟩
  · rw [span_low h, heq]
  · rw [span_high, heq]

theorem size_bounds (h : Canonical m q) : (m : ℚ) * 2 ^ q < 10 ^ 400 ∧ 1 ≤ 10 ^ 400 * ((m : ℚ) * 2 ^ q) := by
  have hpos : (1 : ℚ) ≤ m := by exact_mod_cast h.pos
  have hbelow : (m : ℚ) < 2 ^ 53 := by exact_mod_cast h.below
  constructor
  · calc (m : ℚ) * 2 ^ q < 2 ^ 53 * 2 ^ q := by gcongr
      _ ≤ 2 ^ 53 * 2 ^ (971 : Int) := by gcongr; exacts [one_le_two, h.greatest]
      _ = (2 ^ 64) ^ 16 := by rw [← zpow_natCast 2 53, ← zpow_add₀ two_ne_zero, ← pow_mul]; exact zpow_natCast 2 1024
      _ < (10 ^ 25) ^ 16 := by gcongr; norm_num
      _ = 10 ^ 400 := by rw [← pow_mul]
  · calc (1 : ℚ) ≤ 10 ^ 400 * (1 * 2 ^ (-1074 : Int)) := by
          rw [one_mul, zpow_neg, ← div_eq_mul_inv, le_div_iff₀ (by positivity), one_mul]
          calc (2 : ℚ) ^ (1074 : Int) ≤ 2 ^ (1080 : Int) := by gcongr <;> norm_num
            _ = (2 ^ 54) ^ 20 := by rw [← pow_mul]; exact zpow_natCast 2 1080
            _ ≤ (10 ^ 20) ^ 20 := by gcongr; norm_num
            _ = 10 ^ 400 := by rw [← pow_mul]
      _ ≤ 10 ^ 400 * (m * 2 ^ q) := by gcongr; exacts [one_le_two, h.least]

/-- Seventeen digits suffice. -/
theorem neighbour?_seventeen (h : Canonical m q) {g : Int} (hg : (10 : ℚ) ^ (g - 1) ≤ m * 2 ^ q) :
    neighbour? (span m q) (g - (17 : Nat)) ≠ none := by
  have hunit : (10 : ℚ) ^ (g - (17 : Nat)) ≤ m * 2 ^ q / 10 ^ 16 := by
    have : (10 : ℚ) ^ (g - (17 : Nat)) = 10 ^ (g - 1) / 10 ^ 16 := by
      rw [← zpow_natCast, ← zpow_sub₀ (by norm_num)]
      congr 1
      push_cast
      omega
    rw [this]
    gcongr
  have hq : (0 : ℚ) < 2 ^ q := by positivity
  have hbelow : (m : ℚ) < 2 ^ 53 := by exact_mod_cast h.below
  have hhalf : (m : ℚ) / 10 ^ 16 / 2 < 1 / 2 := by
    rw [div_div, div_lt_div_iff₀ (by positivity) (by positivity)]
    linarith
  have hmargin : (m : ℚ) / 10 ^ 16 / 2 < margin m q := by
    unfold margin
    split
    · rename_i hm
      rw [hm.1]
      norm_num
    · exact hhalf
  refine neighbour?_ne_none (span_proper h) ?_ ?_
  · rw [span_size, span_low h]
    nlinarith
  · rw [span_size, span_high]
    nlinarith

theorem ten_zpow {e f : Int} (j : Nat) (h : f = e + j) : (10 : ℚ) ^ f = 10 ^ j * 10 ^ e := by
  rw [h, zpow_add₀ (by norm_num), zpow_natCast, mul_comm]

/-- A number of a magnitude has as many digits before the point as there are units in it. -/
theorem units_bounds {v : ℚ} {f k : Nat} {g : Int} (hk : 1 ≤ k) (hbelow : (f : ℚ) * 10 ^ (g - k) ≤ v)
    (habove : v < ((f + 1 : Nat) : ℚ) * 10 ^ (g - k)) (hlow : (10 : ℚ) ^ (g - 1) ≤ v) (hhigh : v < 10 ^ g) :
    10 ^ (k - 1) ≤ f ∧ f + 1 ≤ 10 ^ k := by
  have hunit : (0 : ℚ) < 10 ^ (g - k) := by positivity
  rw [ten_zpow (k - 1) (by omega : g - 1 = g - k + (k - 1 : Nat))] at hlow
  rw [ten_zpow k (by omega : g = g - k + k)] at hhigh
  constructor
  · have := lt_of_mul_lt_mul_right (hlow.trans_lt habove) hunit.le
    exact Nat.lt_succ_iff.mp (by exact_mod_cast this)
  · have := lt_of_mul_lt_mul_right (hbelow.trans_lt hhigh) hunit.le
    exact_mod_cast this

/-- The shortest decimal lies in the interval and is of the size of the number. -/
theorem shortest_spec (h : Canonical m q) :
    0 < (shortest m q).coefficient ∧ (shortest m q).coefficient ≤ 10 ^ 17 ∧ Rounds (shortest m q).value m q ∧
      ∃ g : Int, (10 : ℚ) ^ (g - 1) ≤ m * 2 ^ q ∧ (m : ℚ) * 2 ^ q < 10 ^ g ∧
        (10 : ℚ) ^ (g - 1) ≤ (shortest m q).value ∧ (shortest m q).value ≤ 10 ^ g := by
  have hs := span_proper h
  have hd : (0 : ℚ) < (span m q).denominator := by exact_mod_cast hs.denominator
  obtain ⟨g, hg⟩ : ∃ g, magnitude (span m q).value (span m q).denominator = g := ⟨_, rfl⟩
  obtain ⟨hlarge, hsmall⟩ := size_bounds h
  rw [← span_size m q, Span.size] at hlarge hsmall
  obtain ⟨hlow, hhigh⟩ := magnitude_spec (n := (span m q).value) hs.denominator
    (by rw [div_lt_iff₀ hd] at hlarge; exact_mod_cast hlarge)
    (by rw [mul_div_assoc', le_div_iff₀ hd, one_mul] at hsmall; exact_mod_cast hsmall)
  rw [hg] at hlow hhigh
  have hsize := span_size m q
  rw [Span.size] at hsize
  rw [hsize] at hlow hhigh
  obtain ⟨k, hk, hk', hexponent, hchosen⟩ :=
    search_spec (s := span m q) (g := g) (by decide : 1 + 17 = 17 + 1) (by decide) (neighbour?_seventeen h hlow)
  have hshort : shortest m q = trim 20 (search (span m q) g 17 1) := by
    rw [shortest, if_neg h.pos.ne', ← hg]
  obtain ⟨hholds, hfloor⟩ := neighbour?_eq_some hs hchosen
  obtain ⟨hbelow, habove⟩ := floorUnits_spec (e := g - k) hs
  rw [span_size] at hbelow habove
  obtain ⟨hmany, hfew⟩ := units_bounds hk hbelow habove hlow hhigh
  obtain ⟨c, hc⟩ : ∃ c, (search (span m q) g 17 1).coefficient = c := ⟨_, rfl⟩
  rw [hc] at hholds hfloor
  have hvalue : (shortest m q).value = c * 10 ^ (g - k) := by rw [hshort, trim_value, value, hc, hexponent]
  have hsize : (10 : ℚ) ^ (g - 1) ≤ (shortest m q).value ∧ (shortest m q).value ≤ 10 ^ g := by
    rw [hvalue, ten_zpow (k - 1) (by omega : g - 1 = g - k + (k - 1 : Nat)), ten_zpow k (by omega : g = g - k + k)]
    constructor
    · gcongr
      exact_mod_cast (by omega : 10 ^ (k - 1) ≤ c)
    · gcongr
      exact_mod_cast (by omega : c ≤ 10 ^ k)
  refine ⟨Nat.pos_of_ne_zero fun hzero => ?_, ?_, ?_, g, hlow, hhigh, hsize⟩
  · have hpos : (0 : ℚ) < 10 ^ (g - 1) := by positivity
    have := hpos.trans_le hsize.1
    rw [value, hzero] at this
    simp at this
  · rw [hshort]
    calc _ ≤ c := hc ▸ trim_le _ _
      _ ≤ 10 ^ k := by omega
      _ ≤ 10 ^ 17 := Nat.pow_le_pow_right (by decide) hk'
  · rw [hvalue]
    exact rounds_of_holds h hholds

end Canonical

end Statechart.Decimal
