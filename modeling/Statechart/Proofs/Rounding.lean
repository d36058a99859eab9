/-
  Statechart.Proofs.Rounding — decimals are read as the nearest floating point number.

  A positive floating point number is m · 2^q in one form (`Canonical`), and the numbers
  that are rounded to it form an interval (`Rounds`), narrower below a power of two. To
  divide, a quotient is taken with binary digits enough, and two further bits say what
  of it is left (`Shows`). Shifting keeps what they say (`Shows.shift`), so that the
  mantissa found at the exponent of a number of this size is the nearest (`Nearest`);
  one shift more is due if it has become a power of two.

  Proved (`ofScientific_eq`): c / 10^k is read as the number to which it is rounded, both
  where the power of ten is looked up in a table and where it is not. What is read is
  never negative and always a number (`reads_positive`).
-/

import Statechart.Decimal.Text
import Mathlib

namespace Statechart.Rounding

open Float.Model Float.Model.UnpackedFloat

/-! ## Nearest -/

/-- `n` is the natural number nearest to `x`, the even one of two. -/
structure Nearest (x : ℚ) (n : Nat) : Prop where
  low : (n : ℚ) - 1 / 2 ≤ x
  high : x ≤ n + 1 / 2
  lowEven : x = n - 1 / 2 → n % 2 = 0
  highEven : x = n + 1 / 2 → n % 2 = 0

theorem Nearest.unique {x : ℚ} {n k : Nat} (hn : Nearest x n) (hk : Nearest x k) : n = k := by
  have h₁ : (n : ℚ) ≤ k + 1 := by linarith [hn.low, hk.high]
  have h₂ : (k : ℚ) ≤ n + 1 := by linarith [hk.low, hn.high]
  have h₁' : n ≤ k + 1 := by exact_mod_cast h₁
  have h₂' : k ≤ n + 1 := by exact_mod_cast h₂
  rcases Nat.lt_trichotomy n k with hlt | heq | hgt
  · obtain rfl : k = n + 1 := by omega
    have hx : x = n + 1 / 2 := by
      have := hk.low
      push_cast at this
      linarith [hn.high]
    have h1 := hn.highEven hx
    have h2 := hk.lowEven (by push_cast; linarith)
    omega
  · exact heq
  · obtain rfl : n = k + 1 := by omega
    have hx : x = k + 1 / 2 := by
      have := hn.low
      push_cast at this
      linarith [hk.high]
    have h1 := hk.highEven hx
    have h2 := hn.lowEven (by push_cast; linarith)
    omega

theorem Nearest.of_lt {x : ℚ} {n : Nat} (hlow : (n : ℚ) - 1 / 2 < x) (hhigh : x < n + 1 / 2) : Nearest x n :=
  ⟨hlow.le, hhigh.le, fun h => absurd h hlow.ne', fun h => absurd h hhigh.ne⟩

/-- What a mantissa and its two further bits say of a number. -/
def Shows (em : ExtendedMantissa) (x : ℚ) : Prop :=
  match em.roundBit, em.stickyBit with
  | false, false => x = em.mantissa
  | false, true => em.mantissa < x ∧ x < em.mantissa + 1 / 2
  | true, false => x = em.mantissa + 1 / 2
  | true, true => em.mantissa + 1 / 2 < x ∧ x < em.mantissa + 1

namespace Shows

variable {em : ExtendedMantissa} {x : ℚ}

theorem bounds (h : Shows em x) : em.mantissa ≤ x ∧ x < em.mantissa + 1 := by
  obtain ⟨m, r, s⟩ := em
  cases r <;> cases s <;> simp only [Shows] at h ⊢ <;> constructor <;> linarith

theorem half (h : Shows em x) : Shows em.shiftRightOne (x / 2) := by
  obtain ⟨m, r, s⟩ := em
  -- The digit that is dropped becomes the round bit.
  have hdigit : (m : ℚ) = 2 * (m / 2 : Nat) + (m % 2 : Nat) := by exact_mod_cast (Nat.div_add_mod m 2).symm
  rcases Nat.mod_two_eq_zero_or_one m with hm | hm <;> rw [hm] at hdigit <;> push_cast at hdigit <;>
    cases r <;> cases s <;>
    simp only [Shows, ExtendedMantissa.shiftRightOne, hm, Bool.or_false, Bool.or_true, Nat.reduceBNe] at h ⊢ <;>
    and_intros <;> linarith

theorem shift (h : Shows em x) (n : Nat) : Shows (em >>> n) (x / 2 ^ n) := by
  induction n with
  | zero =>
    rw [pow_zero, div_one]
    exact h
  | succ n ih =>
    rw [pow_succ, ← div_div]
    exact ih.half

theorem nearest (h : Shows em x) : Nearest x em.roundedMantissa := by
  obtain ⟨m, r, s⟩ := em
  cases r <;> cases s
  · obtain rfl : x = m := h
    exact .of_lt (n := m) (by linarith) (by linarith)
  · obtain ⟨hlow, hhigh⟩ : (m : ℚ) < x ∧ x < m + 1 / 2 := h
    exact .of_lt (n := m) (by linarith) hhigh
  · obtain rfl : x = m + 1 / 2 := h
    show Nearest _ (m + m % 2)
    rcases Nat.mod_two_eq_zero_or_one m with hm | hm
    · rw [hm, Nat.add_zero]
      exact ⟨by linarith, le_refl _, fun _ => hm, fun _ => hm⟩
    · have heven : (m + 1) % 2 = 0 := by omega
      rw [hm]
      exact ⟨by push_cast; linarith, by push_cast; linarith, fun _ => heven, fun _ => heven⟩
  · obtain ⟨hlow, hhigh⟩ : (m : ℚ) + 1 / 2 < x ∧ x < m + 1 := h
    exact .of_lt (n := m + 1) (by push_cast; linarith) (by push_cast; linarith)

end Shows

/-! ## Floating point numbers -/

/-- The one form of a positive floating point number: as many binary digits as there are, or the least power of two. -/
structure Canonical (m : Nat) (q : Int) : Prop where
  pos : 0 < m
  below : m < 2 ^ 53
  least : -1074 ≤ q
  greatest : q ≤ 971
  full : 2 ^ 52 ≤ m ∨ q = -1074

/-- Half the distance to the number below, in units of the last binary digit. -/
def margin (m : Nat) (q : Int) : ℚ := if m = 2 ^ 52 ∧ q ≠ -1074 then 1 / 4 else 1 / 2

/-- The numbers that are rounded to `m` · 2^`q`. -/
structure Rounds (v : ℚ) (m : Nat) (q : Int) : Prop where
  low : (m - margin m q) * 2 ^ q ≤ v
  high : v ≤ (m + 1 / 2) * 2 ^ q
  lowEven : v = (m - margin m q) * 2 ^ q → m % 2 = 0
  highEven : v = (m + 1 / 2) * 2 ^ q → m % 2 = 0

/-- By how many binary digits a mantissa is too long. -/
def excess (m : Nat) (e : Int) : Nat := (max ((m.log2 : Int) + 1 + e - 53) (-1074) - e).toNat

theorem shiftToTargetExponent_eq (m : Nat) (e : Int) (a : Accuracy) :
    shiftToTargetExponent Format.binary64 m e a =
      (ExtendedMantissa.ofMantissaAndAccuracy m a >>> excess m e, e + (excess m e : Int)) := rfl

/-- Where the first shift ends: at the exponent that a number of this size has. -/
structure Aligned (v : ℚ) (t : Int) : Prop where
  least : -1074 ≤ t
  below : v / 2 ^ t < 2 ^ 53
  full : t = -1074 ∨ 2 ^ 52 ≤ v / 2 ^ t

theorem mantissa_ofMantissaAndAccuracy (m : Nat) (a : Accuracy) :
    (ExtendedMantissa.ofMantissaAndAccuracy m a).mantissa = m := by
  cases a with
  | exact => rfl
  | inexact o => cases o <;> rfl

theorem div_zpow_add (v : ℚ) (e : Int) (k : Nat) : v / 2 ^ (e + (k : Int)) = v / 2 ^ e / 2 ^ k := by
  rw [zpow_add₀ two_ne_zero, zpow_natCast, div_div]

theorem shows_shiftToTargetExponent {v : ℚ} {m : Nat} {e : Int} {a : Accuracy}
    (h : Shows (.ofMantissaAndAccuracy m a) (v / 2 ^ e)) (he : e ≤ -1074 ∨ 2 ^ 52 ≤ m) :
    ∃ em t, shiftToTargetExponent Format.binary64 m e a = (em, t) ∧ Shows em (v / 2 ^ t) ∧ Aligned v t := by
  have hshift := shiftToTargetExponent_eq m e a
  obtain ⟨k, hk⟩ : ∃ k, excess m e = k := ⟨_, rfl⟩
  rw [hk] at hshift
  unfold excess at hk
  have hlog : m.log2 ≤ 52 + k := by omega
  have hlow := h.bounds.1
  have hhigh := h.bounds.2
  rw [mantissa_ofMantissaAndAccuracy] at hlow hhigh
  refine ⟨_, _, hshift, ?_, ?_, ?_, ?_⟩
  · rw [div_zpow_add]
    exact h.shift k
  · omega
  · have hm : (m : ℚ) + 1 ≤ 2 ^ 53 * 2 ^ k := by
      have hlt : m < 2 ^ (m.log2 + 1) := Nat.lt_log2_self
      have hle : 2 ^ (m.log2 + 1) ≤ 2 ^ (53 + k) := Nat.pow_le_pow_right (by decide) (by omega)
      rw [← pow_add]
      exact_mod_cast hlt.trans_le hle
    rw [div_zpow_add, div_lt_iff₀ (by positivity)]
    exact hhigh.trans_le hm
  · by_cases hmin : e + (k : Int) = -1074
    · exact Or.inl hmin
    right
    have hfull : m.log2 = 52 + k := by
      rcases he with he | he
      · omega
      · have : 52 ≤ m.log2 := (Nat.le_log2 (by omega)).mpr he
        omega
    have hm : (2 : ℚ) ^ 52 * 2 ^ k ≤ m := by
      rw [← pow_add, ← hfull]
      exact_mod_cast Nat.log2_self_le (by rintro rfl; simp at hfull; omega)
    rw [div_zpow_add, le_div_iff₀ (by positivity)]
    exact hm.trans hlow

/-- A mantissa that is not too long stays. -/
theorem shiftToTargetExponent_short {n : Nat} {t : Int} (hn : n < 2 ^ 53) (ht : -1074 ≤ t) :
    shiftToTargetExponent Format.binary64 n t .exact = (⟨n, false, false⟩, t) := by
  have hlog : n.log2 ≤ 52 := by
    by_cases h0 : n = 0
    · simp [h0]
    · have := (Nat.log2_lt h0).mpr hn
      omega
  have hk : excess n t = 0 := by
    unfold excess
    omega
  rw [shiftToTargetExponent_eq, hk, Nat.cast_zero, add_zero]
  rfl

/-- A mantissa that rounding has made too long is shifted once. -/
theorem shiftToTargetExponent_long {t : Int} (ht : -1074 ≤ t) :
    shiftToTargetExponent Format.binary64 (2 ^ 53) t .exact = (⟨2 ^ 52, false, false⟩, t + 1) := by
  have hk : excess (2 ^ 53) t = 1 := by
    unfold excess
    rw [Nat.log2_two_pow]
    omega
  rw [shiftToTargetExponent_eq, hk]
  rfl

theorem Rounds.nearest {v : ℚ} {m : Nat} {q : Int} (h : Rounds v m q) : Nearest (v / 2 ^ q) m := by
  have hq : (0 : ℚ) < 2 ^ q := by positivity
  have hmargin : margin m q ≤ 1 / 2 := by
    unfold margin
    split <;> norm_num
  refine ⟨?_, ?_, ?_, ?_⟩
  · rw [le_div_iff₀ hq]
    refine le_trans ?_ h.low
    gcongr
  · rw [div_le_iff₀ hq]
    exact h.high
  · intro hv
    rw [div_eq_iff hq.ne'] at hv
    have hlow := h.low
    have hge : (m : ℚ) - 1 / 2 ≤ m - margin m q := by linarith
    have hle : ((m : ℚ) - margin m q) ≤ m - 1 / 2 := by
      rw [hv] at hlow
      exact le_of_mul_le_mul_right hlow hq
    exact h.lowEven (by rw [hv, le_antisymm hge hle])
  · intro hv
    rw [div_eq_iff hq.ne'] at hv
    exact h.highEven hv

theorem zpow_mul_le {t q : Int} (k : Nat) (h : t + k ≤ q) : (2 : ℚ) ^ k * 2 ^ t ≤ 2 ^ q := by
  rw [mul_comm, ← zpow_natCast, ← zpow_add₀ two_ne_zero]
  exact zpow_le_zpow_right₀ one_le_two h

/-- Only what is rounded to a power of two is aligned below it. -/
theorem Rounds.mantissa_of_lt {v : ℚ} {m : Nat} {q t : Int} (h : Rounds v m q) (hc : Canonical m q) (ht : Aligned v t)
    (hlt : t < q) : m = 2 ^ 52 := by
  have hp : (0 : ℚ) < 2 ^ t := by positivity
  have hq : (0 : ℚ) < 2 ^ q := by positivity
  have hbelow : v < 2 ^ 53 * 2 ^ t := (div_lt_iff₀ hp).mp ht.below
  have hfull : 2 ^ 52 ≤ m := hc.full.resolve_right (by have := ht.least; omega)
  have hdouble := zpow_mul_le 1 (show t + 1 ≤ q by omega)
  have hmargin : (m : ℚ) - margin m q < 2 ^ 52 := by
    have := h.low.trans_lt hbelow
    by_contra hge
    push Not at hge
    nlinarith [mul_le_mul_of_nonneg_right hge hq.le]
  by_contra hne
  have hmore : 2 ^ 52 + 1 ≤ m := by omega
  have hmore' : (2 : ℚ) ^ 52 + 1 ≤ m := by exact_mod_cast hmore
  have : margin m q ≤ 1 / 2 := by unfold margin; split <;> norm_num
  linarith

/-- A number that is rounded to `m` · 2^`q` is aligned at `q`, or just below it if this is a power of two. -/
theorem Rounds.aligned {v : ℚ} {m : Nat} {q t : Int} (h : Rounds v m q) (hc : Canonical m q) (ht : Aligned v t) :
    t = q ∨ m = 2 ^ 52 ∧ t + 1 = q ∧ Nearest (v / 2 ^ t) (2 ^ 53) := by
  have hp : (0 : ℚ) < 2 ^ t := by positivity
  rcases lt_trichotomy t q with hlt | heq | hgt
  · right
    have hbelow : v < 2 ^ 53 * 2 ^ t := (div_lt_iff₀ hp).mp ht.below
    obtain rfl : m = 2 ^ 52 := h.mantissa_of_lt hc ht hlt
    have hquarter : margin (2 ^ 52) q = 1 / 4 := if_pos ⟨rfl, by have := ht.least; omega⟩
    have hlow := h.low
    rw [hquarter] at hlow
    push_cast at hlow
    obtain rfl : q = t + 1 := by
      by_contra hne
      have := zpow_mul_le 2 (show t + 2 ≤ q by omega)
      nlinarith
    rw [zpow_add_one₀ two_ne_zero] at hlow
    refine ⟨rfl, rfl, ⟨?_, ?_, fun _ => by norm_num, fun _ => by norm_num⟩⟩
    · rw [le_div_iff₀ hp]
      push_cast
      linarith
    · refine ht.below.le.trans ?_
      push_cast
      norm_num
  · exact Or.inl heq
  · have hq : (0 : ℚ) < 2 ^ q := by positivity
    have hle : 2 ^ 52 * 2 ^ t ≤ v := (le_div_iff₀ hp).mp (ht.full.resolve_left (by have := hc.least; omega))
    have hdouble := zpow_mul_le 1 (show q + 1 ≤ t by omega)
    have hm : (m : ℚ) + 1 ≤ 2 ^ 53 := by exact_mod_cast hc.below
    have hhigh := h.high
    nlinarith

/-- Rounding finds the number that is rounded to. -/
theorem roundWithAccuracy_eq {v : ℚ} {m n : Nat} {q e : Int} {a : Accuracy} (s : UnpackedFloat.Sign)
    (h : Shows (.ofMantissaAndAccuracy n a) (v / 2 ^ e)) (he : e ≤ -1074 ∨ 2 ^ 52 ≤ n) (hc : Canonical m q)
    (hr : Rounds v m q) : roundWithAccuracy Format.binary64 s n e a = .finite s m q hc.pos := by
  obtain ⟨em, t, hfirst, hshows, halign⟩ := shows_shiftToTargetExponent h he
  have hround := hshows.nearest
  rw [roundWithAccuracy, hfirst]
  rcases hr.aligned hc halign with rfl | ⟨rfl, rfl, hpower⟩
  · obtain hm := hround.unique hr.nearest
    simp only [hm, shiftToTargetExponent_short hc.below hc.least, hc.pos.ne', ↓reduceDIte]
  · obtain hm := hround.unique hpower
    simp only [hm, shiftToTargetExponent_long halign.least]
    rfl

/-! ## Division -/

theorem shows_div (n : Nat) {d : Nat} (hd : 0 < d) :
    Shows (.ofMantissaAndAccuracy (n / d) (accuracyOfFraction (n % d) d)) (n / d) := by
  have hd' : (0 : ℚ) < d := by exact_mod_cast hd
  have hn : (n : ℚ) / d = (n / d : Nat) + (n % d : Nat) / d := by
    rw [add_div' _ _ _ hd'.ne', div_left_inj' hd'.ne']
    exact_mod_cast (Nat.div_add_mod' n d).symm
  have hlt : ((n % d : Nat) : ℚ) / d < 1 := (div_lt_one hd').mpr (by exact_mod_cast Nat.mod_lt n hd)
  rw [hn]
  unfold accuracyOfFraction
  by_cases h0 : n % d = 0
  · rw [if_pos h0, h0]
    simp [Shows, ExtendedMantissa.ofMantissaAndAccuracy]
  · rw [if_neg h0]
    have hpos : (0 : ℚ) < (n % d : Nat) / d := div_pos (by exact_mod_cast Nat.pos_of_ne_zero h0) hd'
    rcases lt_trichotomy (2 * (n % d)) d with h | h | h
    · rw [Nat.compare_eq_lt.mpr h]
      have : ((n % d : Nat) : ℚ) / d < 1 / 2 := by
        rw [div_lt_div_iff₀ hd' two_pos]
        exact_mod_cast (by omega : n % d * 2 < 1 * d)
      constructor <;> rw [mantissa_ofMantissaAndAccuracy] <;> linarith
    · rw [Nat.compare_eq_eq.mpr h]
      have : ((n % d : Nat) : ℚ) / d = 1 / 2 := by
        rw [div_eq_div_iff hd'.ne' two_ne_zero]
        exact_mod_cast (by omega : n % d * 2 = 1 * d)
      show _ = _
      rw [this, mantissa_ofMantissaAndAccuracy]
    · rw [Nat.compare_eq_gt.mpr h]
      have : (1 : ℚ) / 2 < (n % d : Nat) / d := by
        rw [div_lt_div_iff₀ two_pos hd']
        exact_mod_cast (by omega : 1 * d < n % d * 2)
      constructor <;> rw [mantissa_ofMantissaAndAccuracy] <;> linarith

/-- The exponent at which a quotient is taken has enough binary digits. -/
theorem divCore_enough {c d k : Nat} (hc : c ≠ 0) (hk : d.log2 + 53 ≤ c.log2 + k) (hd : 0 < d) :
    2 ^ 52 ≤ c * 2 ^ k / d := by
  rw [Nat.le_div_iff_mul_le hd]
  calc 2 ^ 52 * d ≤ 2 ^ 52 * 2 ^ (d.log2 + 1) := Nat.mul_le_mul_left _ Nat.lt_log2_self.le
    _ = 2 ^ (d.log2 + 53) := by rw [← Nat.pow_add, Nat.add_comm 52, Nat.add_assoc]
    _ ≤ 2 ^ (c.log2 + k) := Nat.pow_le_pow_right (by decide) hk
    _ = 2 ^ c.log2 * 2 ^ k := Nat.pow_add ..
    _ ≤ c * 2 ^ k := Nat.mul_le_mul_right _ (Nat.log2_self_le hc)

/-- A quotient is rounded correctly. -/
theorem div_eq {c d m : Nat} {e f q : Int} (hc : 0 < c) (hd : 0 < d) (hm : Canonical m q)
    (hr : Rounds (c * 2 ^ e / (d * 2 ^ f)) m q) :
    UnpackedFloat.div Format.binary64 (.finite .positive c e hc) (.finite .positive d f hd) =
      .finite .positive m q hm.pos := by
  obtain ⟨t, ht⟩ : ∃ t, min (e - f) (max ((c.log2 : Int) + 1 + e - (d.log2 + 1 + f) - 53) (-1074)) = t := ⟨_, rfl⟩
  obtain ⟨k, hk⟩ : ∃ k, (e - f - t).toNat = k := ⟨_, rfl⟩
  have hcore : divCore Format.binary64 c e d f = (c <<< k / d, t, accuracyOfFraction (c <<< k % d) d) := by
    rw [← hk, ← ht]
    rfl
  have hvalue : (c : ℚ) * 2 ^ e / (d * 2 ^ f) / 2 ^ t = (c * 2 ^ k : Nat) / d := by
    have : e = f + t + (k : Int) := by omega
    rw [this, zpow_add₀ two_ne_zero, zpow_add₀ two_ne_zero, zpow_natCast]
    have hd' : (d : ℚ) ≠ 0 := by exact_mod_cast hd.ne'
    push_cast
    field_simp
  rw [UnpackedFloat.div, hcore]
  refine roundWithAccuracy_eq (v := c * 2 ^ e / (d * 2 ^ f)) _ ?_ ?_ hm hr
  · rw [hvalue, Nat.shiftLeft_eq]
    exact shows_div _ hd
  · by_cases hmin : t ≤ -1074
    · exact Or.inl hmin
    · rw [Nat.shiftLeft_eq]
      exact Or.inr (divCore_enough hc.ne' (by omega) hd)

/-! ## Bits -/

theorem toNat_packComponents (s : UnpackedFloat.Sign) (e : BitVec 11) (f : BitVec 52) :
    (packComponents Format.binary64 s e f).toNat = (s.toBitVec.toNat * 2 ^ 11 + e.toNat) * 2 ^ 52 + f.toNat := by
  unfold packComponents
  rw [BitVec.toNat_append, BitVec.toNat_append, ← Nat.shiftLeft_add_eq_or_of_lt f.isLt,
    ← Nat.shiftLeft_add_eq_or_of_lt e.isLt, Nat.shiftLeft_eq, Nat.shiftLeft_eq]

theorem toNat_unpackMantissa (b : BitVec 64) : (@unpackMantissa .binary64 b).toNat = b.toNat % 2 ^ 52 := by
  simp [unpackMantissa]

theorem toNat_unpackExponent (b : BitVec 64) :
    (@unpackExponent .binary64 b).toNat = b.toNat / 2 ^ 52 % 2 ^ 11 := by
  simp [unpackExponent, Nat.shiftRight_eq_div_pow]

theorem toNat_unpackSign (b : BitVec 64) :
    (@unpackSign .binary64 b).toNat = b.toNat / 2 ^ 63 % 2 := by
  simp [unpackSign, Nat.shiftRight_eq_div_pow]

open Decimal (Reading)

/-- The bits of a positive number. -/
def bitsOf (m : Nat) (q : Int) : Nat := if 2 ^ 52 ≤ m then (q + 1075).toNat * 2 ^ 52 + (m - 2 ^ 52) else m

theorem ofBits_finite {n m : Nat} {q : Int} (hn : n < 2 ^ 64) (h : Reading.ofBits n = .finite false m q) :
    m = 0 ∧ n = 0 ∨ Canonical m q ∧ n = bitsOf m q := by
  unfold Reading.ofBits at h
  simp only [Nat.pow_eq] at h
  split at h
  · split at h <;> cases h
  · split at h
    · obtain ⟨hs, rfl, rfl⟩ := Reading.finite.inj h
      have hs' : n / 2 ^ 63 % 2 ≠ 1 := of_decide_eq_false hs
      have hsmall : n % 2 ^ 52 < 2 ^ 52 := Nat.mod_lt _ (by decide)
      by_cases h0 : n % 2 ^ 52 = 0
      · left
        omega
      · right
        refine ⟨⟨by omega, by omega, by omega, by omega, Or.inr rfl⟩, ?_⟩
        rw [bitsOf, if_neg (by omega)]
        omega
    · obtain ⟨hs, rfl, rfl⟩ := Reading.finite.inj h
      have hs' : n / 2 ^ 63 % 2 ≠ 1 := of_decide_eq_false hs
      right
      refine ⟨⟨by omega, by omega, by omega, by omega, Or.inl (by omega)⟩, ?_⟩
      rw [bitsOf, if_pos (by omega)]
      omega

theorem pack_eq {m : Nat} {q : Int} (h : Canonical m q) :
    (UnpackedFloat.pack Format.binary64 (.finite .positive m q h.pos)).toNat = bitsOf m q := by
  have hbias : (q + Format.binary64.exponentBias + Format.binary64.mantissaBitsWithoutImplicit).toNat =
      (q + 1075).toNat := by
    congr 1
    show q + 1023 + 52 = q + 1075
    omega
  have hleast := h.least
  have hgreatest := h.greatest
  have hbelow := h.below
  have hfit : ¬ 2 ^ Format.binary64.exponentBits ≤ (q + 1075).toNat + 1 := by
    show ¬ 2 ^ 11 ≤ _
    omega
  rw [UnpackedFloat.pack]
  simp only [hbias]
  rw [if_neg hfit]
  by_cases hm : 2 ^ 52 ≤ m
  · have hlog : m.log2 + 1 = Format.binary64.mantissaBits := by
      have h1 := (Nat.log2_lt h.pos.ne').mpr hbelow
      have h2 := (Nat.le_log2 h.pos.ne').mpr hm
      show _ = 53
      omega
    rw [if_pos hlog, toNat_packComponents, BitVec.toNat_ofNat, BitVec.toNat_ofNat, bitsOf, if_pos hm]
    show (0 * 2 ^ 11 + (q + 1075).toNat % 2 ^ 11) * 2 ^ 52 + m % 2 ^ 52 = _
    omega
  · have hlog : m.log2 + 1 ≠ Format.binary64.mantissaBits := by
      have h1 := (Nat.log2_lt h.pos.ne').mpr (show m < 2 ^ 52 by omega)
      show _ ≠ 53
      omega
    rw [if_neg hlog, toNat_packComponents, BitVec.toNat_ofNat, bitsOf, if_neg hm]
    show (0 * 2 ^ 11 + 0) * 2 ^ 52 + m % 2 ^ 52 = _
    omega

/-! The three fields of these bits -/

section

variable {b : BitVec 64} {m : Nat} {q : Int}

theorem unpackSign_bitsOf (h : Canonical m q) (hb : b.toNat = bitsOf m q) :
    Sign.ofBitVec (@unpackSign .binary64 b) = .positive := by
  have hgreatest := h.greatest
  have hbelow := h.below
  refine if_pos (BitVec.eq_of_toNat_eq ?_)
  rw [toNat_unpackSign, hb, bitsOf]
  show _ = 0
  split <;> omega

theorem unpackExponent_bitsOf (h : Canonical m q) (hb : b.toNat = bitsOf m q) :
    (@unpackExponent .binary64 b).toNat = if 2 ^ 52 ≤ m then (q + 1075).toNat else 0 := by
  have hgreatest := h.greatest
  have hbelow := h.below
  rw [toNat_unpackExponent, hb, bitsOf]
  split <;> omega

theorem unpackMantissa_bitsOf (h : Canonical m q) (hb : b.toNat = bitsOf m q) :
    (@unpackMantissa .binary64 b).toNat = if 2 ^ 52 ≤ m then m - 2 ^ 52 else m := by
  have hbelow := h.below
  rw [toNat_unpackMantissa, hb, bitsOf]
  split <;> omega

theorem unpack_eq (h : Canonical m q) (hb : b.toNat = bitsOf m q) :
    UnpackedFloat.unpack Format.binary64 b = .finite .positive m q h.pos := by
  have hpos := h.pos
  have hleast := h.least
  have hgreatest := h.greatest
  have hmantissa := unpackMantissa_bitsOf h hb
  have hexponent := unpackExponent_bitsOf h hb
  have hfinite : @unpackExponent .binary64 b ≠ -1#11 := by
    intro heq
    rw [heq] at hexponent
    have : (2047 : Nat) = _ := hexponent
    split at this <;> omega
  rw [UnpackedFloat.unpack]
  simp only [unpackSign_bitsOf h hb]
  rw [if_neg hfinite]
  by_cases hm : 2 ^ 52 ≤ m
  · rw [if_pos hm] at hmantissa hexponent
    have hnormal : @unpackExponent .binary64 b ≠ 0#11 := by
      intro heq
      rw [heq] at hexponent
      have : (0 : Nat) = _ := hexponent
      omega
    rw [if_neg hnormal, UnpackedFloat.finite.injEq]
    refine ⟨rfl, ?_, ?_⟩
    · rw [BitVec.toNat_append, ← Nat.shiftLeft_add_eq_or_of_lt (BitVec.isLt _), Nat.shiftLeft_eq, hmantissa]
      show 1 * 2 ^ 52 + _ = m
      omega
    · rw [hexponent]
      show _ - (1023 + 52 : Int) = q
      omega
  · rw [if_neg hm] at hmantissa hexponent
    have hzero : @unpackExponent .binary64 b = 0#11 := BitVec.eq_of_toNat_eq hexponent
    have hnonzero : @unpackMantissa .binary64 b ≠ 0#52 := by
      intro heq
      rw [heq] at hmantissa
      have : (0 : Nat) = _ := hmantissa
      omega
    rw [if_pos hzero, dif_neg hnonzero, UnpackedFloat.finite.injEq]
    refine ⟨rfl, hmantissa, ?_⟩
    have hq : q = -1074 := h.full.resolve_left hm
    rw [hexponent, hq]
    show _ - (1023 + 52 : Int) + 1 = _
    omega

end

/-! ## Reading decimals -/

/-- The mantissa and the exponent of a positive number. -/
def parts? : UnpackedFloat → Option (Nat × Int)
  | .finite .positive m e _ => some (m, e)
  | _ => none

theorem parts?_eq_some {u : UnpackedFloat} {d : Nat} {f : Int} (h : parts? u = some (d, f)) :
    ∃ hd : 0 < d, u = .finite .positive d f hd := by
  cases u with
  | infinity s => cases h
  | notANumber => cases h
  | zero s => cases h
  | finite s m e hm =>
    cases s with
    | negative => cases h
    | positive =>
      cases h
      exact ⟨hm, rfl⟩

/-- The powers of ten in the table are exact. -/
theorem powers_exact : ∀ k : Fin 23, ∃ p, parts? (Float.exactlyRepresentablePowersOfTen[k]).toModel.unpack = some p ∧
    p.1 * 2 ^ p.2.toNat = 10 ^ (k : Nat) * 2 ^ (-p.2).toNat := by
  have h : ∀ k : Fin 23, ((parts? (Float.exactlyRepresentablePowersOfTen[k]).toModel.unpack).any fun p =>
      p.1 * 2 ^ p.2.toNat = 10 ^ (k : Nat) * 2 ^ (-p.2).toNat) = true := by
    decide +kernel
  intro k
  obtain ⟨p, hp, heq⟩ := (Option.any_eq_true _ _).mp (h k)
  exact ⟨p, hp, of_decide_eq_true heq⟩

theorem Rounds.refl {m : Nat} {q : Int} : Rounds (m * 2 ^ q) m q := by
  have hq : (0 : ℚ) < 2 ^ q := by positivity
  have hmargin : 0 < margin m q := by
    unfold margin
    split <;> norm_num
  refine ⟨by gcongr; linarith, by gcongr; linarith, fun h => ?_, fun h => ?_⟩
  · have := mul_right_cancel₀ hq.ne' h
    linarith
  · have := mul_right_cancel₀ hq.ne' h
    linarith

/-- A natural number that is not too long is a floating point number. -/
theorem unpack_ofNat {n : Nat} (hpos : 0 < n) (hn : n < 2 ^ 53) :
    ∃ m q, ∃ hm : 0 < m, n.toUInt64.toFloat.toModel.unpack = .finite .positive m q hm ∧ (m : ℚ) * 2 ^ q = n := by
  have hlog : n.log2 ≤ 52 := by
    have := (Nat.log2_lt hpos.ne').mpr hn
    omega
  obtain ⟨k, hk⟩ : ∃ k, 52 - n.log2 = k := ⟨_, rfl⟩
  have hc : Canonical (n * 2 ^ k) (-(k : Int)) := by
    have hlow : 2 ^ n.log2 ≤ n := Nat.log2_self_le hpos.ne'
    have hhigh : n < 2 ^ (n.log2 + 1) := Nat.lt_log2_self
    refine ⟨by positivity, ?_, by omega, by omega, Or.inl ?_⟩
    · calc n * 2 ^ k < 2 ^ (n.log2 + 1) * 2 ^ k := Nat.mul_lt_mul_of_pos_right hhigh (by positivity)
        _ = 2 ^ 53 := by rw [← Nat.pow_add]; congr 1; omega
    · calc 2 ^ 52 = 2 ^ n.log2 * 2 ^ k := by rw [← Nat.pow_add]; congr 1; omega
        _ ≤ n * 2 ^ k := Nat.mul_le_mul_right _ hlow
  have hvalue : ((n * 2 ^ k : Nat) : ℚ) * 2 ^ (-(k : Int)) = n := by
    rw [zpow_neg, zpow_natCast]
    push_cast
    field_simp
  have hround : UnpackedFloat.ofUInt64 Format.binary64 n.toUInt64 =
      .finite .positive (n * 2 ^ k) (-(k : Int)) hc.pos := by
    have hint : n.toUInt64.toNat = n := Nat.mod_eq_of_lt (by omega)
    have hcompare : compare (n : Int) 0 = .gt := Int.compare_eq_gt.mpr (by exact_mod_cast hpos)
    have hdecrease : decreaseExponent n 0 (Format.binary64.targetExponent (totalExponent n 0)) =
        (n * 2 ^ k, -(k : Int)) := by
      have htarget : Format.binary64.targetExponent (totalExponent n 0) = -(k : Int) := by
        show max ((n.log2 : Int) + 1 + 0 - 53) (-1074) = _
        omega
      rw [htarget, decreaseExponent, show ((0 : Int) - -(k : Int)).toNat = k by omega, Nat.shiftLeft_eq, zero_sub]
    rw [UnpackedFloat.ofUInt64, UnpackedFloat.ofNat, UnpackedFloat.ofInt, UnpackedFloat.normalize, hint, hcompare]
    simp only [Int.toNat_natCast, UnpackedFloat.round, hdecrease]
    refine roundWithAccuracy_eq (v := n) _ ?_ (Or.inr (hc.full.resolve_right (by omega))) hc (hvalue ▸ Rounds.refl)
    rw [← hvalue, mul_div_cancel_right₀ _ (by positivity)]
    rfl
  refine ⟨n * 2 ^ k, -(k : Int), hc.pos, ?_, hvalue⟩
  show UnpackedFloat.unpack Format.binary64 
    (UnpackedFloat.pack Format.binary64 (UnpackedFloat.ofUInt64 _ n.toUInt64)) = _
  rw [hround]
  exact unpack_eq hc (pack_eq hc)

/-- A number is what is packed for it. -/
theorem eq_pack {x : Float} {m : Nat} {q : Int} (hc : Canonical m q) (hx : x.toBits.toNat = bitsOf m q) :
    x = .ofModel (.pack (.finite .positive m q hc.pos)) := by
  obtain ⟨⟨bits, hvalid⟩⟩ := x
  have hbits : bits = UInt64.ofBitVec (UnpackedFloat.pack Format.binary64 (.finite .positive m q hc.pos)) := by
    refine UInt64.toNat_inj.mp (Eq.trans ?_ (pack_eq hc).symm)
    exact hx
  subst hbits
  rfl

/-- A decimal is read as the number that it is rounded to. -/
theorem ofScientific_eq {c k m : Nat} {q : Int} (hcpos : 0 < c) (hk : 0 < k) (hk' : k ≤ 2048) (hc : Canonical m q)
    (hr : Rounds (c / 10 ^ k) m q) : Float.ofScientific c true k = .ofModel (.pack (.finite .positive m q hc.pos)) := by
  unfold Float.ofScientific
  split
  · rename_i hfast
    obtain ⟨n, e, hn, hnum, hnvalue⟩ := unpack_ofNat hcpos hfast.1
    obtain ⟨⟨d, f⟩, hden, hdvalue⟩ := powers_exact ⟨k, by omega⟩
    obtain ⟨hd, hden⟩ := parts?_eq_some hden
    have hpower : (d : ℚ) * 2 ^ f = 10 ^ k := by
      have hf : f = (f.toNat : Int) - ((-f).toNat : Int) := by omega
      have hdvalue' : (d : ℚ) * 2 ^ f.toNat = 10 ^ k * 2 ^ (-f).toNat := by exact_mod_cast hdvalue
      rw [hf, zpow_sub₀ two_ne_zero, zpow_natCast, zpow_natCast, ← mul_div_assoc, hdvalue',
        mul_div_cancel_right₀ _ (by positivity)]
    have hquotient : UnpackedFloat.div Format.binary64 (.finite .positive n e hn) (.finite .positive d f hd) =
        .finite .positive m q hc.pos := div_eq hn hd hc (by rw [hnvalue, hpower]; exact hr)
    rw [← hnum, ← hden] at hquotient
    exact congrArg (fun u => Float.ofModel (.pack u)) hquotient
  · have hden : (c : ℚ) * 2 ^ (0 : Int) / ((10 ^ k : Nat) * 2 ^ (0 : Int)) = c / 10 ^ k := by
      push_cast
      simp
    have hquotient := div_eq hcpos (Nat.pow_pos (n := k) (by decide : 0 < 10)) hc (hden ▸ hr)
    have hexp : Int.negOfNat k = -(k : Int) := Int.negOfNat_eq
    have hneg' : (-Int.negOfNat k).toNat = k := by
      rw [hexp]
      omega
    have hlarge : ¬ Int.negOfNat k > 2 ^ Format.binary64.exponentBits := by
      rw [hexp]
      show ¬ (_ > (2048 : Int))
      omega
    have hsmall : ¬ Int.negOfNat k < -((2 ^ Format.binary64.exponentBits : Int) + c.log2) := by
      rw [hexp]
      show ¬ (_ < -((2048 : Int) + c.log2))
      omega
    have hneg : ¬ 0 ≤ Int.negOfNat k := by
      rw [hexp]
      omega
    have hsci : UnpackedFloat.ofScientific Format.binary64 c (Int.negOfNat k) = .finite .positive m q hc.pos := by
      rw [UnpackedFloat.ofScientific, dif_neg hcpos.ne', if_neg hlarge, if_neg hsmall, if_neg hneg]
      simpa only [hneg'] using hquotient
    exact congrArg (fun u => Float.ofModel (.pack u)) hsci

/-! ## Signs -/

/-- Not negative, and a number. -/
def Positive : UnpackedFloat → Prop
  | .zero s => s = .positive
  | .infinity s => s = .positive
  | .finite s _ _ _ => s = .positive
  | .notANumber => False

theorem positive_round (n : Nat) (e : Int) (a : Accuracy) :
    Positive (roundWithAccuracy Format.binary64 .positive n e a) := by
  unfold roundWithAccuracy
  dsimp only
  split <;> rfl

theorem positive_div {u : UnpackedFloat} (hu : Positive u) {d : Nat} {f : Int} (hd : 0 < d) :
    Positive (UnpackedFloat.div Format.binary64 u (.finite .positive d f hd)) := by
  cases u with
  | notANumber => cases hu
  | zero s => cases hu; rfl
  | infinity s => cases hu; rfl
  | finite s m e hm => cases hu; exact positive_round _ _ _

theorem positive_mul {u : UnpackedFloat} (hu : Positive u) {d : Nat} {f : Int} (hd : 0 < d) :
    Positive (UnpackedFloat.mul Format.binary64 u (.finite .positive d f hd)) := by
  cases u with
  | notANumber => cases hu
  | zero s => cases hu; rfl
  | infinity s => cases hu; rfl
  | finite s m e hm => cases hu; exact positive_round _ _ _

theorem positive_ofScientific (c : Nat) (e : Int) : Positive (UnpackedFloat.ofScientific Format.binary64 c e) := by
  unfold UnpackedFloat.ofScientific
  split
  · rfl
  split
  · rfl
  split
  · rfl
  split
  · exact positive_mul (u := .finite .positive _ _ _) rfl _
  · exact positive_div (u := .finite .positive _ _ _) rfl _

/-- What the bits of such a number are read as. -/
def IsPositive (r : Reading) : Prop := r = .infinite false ∨ ∃ m q, r = .finite false m q

theorem isPositive_ofBits {e f : Nat} (he : e < 2048) (hf : f < 2 ^ 52) (h : e = 2047 → f = 0) :
    IsPositive (Reading.ofBits (e * 2 ^ 52 + f)) := by
  have hsign : (e * 2 ^ 52 + f) / 2 ^ 63 % 2 ≠ 1 := by omega
  have hexponent : (e * 2 ^ 52 + f) / 2 ^ 52 % 2048 = e := by omega
  have hfraction : (e * 2 ^ 52 + f) % 2 ^ 52 = f := by omega
  unfold Reading.ofBits
  simp only [Nat.pow_eq, hexponent, hfraction, hsign, decide_false]
  split
  · rename_i hinf
    rw [if_pos (h hinf)]
    exact Or.inl rfl
  split
  · exact Or.inr ⟨_, _, rfl⟩
  · exact Or.inr ⟨_, _, rfl⟩

theorem isPositive_pack {u : UnpackedFloat} (hu : Positive u) :
    IsPositive (Reading.ofBits (UnpackedFloat.pack Format.binary64 u).toNat) := by
  have hpack : ∀ (e : BitVec 11) (f : BitVec 52), (e.toNat = 2047 → f.toNat = 0) →
      IsPositive (Reading.ofBits (packComponents Format.binary64 .positive e f).toNat) := by
    intro e f h
    rw [toNat_packComponents]
    show IsPositive (Reading.ofBits ((0 * 2 ^ 11 + e.toNat) * 2 ^ 52 + f.toNat))
    rw [Nat.zero_mul, Nat.zero_add]
    exact isPositive_ofBits e.isLt f.isLt h
  cases u with
  | notANumber => cases hu
  | zero s =>
    cases hu
    exact hpack _ _ fun _ => rfl
  | infinity s =>
    cases hu
    exact hpack _ _ fun _ => rfl
  | finite s m e hm =>
    cases hu
    rw [UnpackedFloat.pack]
    dsimp only
    split
    · exact hpack _ _ fun _ => rfl
    · rename_i hfit
      split
      · refine hpack _ _ fun h => ?_
        rw [BitVec.toNat_ofNat] at h
        have hlt := Nat.mod_le
          (e + Format.binary64.exponentBias + Format.binary64.mantissaBitsWithoutImplicit).toNat (2 ^ 11)
        have hfit : ¬ 2 ^ 11 ≤ _ + 1 := hfit
        omega
      · exact hpack _ _ fun h => nomatch h

/-- What a decimal is read as is not negative, and a number. -/
theorem reads_positive (c : Nat) (s : Bool) (k : Nat) :
    IsPositive (Reading.ofBits (Float.ofScientific c s k).toBits.toNat) := by
  have hnum : ∀ c < 2 ^ 53, Positive c.toUInt64.toFloat.toModel.unpack := by
    intro c hc
    rcases Nat.eq_zero_or_pos c with rfl | hpos
    · have hzero : (0 : Nat).toUInt64.toFloat.toModel.unpack = .zero .positive := by rfl
      rw [hzero]
      rfl
    · obtain ⟨m, q, hm, heq, -⟩ := unpack_ofNat hpos hc
      rw [heq]
      rfl
  unfold Float.ofScientific
  split
  · rename_i hfast
    obtain ⟨⟨d, f⟩, hden, -⟩ := powers_exact ⟨k, by omega⟩
    obtain ⟨hd, hden⟩ := parts?_eq_some hden
    have hdiv := isPositive_pack (positive_div (hnum c hfast.1) (f := f) hd)
    have hmul := isPositive_pack (positive_mul (hnum c hfast.1) (f := f) hd)
    rw [← hden] at hdiv hmul
    cases s with
    | true => exact hdiv
    | false => exact hmul
  · exact isPositive_pack (positive_ofScientific c _)

end Statechart.Rounding
