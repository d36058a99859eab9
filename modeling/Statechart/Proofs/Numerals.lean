/-
  Statechart.Proofs.Numerals — how numbers are written, and which are read back.

  The digits found for a number have their point within a few places, or their power of
  ten is marked. Which of the two hangs on the digits, not on the number; but what is
  rounded to a number below one of the two bounds lies below it too
  (`half_more_lt_greatest`, `half_more_lt_least`), so it can be told from the number
  (`written_iff`).

  Proved: a number that is zero or from a ten-thousandth up to ten to the sixteenth
  (`Plain`) is written as digits, a point and digits, and is read back from them
  (`Plain.floatText`). The text of every other number that is not negative has a letter
  (`letters_floatText`).
-/

import Statechart.Proofs.Shortest
import Statechart.Proofs.Anatomy
import Mathlib

namespace Statechart.Decimal

open Rounding
open Text (Pattern)

/-! ## Digits -/

theorem natOf_append (us vs : List Char) : natOf (us ++ vs) = Nat.ofDigitChars 10 vs (natOf us) :=
  Nat.ofDigitChars_append _

theorem natOf_append_zeros (us : List Char) (n : Nat) : natOf (us ++ zeros n) = 10 ^ n * natOf us := by
  rw [natOf_append, zeros, Nat.ofDigitChars_replicate_zero]

theorem natOf_zeros_append (n : Nat) (us : List Char) : natOf (zeros n ++ us) = natOf us := by
  have hzero := natOf_append_zeros [] n
  rw [List.nil_append] at hzero
  rw [natOf_append, hzero]
  rfl

theorem natOf_digits (n : Nat) : natOf (digits n) = n := Nat.ofDigitChars_ten_toDigits

theorem isDigit_of_mem_zeros {c : Char} {n : Nat} (h : c ∈ zeros n) : isDigit c = true := by
  rw [List.eq_of_mem_replicate h]
  rfl

theorem isDigit_of_mem_digits {c : Char} {n : Nat} (h : c ∈ digits n) : isDigit c = true := by
  have := Nat.isDigit_of_mem_toDigits (by decide) (by decide) h
  simpa [isDigit, Char.isDigit, UInt32.le_iff_toNat_le] using this

theorem digits_ne_nil (n : Nat) : digits n ≠ [] := Nat.toDigits_ne_nil

/-- A number written out: digits, a point and digits. -/
structure WrittenOut (cs whole fraction : List Char) : Prop where
  text : cs = whole ++ '.' :: fraction
  before : whole ≠ []
  behind : fraction ≠ []
  digits : ∀ c ∈ whole ++ fraction, isDigit c = true

section

variable {cs ds whole fraction : List Char}

/-- With the point behind the first `p` digits, whether there are that many or not. -/
theorem positional_writtenOut (hne : ds ≠ []) (hds : ∀ c ∈ ds, isDigit c = true) (p : Int) :
    ∃ whole fraction, WrittenOut (positional ds p) whole fraction ∧ fraction.length ≤ ds.length + (-p).toNat + 1 ∧
      (natOf (whole ++ fraction) : ℚ) / 10 ^ fraction.length = natOf ds * 10 ^ (p - ds.length) := by
  unfold positional
  split
  · -- all digits stand behind the point
    rename_i hp
    refine ⟨['0'], zeros (-p).toNat ++ ds, ⟨by simp, by simp, by simp [hne], ?_⟩, ?_, ?_⟩
    · intro c hc
      simp only [List.mem_append, List.mem_singleton] at hc
      rcases hc with rfl | hc | hc
      · rfl
      · exact isDigit_of_mem_zeros hc
      · exact hds c hc
    · rw [List.length_append, zeros, List.length_replicate]
      omega
    · have hzeros : ['0'] ++ (zeros (-p).toNat ++ ds) = zeros ((-p).toNat + 1) ++ ds := by
        rw [zeros, zeros, List.replicate_succ]
        rfl
      have hpower : p - ds.length = -(((-p).toNat + ds.length : Nat) : Int) := by omega
      rw [hzeros, natOf_zeros_append, hpower, zpow_neg, zpow_natCast, List.length_append, zeros, List.length_replicate,
        div_eq_mul_inv]
  rename_i hp
  split
  · -- all digits stand before the point, and zeros between
    rename_i hlen
    refine ⟨ds ++ zeros (p.toNat - ds.length), ['0'], ⟨by simp, by simp [hne], by simp, ?_⟩, by simp, ?_⟩
    · intro c hc
      simp only [List.mem_append, List.mem_singleton] at hc
      rcases hc with (hc | hc) | rfl
      · exact hds c hc
      · exact isDigit_of_mem_zeros hc
      · rfl
    · have hzeros : ds ++ zeros (p.toNat - ds.length) ++ ['0'] = ds ++ zeros (p.toNat - ds.length + 1) := by
        rw [List.append_assoc, zeros, zeros, List.replicate_succ']
      have hpower : p - ds.length = ((p.toNat - ds.length : Nat) : Int) := by omega
      rw [hzeros, natOf_append_zeros, hpower, zpow_natCast, List.length_singleton, pow_succ]
      push_cast
      ring
  · rename_i hlen
    refine ⟨ds.take p.toNat, ds.drop p.toNat, ⟨by simp, ?_, ?_, ?_⟩, by rw [List.length_drop]; omega, ?_⟩
    · rw [Ne, List.take_eq_nil_iff]
      rintro (h | h)
      · omega
      · exact hne h
    · rw [Ne, List.drop_eq_nil_iff]
      omega
    · rwa [List.take_append_drop]
    · have hpower : p - ds.length = -((ds.length - p.toNat : Nat) : Int) := by omega
      rw [List.take_append_drop, List.length_drop, hpower, zpow_neg, zpow_natCast, div_eq_mul_inv]

theorem special?_of_digit {c : Char} (hc : isDigit c = true) : special? (c :: cs) = none := by
  have hlower : lowercase c = c := by
    simp only [isDigit, Bool.and_eq_true, decide_eq_true_eq] at hc
    rw [lowercase, if_neg (by rintro ⟨h, -⟩; exact absurd (h.trans hc.2) (by decide))]
  have hhead (s : String) (h : String.ofList ((c :: cs).map lowercase) = s) : s.toList.head? = some c := by
    rw [← h, String.toList_ofList, List.map_cons, hlower]
    rfl
  unfold special?
  split
  · rename_i h
    cases hhead _ h
    cases hc
  · rename_i h
    cases hhead _ h
    cases hc
  · rename_i h
    cases hhead _ h
    cases hc
  · rfl

theorem WrittenOut.unsigned (h : WrittenOut cs whole fraction) :
    unsigned? cs = some ⟨natOf (whole ++ fraction), -fraction.length⟩ := by
  obtain ⟨rfl, hwhole, -, hdigits⟩ := h
  have hleft : ∀ c ∈ whole, isDigit c = true := fun c hc => hdigits c (List.mem_append_left _ hc)
  have hright : ∀ c ∈ fraction, isDigit c = true := fun c hc => hdigits c (List.mem_append_right _ hc)
  have htake : (whole ++ '.' :: fraction).takeWhile isDigit = whole := by
    rw [List.takeWhile_append_of_pos hleft, List.takeWhile_cons_of_neg (by decide), List.append_nil]
  have hdrop : (whole ++ '.' :: fraction).dropWhile isDigit = '.' :: fraction := by
    rw [List.dropWhile_append_of_pos hleft, List.dropWhile_cons_of_neg (by decide)]
  unfold unsigned?
  simp only [htake, hdrop, List.takeWhile_eq_self_iff.mpr hright, List.dropWhile_eq_nil_iff.mpr hright]
  rw [if_neg fun h => hwhole h.1]
  simp [exponent?]

/-- A number written out is read by its digits. -/
theorem WrittenOut.readFloat {s : String} (h : WrittenOut s.toList whole fraction) :
    readFloat? s = some (.ofScientific (natOf (whole ++ fraction)) true fraction.length) := by
  have hunsigned := h.unsigned
  obtain ⟨htext, hwhole, hfraction, hdigits⟩ := h
  obtain ⟨c, whole, rfl⟩ := List.exists_cons_of_ne_nil hwhole
  have hc := hdigits c List.mem_cons_self
  rw [htext, List.cons_append] at hunsigned
  have hpos : 0 < fraction.length := List.length_pos_iff.mpr hfraction
  unfold readFloat?
  rw [htext, List.cons_append, splitSign_of_digit hc]
  dsimp only
  rw [special?_of_digit hc, hunsigned]
  simp [toFloat, hpos]

end

/-! ## Numbers as tokens -/

theorem matches_digits {ds : List Char} (hds : ∀ c ∈ ds, isDigit c = true) :
    (Pattern.star (.range [Kind.digit])).Matches ds := by
  induction ds with
  | nil => exact .done
  | cons c ds ih =>
    obtain ⟨hc, hds⟩ := List.forall_mem_cons.mp hds
    exact .more (.range (by simpa [Pattern.inRanges, Kind.digit, isDigit] using hc)) (ih hds)

theorem matches_some_digits {ds : List Char} (hne : ds ≠ []) (hds : ∀ c ∈ ds, isDigit c = true) :
    (Pattern.plus (.range [Kind.digit])).Matches ds := by
  obtain ⟨c, ds, rfl⟩ := List.exists_cons_of_ne_nil hne
  obtain ⟨hc, hds⟩ := List.forall_mem_cons.mp hds
  exact .seq (.range (by simpa [Pattern.inRanges, Kind.digit, isDigit] using hc)) (matches_digits hds)

def digitChars : List Char := ['0', '1', '2', '3', '4', '5', '6', '7', '8', '9']

theorem mem_digitChars {c : Char} (h : isDigit c = true) : c ∈ digitChars := by
  simp only [isDigit, Bool.and_eq_true, decide_eq_true_eq] at h
  obtain ⟨hlow, hhigh⟩ : 48 ≤ c.toNat ∧ c.toNat ≤ 57 := h
  rw [← Char.ofNat_toNat c]
  generalize c.toNat = n at hlow hhigh
  interval_cases n <;> decide

/-- Before numbers no kind in order has texts that begin with a digit. -/
theorem WrittenOut.first {cs whole fraction : List Char} (h : WrittenOut cs whole fraction) :
    Lexer.First .number cs := by
  obtain ⟨rfl, hwhole, hfraction, hdigits⟩ := h
  have hleft : ∀ c ∈ whole, isDigit c = true := fun c hc => hdigits c (List.mem_append_left _ hc)
  have hright : ∀ c ∈ fraction, isDigit c = true := fun c hc => hdigits c (List.mem_append_right _ hc)
  refine ⟨?_, Kind.all.take 22, Kind.all.drop 23, by decide, fun j hj hm => ?_⟩
  · have hpoint : (Pattern.char '.').Matches ['.'] := .range (by decide)
    exact .seq (matches_some_digits hwhole hleft) (.left (.seq hpoint (matches_some_digits hfraction hright)))
  · obtain ⟨c, whole, rfl⟩ := List.exists_cons_of_ne_nil hwhole
    have hdead : ((Kind.all.take 22).all fun j => digitChars.all fun c => (j.pattern.after c).dead) = true := by
      decide +kernel
    have hafter := List.all_eq_true.mp (List.all_eq_true.mp hdead j hj) c (mem_digitChars (hleft c List.mem_cons_self))
    exact (Pattern.dead_iff (j.inhabited_pattern.after c)).mp hafter _ ((Pattern.after_iff ..).mpr hm)

/-! ## Which numbers are written out -/

section

variable {m : Nat} {q : Int}

theorem cast_mul_zpow_le {a b : Int} (hm : 2 ^ 52 ≤ m) (h : a ≤ q) (hab : a + 52 = b) : (2 : ℚ) ^ b ≤ m * 2 ^ q := by
  have hm' : (2 : ℚ) ^ (52 : Nat) ≤ m := by exact_mod_cast hm
  calc (2 : ℚ) ^ b = 2 ^ (52 : Nat) * 2 ^ a := by rw [← hab, zpow_add₀ two_ne_zero, mul_comm]; norm_cast
    _ ≤ m * 2 ^ q := mul_le_mul hm' (zpow_le_zpow_right₀ one_le_two h) (by positivity) (by positivity)

theorem half_more_lt_zpow {a b : Int} (hm : m < 2 ^ 53) (h : q ≤ a) (hab : a + 53 = b) :
    ((m : ℚ) + 1 / 2) * 2 ^ q < 2 ^ b := by
  have hm' : (m : ℚ) + 1 ≤ 2 ^ (53 : Nat) := by exact_mod_cast hm
  calc ((m : ℚ) + 1 / 2) * 2 ^ q < 2 ^ (53 : Nat) * 2 ^ q := by gcongr; linarith
    _ ≤ 2 ^ (53 : Nat) * 2 ^ a := by gcongr; exact one_le_two
    _ = 2 ^ b := by rw [← hab, zpow_add₀ two_ne_zero, mul_comm]; norm_cast

/-- What is rounded to a number below ten to the sixteenth lies below it too. -/
theorem half_more_lt_greatest (h : Canonical m q) (hv : (m : ℚ) * 2 ^ q < 10 ^ 16) :
    ((m : ℚ) + 1 / 2) * 2 ^ q < 10 ^ 16 := by
  rcases lt_or_ge 1 q with hq | hq
  · have hfull : 2 ^ 52 ≤ m := h.full.resolve_right (by omega)
    have hlarge := cast_mul_zpow_le hfull (by omega : (2 : Int) ≤ q) (by norm_num : (2 : Int) + 52 = 54)
    norm_num at hlarge hv
    linarith
  rcases eq_or_lt_of_le hq with rfl | hq
  · rw [zpow_one] at hv ⊢
    have hm : m * 2 < 10 ^ 16 := by exact_mod_cast hv
    have hm' : (m : ℚ) + 1 ≤ 5 * 10 ^ 15 := by exact_mod_cast (by omega : m + 1 ≤ 5 * 10 ^ 15)
    linarith
  · refine (half_more_lt_zpow h.below (by omega : q ≤ 0) (by norm_num : (0 : Int) + 53 = 53)).trans ?_
    norm_num

/-- What is rounded to a number below a ten-thousandth lies below it too. -/
theorem half_more_lt_least (h : Canonical m q) (hv : (m : ℚ) * 2 ^ q < 10 ^ (-4 : Int)) :
    ((m : ℚ) + 1 / 2) * 2 ^ q < 10 ^ (-4 : Int) := by
  rcases lt_or_ge (-66) q with hq | hq
  · have hfull : 2 ^ 52 ≤ m := h.full.resolve_right (by omega)
    have hlarge := cast_mul_zpow_le hfull (by omega : (-65 : Int) ≤ q) (by norm_num : (-65 : Int) + 52 = -13)
    norm_num at hlarge hv
    linarith
  rcases eq_or_lt_of_le hq with rfl | hq
  · have hpow : (2 : ℚ) ^ (-66 : Int) = 1 / 2 ^ 66 := by norm_num
    rw [hpow] at hv ⊢
    have hm : (m : ℚ) * 10 ^ 4 < 2 ^ 66 := by
      norm_num at hv ⊢
      linarith
    have hm : m * 10 ^ 4 < 2 ^ 66 := by exact_mod_cast hm
    have hm' : (m : ℚ) ≤ 7378697629483820 := by exact_mod_cast (by omega : m ≤ 7378697629483820)
    norm_num
    linarith
  · refine (half_more_lt_zpow h.below (by omega : q ≤ -67) (by norm_num : (-67 : Int) + 53 = -14)).trans ?_
    norm_num

theorem value_bounds {d : Decimal} (hd : 0 < d.coefficient) :
    (10 : ℚ) ^ ((digits d.coefficient).length + d.exponent - 1) ≤ d.value ∧
      d.value < 10 ^ ((digits d.coefficient).length + d.exponent) := by
  have hlen : 0 < (digits d.coefficient).length := Nat.length_toDigits_pos
  obtain ⟨n, hn⟩ : ∃ n, (digits d.coefficient).length = n + 1 := Nat.exists_eq_succ_of_ne_zero hlen.ne'
  have hhigh : d.coefficient < 10 ^ (n + 1) :=
    (Nat.length_toDigits_le_iff (by decide) (by omega)).mp hn.le
  have hlow : 10 ^ n ≤ d.coefficient := by
    rcases Nat.eq_zero_or_pos n with rfl | hpos
    · exact hd
    · refine Nat.le_of_not_lt fun hlt => ?_
      have := (Nat.length_toDigits_le_iff (by decide) hpos).mpr hlt
      rw [← digits, hn] at this
      omega
  have hlow' : (10 : ℚ) ^ n ≤ d.coefficient := by exact_mod_cast hlow
  have hhigh' : (d.coefficient : ℚ) < 10 ^ (n + 1) := by exact_mod_cast hhigh
  have hpos : (0 : ℚ) < 10 ^ d.exponent := by positivity
  rw [value, hn, ten_zpow n (by push_cast; ring : ((n + 1 : Nat) : Int) + d.exponent - 1 = d.exponent + n),
    ten_zpow (n + 1) (by push_cast; ring : ((n + 1 : Nat) : Int) + d.exponent = d.exponent + (n + 1 : Nat))]
  exact ⟨by gcongr, by gcongr⟩

/-- The digits are written out if the number is in the range of the format. -/
theorem written_iff (h : Canonical m q) :
    ((10 : ℚ) ^ (-4 : Int) ≤ m * 2 ^ q ∧ (m : ℚ) * 2 ^ q < 10 ^ 16) ↔
      floatFormat.least ≤ (digits (shortest m q).coefficient).length + (shortest m q).exponent - 1 ∧
        (digits (shortest m q).coefficient).length + (shortest m q).exponent - 1 ≤ floatFormat.greatest := by
  obtain ⟨hpos, -, hrounds, g, -, hsize, hlow, -⟩ := shortest_spec h
  obtain ⟨hmost, hless⟩ := value_bounds hpos
  generalize ((digits (shortest m q).coefficient).length : Int) + (shortest m q).exponent = p at hmost hless ⊢
  have hten {a b : Int} (hab : (10 : ℚ) ^ a < 10 ^ b) : a < b := (zpow_lt_zpow_iff_right₀ (by norm_num)).mp hab
  have hpower : (10 : ℚ) ^ (16 : Nat) = 10 ^ (16 : Int) := by norm_cast
  show _ ↔ -4 ≤ p - 1 ∧ p - 1 ≤ 15
  constructor
  · rintro ⟨hleast, hgreatest⟩
    have hg : -4 < g := hten (hleast.trans_lt hsize)
    have hp : g - 1 < p := hten (hlow.trans_lt hless)
    have hrounded := hrounds.high.trans_lt (half_more_lt_greatest h hgreatest)
    rw [hpower] at hrounded
    have hp' : p - 1 < 16 := hten (hmost.trans_lt hrounded)
    omega
  · rintro ⟨hleast, hgreatest⟩
    constructor
    · refine not_lt.mp fun hlt => ?_
      have hp : p - 1 < -4 := hten (hmost.trans_lt (hrounds.high.trans_lt (half_more_lt_least h hlt)))
      omega
    · refine not_le.mp fun hle => ?_
      rw [hpower] at hle
      have hg : 16 < g := hten (hle.trans_lt hsize)
      have hp : g - 1 < p := hten (hlow.trans_lt hless)
      omega

end

/-- The number is zero, or of a size that is written out. -/
def Plain (x : Float) : Prop :=
  ∃ m q, Reading.ofBits x.toBits.toNat = .finite false m q ∧
    (m = 0 ∨ (10 : ℚ) ^ (-4 : Int) ≤ m * 2 ^ q ∧ (m : ℚ) * 2 ^ q < 10 ^ 16)

/-- How many letters there are. -/
def letters (cs : List Char) : Nat := cs.countP Char.isAlpha

theorem letters_append (us vs : List Char) : letters (us ++ vs) = letters us + letters vs := List.countP_append

theorem eq_of_toBits {x y : Float} (h : x.toBits.toNat = y.toBits.toNat) : x = y := by
  obtain ⟨⟨bits, hx⟩⟩ := x
  obtain ⟨⟨bits', hy⟩⟩ := y
  have hbits : bits = bits' := UInt64.toNat_inj.mp h
  subst hbits
  rfl

theorem not_isAlpha_of_isDigit {c : Char} (h : isDigit c = true) : c.isAlpha = false := by
  simp only [isDigit, Bool.and_eq_true, decide_eq_true_eq] at h
  have hupper : '9'.toNat < 'A'.toNat := by decide
  have hlower : '9'.toNat < 'a'.toNat := by decide
  simp only [Char.isAlpha, Char.isUpper, Char.isLower, Bool.or_eq_false_iff, Bool.and_eq_false_iff,
    decide_eq_false_iff_not, ge_iff_le, UInt32.le_iff_toNat_le]
  exact ⟨fun (hc : _ ∧ _) => absurd (h.2.trans_lt hupper) (not_lt.mpr hc.1),
    Or.inl fun hc => absurd (h.2.trans_lt hlower) (not_lt.mpr hc)⟩

theorem WrittenOut.letters {cs whole fraction : List Char} (h : WrittenOut cs whole fraction) : letters cs = 0 := by
  obtain ⟨rfl, -, -, hdigits⟩ := h
  refine List.countP_eq_zero.mpr fun c hc => ?_
  rcases List.mem_append.mp hc with hc | hc
  · simp [not_isAlpha_of_isDigit (hdigits c (List.mem_append_left _ hc))]
  · rcases List.mem_cons.mp hc with rfl | hc
    · decide
    · simp [not_isAlpha_of_isDigit (hdigits c (List.mem_append_right _ hc))]

theorem floatText_zero {x : Float} (h : x.toBits.toNat = 0) : floatText x = "0.0" ∧ readFloat? "0.0" = some x := by
  have hread : readFloat? "0.0" = some (.ofScientific 0 true 1) := by decide +kernel
  constructor
  · rw [floatText, h]
    decide +kernel
  · rw [hread, @eq_of_toBits x (.ofScientific 0 true 1)]
    rw [h]
    decide +kernel

section

variable {x : Float} {m : Nat} {q : Int}

theorem floatText_finite (hx : Reading.ofBits x.toBits.toNat = .finite false m q) :
    (floatText x).toList = (shortest m q).render floatFormat := by
  rw [floatText, hx, Reading.render, withSign, if_neg Bool.false_ne_true, String.toList_ofList]

/-- In the range of the format the digits are written out, and read back as the number. -/
theorem floatText_in_range (hx : Reading.ofBits x.toBits.toNat = .finite false m q) (hc : Canonical m q)
    (hbits : x.toBits.toNat = bitsOf m q) (hrange : (10 : ℚ) ^ (-4 : Int) ≤ m * 2 ^ q ∧ (m : ℚ) * 2 ^ q < 10 ^ 16) :
    ∃ whole fraction, WrittenOut (floatText x).toList whole fraction ∧ readFloat? (floatText x) = some x := by
  obtain ⟨hpos, hmost, hrounds, -⟩ := shortest_spec hc
  have hout := (written_iff hc).mp hrange
  have htext : (floatText x).toList = positional (digits (shortest m q).coefficient)
      ((digits (shortest m q).coefficient).length + (shortest m q).exponent) := by
    rw [floatText_finite hx, render]
    rw [if_neg hpos.ne', if_pos hout]
  generalize hd : shortest m q = d at hpos hmost hrounds hout htext
  obtain ⟨whole, fraction, hwritten, hlength, hvalue⟩ :=
    positional_writtenOut (digits_ne_nil d.coefficient) (fun c => isDigit_of_mem_digits)
      ((digits d.coefficient).length + d.exponent)
  rw [← htext] at hwritten
  rw [natOf_digits, add_sub_cancel_left, ← value] at hvalue
  have hlen : (digits d.coefficient).length ≤ 18 :=
    (Nat.length_toDigits_le_iff (by decide) (by decide)).mpr (hmost.trans_lt (by decide))
  have hshort : fraction.length ≤ 2048 := by
    have hleast : -4 ≤ ((digits d.coefficient).length : Int) + d.exponent - 1 := hout.1
    omega
  have hnat : 0 < natOf (whole ++ fraction) := by
    refine Nat.pos_of_ne_zero fun hzero => ?_
    have hsize := (value_bounds hpos).1
    rw [← hvalue, hzero, Nat.cast_zero, zero_div] at hsize
    exact absurd hsize (not_le.mpr (by positivity))
  rw [← hvalue] at hrounds
  refine ⟨whole, fraction, hwritten, ?_⟩
  rw [hwritten.readFloat, eq_pack hc hbits,
    ofScientific_eq hnat (List.length_pos_iff.mpr hwritten.behind) hshort hc hrounds]

/-- Out of the range the power of ten is marked with a letter. -/
theorem letters_out_of_range (hx : Reading.ofBits x.toBits.toNat = .finite false m q) (hc : Canonical m q)
    (hrange : ¬ ((10 : ℚ) ^ (-4 : Int) ≤ m * 2 ^ q ∧ (m : ℚ) * 2 ^ q < 10 ^ 16)) :
    letters (floatText x).toList ≠ 0 := by
  obtain ⟨hpos, -⟩ := shortest_spec hc
  have hmem : 'e' ∈ (floatText x).toList := by
    rw [floatText_finite hx, render]
    rw [if_neg hpos.ne', if_neg (mt (written_iff hc).mpr hrange), marked]
    simp [floatFormat]
  exact (List.countP_pos_iff.mpr ⟨'e', hmem, by decide⟩).ne'

/-- A plain number is written out, and read back from its text. -/
theorem Plain.floatText (h : Plain x) :
    ∃ whole fraction, WrittenOut (floatText x).toList whole fraction ∧ readFloat? (floatText x) = some x := by
  obtain ⟨m, q, hx, hrange⟩ := h
  rcases ofBits_finite x.toBits.toNat_lt hx with ⟨rfl, hbits⟩ | ⟨hc, hbits⟩
  · obtain ⟨htext, hread⟩ := floatText_zero hbits
    rw [htext]
    exact ⟨['0'], ['0'], ⟨by decide, by decide, by decide, fun c hc => isDigit_of_mem_zeros (n := 2) hc⟩, hread⟩
  · exact floatText_in_range hx hc hbits (hrange.resolve_left hc.pos.ne')

/-- The text of a number that is not negative has no letter if the number is plain, and only then. -/
theorem letters_floatText (hx : IsPositive (Reading.ofBits x.toBits.toNat)) :
    letters (floatText x).toList = 0 ↔ Plain x := by
  constructor
  · intro hzero
    rcases hx with hinf | ⟨m, q, hx⟩
    · rw [Statechart.floatText, hinf] at hzero
      exact absurd hzero (by decide +kernel)
    · refine ⟨m, q, hx, ?_⟩
      rcases ofBits_finite x.toBits.toNat_lt hx with ⟨hm, -⟩ | ⟨hc, -⟩
      · exact Or.inl hm
      · exact Or.inr (not_not.mp fun hrange => letters_out_of_range hx hc hrange hzero)
  · intro h
    obtain ⟨whole, fraction, hwritten, -⟩ := h.floatText
    exact hwritten.letters

/-- What a number in a text is read as is not negative. -/
theorem readNumber_isPositive {s : String} (h : Kind.number.pattern.Matches s.toList) (hx : readNumber s = .ok x) :
    IsPositive (Reading.ofBits x.toBits.toNat) := by
  obtain ⟨c, cs, hs, hc⟩ : ∃ c cs, s.toList = c :: cs ∧ isDigit c = true := by
    generalize s.toList = cs at h
    cases h with
    | seq hds _ =>
      obtain ⟨hne, hall⟩ := digits_of_plus hds
      obtain ⟨c, cs, rfl⟩ := List.exists_cons_of_ne_nil hne
      exact ⟨c, _, rfl, hall c List.mem_cons_self⟩
  have hread : readFloat? s = (unsigned? (c :: cs)).map toFloat := by
    unfold readFloat?
    rw [hs, splitSign_of_digit hc]
    dsimp only
    rw [special?_of_digit hc, Option.none_or]
    exact Option.map_id'
  rw [readNumber, hread] at hx
  cases hd : unsigned? (c :: cs) with
  | none =>
    rw [hd] at hx
    cases hx
  | some d =>
    rw [hd] at hx
    cases hx
    exact reads_positive _ _ _

end

end Statechart.Decimal
