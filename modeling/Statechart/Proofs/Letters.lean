/-
  Statechart.Proofs.Letters — the words over `a`, …, `z` are numbered without a gap.

  A word of several letters is a word and one more letter. The words with a letter behind
  the word of number `n` come in a block of 26, which starts at `26 * (n + 1)`: the words of
  one letter and the blocks of all words before it come first. So the number of every word
  is found letter by letter (`exists_spell`), and of two numbers the smaller has the earlier
  word, since either their blocks differ or only their last letters (`spell_lt_spell`).

  Proved (`letters_number_the_words`): every word that is not empty is spelt for exactly
  one number, and the numbers are in the order of the words, by length and then by
  alphabet.
-/

import Statechart.Sample
import Mathlib.Data.List.Induction
import Mathlib.Data.List.Shortlex
import Mathlib.Data.Set.Function

namespace Statechart.Sample

/-! ## Letters -/

/-- A letter from `a` to `z`. -/
def IsLetter (c : Char) : Prop := 'a' ≤ c ∧ c ≤ 'z'

theorem isLetter_iff {c : Char} : IsLetter c ↔ 97 ≤ c.toNat ∧ c.toNat ≤ 122 := by
  rw [IsLetter, Char.le_def, Char.le_def, UInt32.le_iff_toNat_le, UInt32.le_iff_toNat_le]
  rfl

theorem toNat_letter (i : Nat) : (letter i).toNat = 97 + i % 26 := by
  have hall : ∀ k < 26, (Char.ofNat (97 + k)).toNat = 97 + k := by decide
  exact hall (i % 26) (Nat.mod_lt _ (by decide))

theorem isLetter_letter (i : Nat) : IsLetter (letter i) := by
  have hlt : i % 26 < 26 := Nat.mod_lt _ (by decide)
  rw [isLetter_iff, toNat_letter]
  omega

theorem letter_lt_letter {i j : Nat} (h : i % 26 < j % 26) : letter i < letter j := by
  rw [Char.lt_def, UInt32.lt_iff_toNat_lt, Char.toNat_val, Char.toNat_val, toNat_letter, toNat_letter]
  omega

/-- Every letter is one of the 26. -/
theorem exists_letter {c : Char} (h : IsLetter c) : ∃ k < 26, ∀ n, letter (26 * n + k) = c := by
  rw [isLetter_iff] at h
  refine ⟨c.toNat - 97, by omega, fun n => ?_⟩
  rw [← Char.toNat_inj, toNat_letter, Nat.mul_add_mod, Nat.mod_eq_of_lt (by omega)]
  omega

/-! ## Words -/

theorem spell_of_lt {i : Nat} (h : i < 26) : spell i = [letter i] := by
  rw [spell, if_pos h]

theorem spell_of_le {i : Nat} (h : 26 ≤ i) : spell i = spell (i / 26 - 1) ++ [letter i] := by
  rw [spell, if_neg (Nat.not_lt.mpr h)]

theorem spell_ne_nil (i : Nat) : spell i ≠ [] := by
  by_cases h : i < 26
  · rw [spell_of_lt h]
    exact List.cons_ne_nil _ _
  · rw [spell_of_le (Nat.not_lt.mp h)]
    exact List.append_ne_nil_of_right_ne_nil _ (List.cons_ne_nil _ _)

theorem isLetter_of_mem_spell {i : Nat} {c : Char} (h : c ∈ spell i) : IsLetter c := by
  induction i using spell.induct with
  | case1 i hi =>
    rw [spell_of_lt hi, List.mem_singleton] at h
    exact h ▸ isLetter_letter i
  | case2 i hi ih =>
    rw [spell_of_le (Nat.not_lt.mp hi), List.mem_append, List.mem_singleton] at h
    rcases h with h | rfl
    · exact ih h
    · exact isLetter_letter i

theorem two_le_length_spell {i : Nat} (h : 26 ≤ i) : 2 ≤ (spell i).length := by
  have hpos := List.length_pos_iff.mpr (spell_ne_nil (i / 26 - 1))
  rw [spell_of_le h, List.length_append, List.length_singleton]
  omega

/-- Every word is spelt. -/
theorem exists_spell {w : List Char} (hne : w ≠ []) (hw : ∀ c ∈ w, IsLetter c) : ∃ i, spell i = w := by
  induction w using List.reverseRecOn with
  | nil => exact absurd rfl hne
  | append_singleton w c ih =>
    obtain ⟨k, hk, hletter⟩ := exists_letter (hw c (by simp))
    cases w with
    | nil => exact ⟨k, by rw [spell_of_lt hk, ← hletter 0, Nat.mul_zero, Nat.zero_add]; rfl⟩
    | cons d w =>
      obtain ⟨n, hn⟩ := ih (List.cons_ne_nil _ _) fun c hc => hw c (List.mem_append_left _ hc)
      refine ⟨26 * (n + 1) + k, ?_⟩
      have hquotient : (26 * (n + 1) + k) / 26 - 1 = n := by omega
      rw [spell_of_le (by omega), hquotient, hn, hletter]

/-! ## Their order -/

theorem lex_append {u v : List Char} (h : List.Lex (· < ·) u v) (hlength : u.length = v.length) (s t : List Char) :
    List.Lex (· < ·) (u ++ s) (v ++ t) := by
  induction h with
  | nil => cases hlength
  | cons _ ih => exact .cons (ih (Nat.succ.inj hlength))
  | rel hlt => exact .rel hlt

/-- Of two words the earlier stays earlier with one more letter behind each. -/
theorem shortlex_append_letter {u v : List Char} (h : List.Shortlex (· < ·) u v) (c d : Char) :
    List.Shortlex (· < ·) (u ++ [c]) (v ++ [d]) := by
  rcases List.shortlex_def.mp h with hlength | ⟨hlength, hlex⟩
  · exact .of_length_lt (by simpa using hlength)
  · exact .of_lex (by simpa using hlength) (lex_append hlex hlength _ _)

theorem spell_lt_spell {i j : Nat} (h : i < j) : List.Shortlex (· < ·) (spell i) (spell j) := by
  induction j using spell.induct generalizing i with
  | case1 j hj =>
    rw [spell_of_lt hj, spell_of_lt (by omega), List.shortlex_singleton_iff]
    exact letter_lt_letter (by omega)
  | case2 j hj ih =>
    have hj := Nat.not_lt.mp hj
    by_cases hi : i < 26
    · refine .of_length_lt (Nat.lt_of_lt_of_le ?_ (two_le_length_spell hj))
      rw [spell_of_lt hi]
      exact Nat.one_lt_two
    have hi := Nat.not_lt.mp hi
    rw [spell_of_le hi, spell_of_le hj]
    -- either both come from one word, and the last letters decide, or the words before the last letters do
    rcases Nat.lt_or_eq_of_le (Nat.sub_le_sub_right (Nat.div_le_div_right (c := 26) (Nat.le_of_lt h)) 1) with hlt | heq
    · exact shortlex_append_letter (ih hlt) _ _
    · rw [heq]
      refine List.Shortlex.append_left ((List.shortlex_singleton_iff _ _).mpr (letter_lt_letter ?_)) _
      omega

theorem spell_injective : Function.Injective spell := by
  intro i j h
  rcases Nat.lt_trichotomy i j with hlt | rfl | hlt
  · exact absurd (h ▸ spell_lt_spell hlt) (Std.Irrefl.irrefl _)
  · rfl
  · exact absurd (h ▸ spell_lt_spell hlt) (Std.Irrefl.irrefl _)

theorem toList_letters (i : Nat) : (letters i).toList = spell i := String.toList_ofList

theorem letters_injective : Function.Injective fun i : Nat => letters i :=
  fun _ _ h => spell_injective (String.ofList_injective h)

/-- The letters of the natural numbers are the words over `a`, …, `z` that are not empty, each once, and in order: by
    length first and then by alphabet. -/
theorem letters_number_the_words :
    Set.BijOn (fun i : Nat => letters i) Set.univ {s | s ≠ "" ∧ ∀ c ∈ s.toList, 'a' ≤ c ∧ c ≤ 'z'} ∧
      ∀ i j : Nat, i < j ↔ List.Shortlex (· < ·) (letters i).toList (letters j).toList := by
  refine ⟨⟨fun i _ => ⟨mt String.ofList_eq_empty_iff.mp (spell_ne_nil i), fun c hc => ?_⟩, letters_injective.injOn, ?_⟩,
    fun i j => ?_⟩
  · rw [toList_letters] at hc
    exact isLetter_of_mem_spell hc
  · rintro s ⟨hne, hs⟩
    obtain ⟨i, hi⟩ := exists_spell (mt String.toList_eq_nil_iff.mp hne) hs
    exact ⟨i, trivial, String.toList_inj.mp ((toList_letters i).trans hi)⟩
  · rw [toList_letters, toList_letters]
    refine ⟨spell_lt_spell, fun h => ?_⟩
    rcases Nat.lt_trichotomy i j with hlt | rfl | hlt
    · exact hlt
    · exact absurd h (Std.Irrefl.irrefl _)
    · exact absurd (spell_lt_spell hlt) (Std.Asymm.asymm _ _ h)

end Statechart.Sample
