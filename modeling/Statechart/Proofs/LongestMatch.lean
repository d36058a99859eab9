/-
  Statechart.Proofs.LongestMatch — the lexer cuts every text by longest match.

  What the cut has to be is said by `Matches` alone: a piece with a kind is the longest
  beginning of the rest that any kind matches, and no kind earlier in the order matches it
  (`First`); where no beginning matches, the piece is the longest beginning that could
  become a match (`Viable`) with one more character.
  - `after_raceAt`: the race behind `u` holds what each pattern leaves behind `u`, less the
    dead ones. So the race ends where no text of any kind begins like this.
  - `reachFrom_best`, `reachFrom_read`: reading on finds the longest match, and how far a
    match could still come.
  - `piecesFrom_cut`: each piece is cut off the rest so, and starts where those before it
    end; `Position.start_skip` says which line and column that is.

  - `forall₂_filterMap`: tokens and complaints are made of pieces one by one, so they are
    related to the pieces that they are made of (`Takes`, `Reports`).

  Proved (`lexed_by_longest_match`): the pieces are the whole text, each is cut by longest
  match, and blanks are single characters. Each piece of a kind other than blank is one
  token of that kind, with its text, line and column; each unreadable piece is one
  complaint at its place; there are no other tokens and complaints, and the tokens lie one
  behind the other.
-/

import Statechart.Token.Lexer
import Mathlib.Data.List.Forall2
import Mathlib.Data.List.Induction

namespace Statechart

open Text (Pattern)

/-! ## Patterns behind a text -/

namespace Text.Pattern

variable {p q : Pattern} {c : Char} {u v : List Char}

/-- The pattern of what may follow once `u` was read. -/
def afterAll (p : Pattern) (u : List Char) : Pattern := u.foldl (fun p c => p.after c) p

theorem afterAll_iff (p : Pattern) (u v : List Char) : (p.afterAll u).Matches v ↔ p.Matches (u ++ v) := by
  induction u generalizing p with
  | nil => rfl
  | cons c u ih =>
    show ((p.after c).afterAll u).Matches v ↔ _
    rw [ih, after_iff, List.cons_append]

theorem dead_join (h : p.dead = true ∨ q.dead = true) : (join p q).dead = true := by
  unfold join
  split
  · rfl
  · exact h.elim (fun h => by cases h) id
  · simpa [dead] using h

theorem dead_alt (hp : p.dead = true) (hq : q.dead = true) : (alt p q).dead = true := by
  unfold alt
  split
  · exact hq
  · exact hp
  · simp [dead, hp, hq]

theorem not_nullable_of_dead (h : p.dead = true) : p.nullable = false := by
  induction p with
  | nothing => rfl
  | empty => cases h
  | range rs => rfl
  | seq p q ihp ihq =>
    rw [dead, Bool.or_eq_true] at h
    rcases h with h | h
    · rw [nullable, ihp h, Bool.false_and]
    · rw [nullable, ihq h, Bool.and_false]
  | either p q ihp ihq =>
    rw [dead, Bool.and_eq_true] at h
    rw [nullable, ihp h.1, ihq h.2, Bool.or_false]
  | star p _ => cases h

/-- Nothing comes back to life. -/
theorem dead_after (h : p.dead = true) (c : Char) : (p.after c).dead = true := by
  induction p with
  | nothing => rfl
  | empty => cases h
  | range rs =>
    rw [dead, List.isEmpty_iff] at h
    subst h
    rfl
  | seq p q ihp ihq =>
    rw [dead, Bool.or_eq_true] at h
    rw [after]
    rcases h with h | h
    · rw [if_neg (by simp [not_nullable_of_dead h])]
      exact dead_join (Or.inl (ihp h))
    · split
      · exact dead_alt (dead_join (Or.inr h)) (ihq h)
      · exact dead_join (Or.inr h)
  | either p q ihp ihq =>
    rw [dead, Bool.and_eq_true] at h
    exact dead_alt (ihp h.1) (ihq h.2)
  | star p _ => cases h

theorem Inhabited.join (hp : p.Inhabited) (hq : q.Inhabited) : (join p q).Inhabited := by
  unfold Pattern.join
  split
  · trivial
  · exact hq
  · exact ⟨hp, hq⟩

theorem Inhabited.alt (hp : p.Inhabited) (hq : q.Inhabited) : (alt p q).Inhabited := by
  unfold Pattern.alt
  split
  · exact hq
  · exact hp
  · exact ⟨hp, hq⟩

theorem Inhabited.after (h : p.Inhabited) (c : Char) : (p.after c).Inhabited := by
  induction p with
  | nothing => trivial
  | empty => trivial
  | range rs => rw [Pattern.after]; split <;> trivial
  | seq p q ihp ihq =>
    rw [Pattern.after]
    split
    · exact ((ihp h.1).join h.2).alt (ihq h.2)
    · exact (ihp h.1).join h.2
  | either p q ihp ihq => exact (ihp h.1).alt (ihq h.2)
  | star p ih => exact (ih h).join h

theorem Inhabited.afterAll (h : p.Inhabited) (u : List Char) : (p.afterAll u).Inhabited := by
  induction u generalizing p with
  | nil => exact h
  | cons c u ih => exact ih (h.after c)

theorem inhabited_char (c : Char) : (char c).Inhabited := by
  intro r hr
  cases List.mem_singleton.mp hr
  exact Nat.le_refl _

theorem inhabited_literal (cs : List Char) : (literal cs).Inhabited := by
  induction cs with
  | nil => trivial
  | cons c cs ih =>
    cases cs with
    | nil => exact inhabited_char c
    | cons d cs => exact ⟨inhabited_char c, ih⟩

end Text.Pattern

theorem Kind.inhabited_pattern (k : Kind) : k.pattern.Inhabited := by
  unfold Kind.pattern
  split
  · exact Pattern.inhabited_literal _
  all_goals simp [Pattern.Inhabited, Pattern.plus, Pattern.opt, Pattern.char, lower, upper, digit, underscore]

/-- The patterns of the kinds match no empty text. -/
theorem Kind.not_matches_nil (k : Kind) : ¬ k.pattern.Matches [] := by
  rw [← Pattern.nullable_iff]
  cases k <;> decide

namespace Lexer

variable {u v cs : List Char} {k : Kind}

/-! ## What the cut has to be -/

/-- Some text of some kind begins like this. -/
def Viable (u : List Char) : Prop := ∃ (k : Kind) (v : List Char), k.pattern.Matches (u ++ v)

/-- `k` is the first kind in order that matches the text. -/
def First (k : Kind) (u : List Char) : Prop :=
  k.pattern.Matches u ∧ ∃ earlier later, Kind.all = earlier ++ k :: later ∧ ∀ j ∈ earlier, ¬ j.pattern.Matches u

/-- What is to be cut off the rest `cs` of a text: a kind, if it is readable, and the text. -/
inductive CutOff (cs : List Char) : Option Kind → List Char → Prop
  /-- The longest beginning that some kind matches. -/
  | readable {k : Kind} {u : List Char} : u <+: cs → u ≠ [] → First k u →
      (∀ (j : Kind) v, v <+: cs → j.pattern.Matches v → v.length ≤ u.length) → CutOff cs (some k) u
  /-- The longest beginning that could become a match, and one character more if there is one. -/
  | unreadable {u : List Char} : (∀ (j : Kind) v, v <+: cs → ¬ j.pattern.Matches v) → u <+: cs → Viable u →
      (∀ v, v <+: cs → Viable v → v.length ≤ u.length) → CutOff cs none (cs.take (u.length + 1))

theorem viable_nil : Viable [] := ⟨.point, ['.'], .range (by decide)⟩

theorem Viable.of_append (h : Viable (u ++ v)) : Viable u := by
  obtain ⟨k, w, h⟩ := h
  exact ⟨k, v ++ w, by rwa [← List.append_assoc]⟩

theorem viable_of_matches (h : k.pattern.Matches (u ++ v)) : Viable u := ⟨k, v, h⟩

/-! ## The race -/

/-- The race behind `u`. -/
def raceAt (u : List Char) : Race := (Kind.all.map fun k => (k, k.pattern.afterAll u)).filter fun x => !x.2.dead

theorem after_raceAt (u : List Char) (c : Char) : (raceAt u).after c = raceAt (u ++ [c]) := by
  unfold raceAt Race.after
  generalize Kind.all = ks
  induction ks with
  | nil => rfl
  | cons k ks ih =>
    have hafter : k.pattern.afterAll (u ++ [c]) = (k.pattern.afterAll u).after c := by
      simp [Pattern.afterAll]
    rw [List.map_cons, List.map_cons, List.filter_cons, List.filter_cons, hafter, ← ih]
    by_cases hd : (k.pattern.afterAll u).dead = true
    · simp [hd, Pattern.dead_after hd c]
    · simp [hd, List.filter_cons]

theorem raceAt_isEmpty (u : List Char) : (raceAt u).isEmpty = true ↔ ¬ Viable u := by
  have hdead (k : Kind) : (k.pattern.afterAll u).dead = true ↔ ∀ v, ¬ k.pattern.Matches (u ++ v) := by
    rw [Pattern.dead_iff (k.inhabited_pattern.afterAll u)]
    simp only [Pattern.afterAll_iff]
  simp [raceAt, Viable, List.filter_eq_nil_iff, hdead, Kind.mem_all]

theorem winner_raceAt (u : List Char) :
    (raceAt u).winner = Kind.all.find? fun k => (k.pattern.afterAll u).nullable := by
  unfold raceAt Race.winner
  generalize Kind.all = ks
  induction ks with
  | nil => rfl
  | cons k ks ih =>
    rw [List.map_cons, List.filter_cons, List.find?_cons]
    by_cases hd : (k.pattern.afterAll u).dead = true
    · simpa [hd, Pattern.not_nullable_of_dead hd] using ih
    · by_cases hn : (k.pattern.afterAll u).nullable = true
      · simp [hd, hn]
      · simpa [hd, hn] using ih

theorem nullable_afterAll (k : Kind) (u : List Char) :
    (k.pattern.afterAll u).nullable = true ↔ k.pattern.Matches u := by
  rw [Pattern.nullable_iff, Pattern.afterAll_iff, List.append_nil]

theorem first_of_winner (h : (raceAt u).winner = some k) : First k u := by
  rw [winner_raceAt, List.find?_eq_some_iff_append] at h
  obtain ⟨hk, earlier, later, heq, hnot⟩ := h
  refine ⟨(nullable_afterAll k u).mp hk, earlier, later, heq, fun j hj hm => ?_⟩
  have := hnot j hj
  simp [(nullable_afterAll j u).mpr hm] at this

theorem not_matches_of_winner (h : (raceAt u).winner = none) (k : Kind) : ¬ k.pattern.Matches u := by
  rw [winner_raceAt, List.find?_eq_none] at h
  rw [← nullable_afterAll]
  exact h k k.mem_all

/-! ## Reading on -/

/-- What is bounded behind one character more is bounded by one more. -/
theorem length_le_succ {P : List Char → Prop} {c : Char} {n : Nat}
    (h : ∀ w, w <+: cs → P (u ++ [c] ++ w) → w.length ≤ n) (w : List Char) (hw : w <+: c :: cs) (hP : P (u ++ w)) :
    w.length ≤ n + 1 := by
  cases w with
  | nil => exact Nat.zero_le _
  | cons d w =>
    obtain ⟨rfl, hrest⟩ := List.cons_prefix_cons.mp hw
    rw [List.append_cons] at hP
    have := h w hrest hP
    simpa using this

/-- How far a match could still come. -/
theorem reachFrom_read (best : Option (Kind × Nat)) (n : Nat) (cs : List Char) (hu : Viable u) :
    ∃ v, v <+: cs ∧ (reachFrom (raceAt u) best n cs).read = n + v.length ∧ Viable (u ++ v) ∧
      ∀ w, w <+: cs → Viable (u ++ w) → w.length ≤ v.length := by
  induction cs generalizing u best n with
  | nil =>
    refine ⟨[], List.nil_prefix, rfl, by rwa [List.append_nil], fun w hw _ => ?_⟩
    cases List.prefix_nil.mp hw
    exact Nat.le_refl _
  | cons c cs ih =>
    rw [reachFrom, after_raceAt]
    split
    · rename_i hempty
      rw [raceAt_isEmpty] at hempty
      refine ⟨[], List.nil_prefix, rfl, by rwa [List.append_nil], fun w hw hv => ?_⟩
      cases w with
      | nil => exact Nat.le_refl _
      | cons d w =>
        obtain ⟨rfl, -⟩ := List.cons_prefix_cons.mp hw
        rw [List.append_cons] at hv
        exact absurd hv.of_append hempty
    · rename_i hempty
      rw [raceAt_isEmpty, Classical.not_not] at hempty
      obtain ⟨v, hv, hread, hviable, hmax⟩ := ih _ (n + 1) hempty
      refine ⟨c :: v, by simpa using hv, ?_, by rwa [List.append_cons], length_le_succ hmax⟩
      rw [hread, List.length_cons]
      omega

/-- Reading on finds the longest match there is, or leaves what was found before. -/
theorem reachFrom_best (best : Option (Kind × Nat)) (n : Nat) (u cs : List Char) :
    (∃ k v, v ≠ [] ∧ v <+: cs ∧ (reachFrom (raceAt u) best n cs).best = some (k, n + v.length) ∧ First k (u ++ v) ∧
      ∀ (j : Kind) w, w <+: cs → j.pattern.Matches (u ++ w) → w.length ≤ v.length) ∨
    (reachFrom (raceAt u) best n cs).best = best ∧
      ∀ (j : Kind) w, w ≠ [] → w <+: cs → ¬ j.pattern.Matches (u ++ w) := by
  induction cs generalizing u best n with
  | nil => exact Or.inr ⟨rfl, fun j w hne hw => absurd (List.prefix_nil.mp hw) hne⟩
  | cons c cs ih =>
    rw [reachFrom, after_raceAt]
    split
    · rename_i hempty
      rw [raceAt_isEmpty] at hempty
      refine Or.inr ⟨rfl, fun j w hne hw hm => hempty ?_⟩
      obtain ⟨d, w, rfl⟩ := List.exists_cons_of_ne_nil hne
      obtain ⟨rfl, -⟩ := List.cons_prefix_cons.mp hw
      rw [List.append_cons] at hm
      exact viable_of_matches hm
    · -- a match of one character more, and what is found behind it
      rcases ih (((raceAt (u ++ [c])).winner.map fun k => (k, n + 1)).or best) (n + 1) (u ++ [c]) with
        ⟨k, v, -, hv, hbest, hfirst, hmax⟩ | ⟨hbest, hnone⟩
      · refine Or.inl ⟨k, c :: v, List.cons_ne_nil _ _, by simpa using hv, ?_, by rwa [List.append_cons], ?_⟩
        · rw [hbest, List.length_cons]
          congr 2
          omega
        · exact fun j => length_le_succ (hmax j)
      · have hshort (j : Kind) : ∀ w, w <+: c :: cs → j.pattern.Matches (u ++ w) → w.length ≤ 0 + 1 := by
          refine length_le_succ fun w hw hm => ?_
          cases w with
          | nil => exact Nat.le_refl _
          | cons d w => exact absurd hm (hnone j _ (List.cons_ne_nil _ _) hw)
        cases hw : (raceAt (u ++ [c])).winner with
        | some k =>
          rw [hw] at hbest
          exact Or.inl ⟨k, [c], List.cons_ne_nil _ _, by simp, hbest, first_of_winner hw, hshort⟩
        | none =>
          rw [hw] at hbest
          refine Or.inr ⟨hbest, fun j w hne hpre hm => ?_⟩
          obtain ⟨d, w, rfl⟩ := List.exists_cons_of_ne_nil hne
          obtain ⟨rfl, hpre'⟩ := List.cons_prefix_cons.mp hpre
          have hlen := hshort j _ hpre hm
          obtain rfl : w = [] := by
            cases w with
            | nil => rfl
            | cons e w => simp at hlen
          exact not_matches_of_winner hw j hm

theorem cut_cutOff (c : Char) (cs : List Char) :
    CutOff (c :: cs) (cut (c :: cs)).1 (c :: cs.take (cut (c :: cs)).2) := by
  have hbest := reachFrom_best none 0 [] (c :: cs)
  obtain ⟨w, hw, hread, hviable, hfar⟩ := reachFrom_read none 0 (c :: cs) viable_nil
  unfold cut reach
  rw [show race = raceAt [] from rfl]
  generalize reachFrom (raceAt []) none 0 (c :: cs) = r at hbest hread
  obtain ⟨best, read⟩ := r
  rcases hbest with ⟨k, v, hne, hv, rfl, hfirst, hmax⟩ | ⟨rfl, hnone⟩
  · obtain ⟨d, v, rfl⟩ := List.exists_cons_of_ne_nil hne
    obtain ⟨rfl, hpre⟩ := List.cons_prefix_cons.mp hv
    have htake : cs.take (0 + (d :: v).length - 1) = v := by simpa using (List.prefix_iff_eq_take.mp hpre).symm
    dsimp only
    rw [htake]
    exact .readable hv hne hfirst hmax
  · obtain rfl : read = w.length := by simpa using hread
    refine .unreadable (u := w) (fun j v hv hm => ?_) hw hviable hfar
    cases v with
    | nil => exact j.not_matches_nil hm
    | cons d v => exact hnone j _ (List.cons_ne_nil _ _) hv hm

end Lexer

/-! ## Places -/

/-- The place behind a text, which starts on line 1: its line feeds count the lines, what follows the last of them
    the columns. -/
def Position.behind (u : List Char) : Position :=
  ⟨1 + u.count '\n', (u.reverse.takeWhile (· ≠ '\n')).length, u.length⟩

theorem Position.skip_append (p : Position) (u v : List Char) : p.skip (u ++ v) = (p.skip u).skip v := List.foldl_append

theorem Position.start_skip (u : List Char) : Position.start.skip u = .behind u := by
  induction u using List.reverseRecOn with
  | nil => rfl
  | append_singleton u c ih =>
    rw [skip_append, ih]
    show Position.next _ c = _
    unfold next behind
    split
    · rename_i hc
      simp [hc]
      omega
    · rename_i hc
      simp [hc]

/-! ## Pieces -/

namespace Lexer

theorem piecesFrom_skip (n : Nat) (p : Position) (cs : List Char) :
    piecesFrom n p cs = piecesFrom 0 (p.skip (cs.take n)) (cs.drop n) := by
  induction cs generalizing n p with
  | nil => rw [List.take_nil, List.drop_nil]; rfl
  | cons c cs ih =>
    cases n with
    | zero => rfl
    | succ n => exact ih n (p.next c)

/-- The first piece is cut off, and the others are those of what is left. -/
theorem piecesFrom_cons (p : Position) (c : Char) (cs : List Char) :
    ∃ x rest, piecesFrom 0 p (c :: cs) = x :: piecesFrom 0 (p.skip x.text) rest ∧ c :: cs = x.text ++ rest ∧
      x.start = p ∧ CutOff (c :: cs) x.kind x.text := by
  let n := (cut (c :: cs)).2
  refine ⟨⟨(cut (c :: cs)).1, c :: cs.take n, p⟩, cs.drop n, ?_, ?_, rfl, cut_cutOff c cs⟩
  · show _ :: piecesFrom n (p.next c) cs = _
    rw [piecesFrom_skip]
    rfl
  · rw [List.cons_append, List.take_append_drop]

/-- Each piece is cut off the rest of the text, and starts where those before it end. -/
theorem piecesFrom_cut {p : Position} {before after : List Piece} {x : Piece}
    (h : piecesFrom 0 p cs = before ++ x :: after) :
    CutOff (x.text ++ after.flatMap (·.text)) x.kind x.text ∧ x.start = p.skip (before.flatMap (·.text)) := by
  induction before generalizing p cs with
  | nil =>
    cases cs with
    | nil => cases h
    | cons c cs =>
      obtain ⟨y, rest, hpieces, htext, hstart, hcut⟩ := piecesFrom_cons p c cs
      rw [hpieces] at h
      obtain ⟨rfl, rfl⟩ := List.cons.inj h
      rw [piecesFrom_text, List.drop_zero, ← htext]
      exact ⟨hcut, hstart⟩
  | cons y before ih =>
    cases cs with
    | nil => cases h
    | cons c cs =>
      obtain ⟨z, rest, hpieces, -, -, -⟩ := piecesFrom_cons p c cs
      rw [hpieces] at h
      obtain ⟨rfl, hrest⟩ := List.cons.inj h
      rw [List.flatMap_cons, Position.skip_append]
      exact ih hrest

theorem piecesFrom_ne_nil (n : Nat) (p : Position) (cs : List Char) : ∀ x ∈ piecesFrom n p cs, x.text ≠ [] := by
  induction cs generalizing n p with
  | nil => intro x hx; cases hx
  | cons c cs ih =>
    intro x hx
    cases n with
    | succ n => exact ih n _ x hx
    | zero =>
      rcases List.mem_cons.mp hx with rfl | hx
      · exact List.cons_ne_nil _ _
      · exact ih _ _ x hx

theorem CutOff.matches (h : CutOff cs (some k) u) : k.pattern.Matches u := by
  cases h with
  | readable _ _ hfirst _ => exact hfirst.1

/-- A blank is one character. -/
theorem blank_of_matches (h : Kind.blank.pattern.Matches u) : ∃ c, u = [c] ∧ c ∈ [' ', '\t', '\r', '\n'] := by
  cases h with
  | @range c _ hc =>
    refine ⟨c, rfl, ?_⟩
    simp only [Pattern.inRanges, List.any_cons, List.any_nil, Bool.or_false, Bool.or_eq_true, Bool.and_eq_true,
      decide_eq_true_eq] at hc
    have hone (d : Char) (h : d.toNat ≤ c.toNat ∧ c.toNat ≤ d.toNat) : c = d :=
      Char.toNat_inj.mp (Nat.le_antisymm h.2 h.1)
    rcases hc with h | h | h | h
    all_goals simp [hone _ h]

/-- The text is cut up into these pieces by longest match. -/
structure CutUp (cs : List Char) (ps : List Piece) : Prop where
  /-- One after the other the pieces are the whole text. -/
  whole : ps.flatMap (·.text) = cs
  nonempty : ∀ x ∈ ps, x.text ≠ []
  /-- Each is cut off what is left of the text. -/
  cut : ∀ before x after, ps = before ++ x :: after → CutOff (x.text ++ after.flatMap (·.text)) x.kind x.text
  start : ∀ before x after, ps = before ++ x :: after → x.start = .behind (before.flatMap (·.text))
  blank : ∀ x ∈ ps, x.kind = some .blank → ∃ c, x.text = [c] ∧ c ∈ [' ', '\t', '\r', '\n']

theorem pieces_cutUp (cs : List Char) : CutUp cs (pieces cs) where
  whole := pieces_text cs
  nonempty := piecesFrom_ne_nil 0 .start cs
  cut _ _ _ h := (piecesFrom_cut h).1
  start _ _ _ h := (piecesFrom_cut h).2.trans (Position.start_skip _)
  blank x hx hk := by
    obtain ⟨before, after, h⟩ := List.append_of_mem hx
    have hcut := (piecesFrom_cut h).1
    rw [hk] at hcut
    exact blank_of_matches hcut.matches

/-! ## Tokens -/

variable {ps : List Piece} {x : Piece} {t : Token}

theorem token?_of_kind {k : Kind} (hk : k ≠ .blank) (u : List Char) (p : Position) : Piece.token? ⟨some k, u, p⟩ =
    some ⟨k, .ofList u, p.line, p.column, p.offset, p.offset + u.length - 1⟩ := by
  unfold Piece.token?
  split
  · rename_i h
    cases h
  · rename_i h
    cases h
    exact absurd rfl hk
  · rename_i h
    cases h
    rfl

theorem token?_eq_some (h : x.token? = some t) :
    ∃ k, x.kind = some k ∧ t = ⟨k, .ofList x.text, x.start.line, x.start.column, x.start.offset,
      x.start.offset + x.text.length - 1⟩ := by
  unfold Piece.token? at h
  split at h
  · cases h
  · cases h
  · rename_i k _ hk
    cases h
    exact ⟨k, hk, rfl⟩

/-- The token is the text behind `u`, and is marked with the place where that is. -/
structure Marks (t : Token) (u : List Char) : Prop where
  nonempty : t.text.toList ≠ []
  start : t.start = u.length
  stop : t.stop = u.length + t.text.toList.length - 1
  line : t.line = 1 + u.count '\n'
  column : t.column = (u.reverse.takeWhile (· ≠ '\n')).length

theorem CutUp.marks (h : CutUp cs ps) (ht : t ∈ ps.filterMap Piece.token?) :
    ∃ u v, cs = u ++ t.text.toList ++ v ∧ Marks t u ∧
      CutOff (t.text.toList ++ v) (some t.kind) t.text.toList := by
  obtain ⟨x, hx, htok⟩ := List.mem_filterMap.mp ht
  have hne := h.nonempty x hx
  obtain ⟨k, hk, rfl⟩ := token?_eq_some htok
  obtain ⟨before, after, rfl⟩ := List.append_of_mem hx
  have hstart := h.start before x after rfl
  have hcut := h.cut before x after rfl
  rw [hk] at hcut
  refine ⟨before.flatMap (·.text), after.flatMap (·.text), ?_, ?_, by simpa using hcut⟩
  · rw [← h.whole]
    simp
  · refine ⟨by simpa using hne, ?_, ?_, ?_, ?_⟩
    all_goals simp [hstart, Position.behind]

theorem CutUp.token_matches (h : CutUp cs ps) (ht : t ∈ ps.filterMap Piece.token?) :
    t.kind.pattern.Matches t.text.toList := by
  obtain ⟨u, v, -, -, hcut⟩ := h.marks ht
  exact hcut.matches

/-- A piece ends before a later one starts. -/
theorem CutUp.pairwise (h : CutUp cs ps) :
    ps.Pairwise fun x y => x.start.offset + x.text.length ≤ y.start.offset := by
  suffices hall : ∀ before rest, ps = before ++ rest →
      rest.Pairwise fun x y => x.start.offset + x.text.length ≤ y.start.offset from hall [] ps rfl
  intro before rest
  induction rest generalizing before with
  | nil => exact fun _ => .nil
  | cons x rest ih =>
    intro hps
    refine .cons ?_ (ih (before ++ [x]) (by simpa using hps))
    intro y hy
    obtain ⟨between, after, rfl⟩ := List.append_of_mem hy
    rw [h.start before x _ hps, h.start (before ++ x :: between) y after (by simpa using hps)]
    simp only [Position.behind, List.flatMap_append, List.flatMap_cons, List.length_append]
    omega

theorem CutUp.tokens_pairwise (h : CutUp cs ps) :
    (ps.filterMap Piece.token?).Pairwise fun s t => s.stop < t.start := by
  rw [List.pairwise_filterMap]
  refine h.pairwise.imp fun hxy s hs t ht => ?_
  obtain ⟨j, -, rfl⟩ := token?_eq_some hs
  obtain ⟨k, -, rfl⟩ := token?_eq_some ht
  dsimp only
  omega

/-- The token taken from a piece: of its kind, with its text and its place. -/
structure Takes (x : Piece) (t : Token) : Prop where
  kind : x.kind = some t.kind
  text : t.text.toList = x.text
  line : t.line = x.start.line
  column : t.column = x.start.column
  start : t.start = x.start.offset
  stop : t.stop = x.start.offset + x.text.length - 1

/-- The complaint about a piece that has no kind: it names the text, and the place where that starts. -/
structure Reports (x : Piece) (c : Complaint) : Prop where
  kind : x.kind = none
  line : c.line = x.start.line
  column : c.column = x.start.column
  message : c.message = "token recognition error at: '" ++ String.ofList (x.text.flatMap show1) ++ "'"

/-- Where a function has results on chosen entries alone, its results are related to these entries one by one. -/
theorem forall₂_filterMap {α β : Type} {R : α → β → Prop} {p : α → Bool} {f : α → Option β}
    (hp : ∀ a, p a = true → ∃ b, f a = some b ∧ R a b) (hn : ∀ a, p a = false → f a = none) (as : List α) :
    List.Forall₂ R (as.filter p) (as.filterMap f) := by
  induction as with
  | nil => exact .nil
  | cons a as ih =>
    cases ha : p a with
    | true =>
      obtain ⟨b, hb, hr⟩ := hp a ha
      rw [List.filter_cons_of_pos ha, List.filterMap_cons_some hb]
      exact .cons hr ih
    | false =>
      rw [List.filter_cons_of_neg (by simp [ha]), List.filterMap_cons_none (hn a ha)]
      exact ih

theorem tokens_taken (ps : List Piece) :
    List.Forall₂ Takes (ps.filter fun x => x.kind ≠ none ∧ x.kind ≠ some .blank) (ps.filterMap Piece.token?) := by
  apply forall₂_filterMap
  · rintro ⟨_ | k, u, p⟩ hx
    · simp at hx
    · have hk : k ≠ .blank := by simpa using hx
      exact ⟨_, token?_of_kind hk u p, rfl, String.toList_ofList, rfl, rfl, rfl, rfl⟩
  · rintro ⟨_ | k, u, p⟩ hx
    · rfl
    · obtain rfl : k = .blank := by simpa using hx
      rfl

theorem complaints_reported (ps : List Piece) :
    List.Forall₂ Reports (ps.filter fun x => x.kind = none) (ps.filterMap Piece.complaint?) := by
  apply forall₂_filterMap
  · intro x hx
    have hk : x.kind = none := of_decide_eq_true hx
    exact ⟨_, by rw [Piece.complaint?, hk], hk, rfl, rfl, rfl⟩
  · intro x hx
    obtain ⟨k, hk⟩ := Option.ne_none_iff_exists'.mp (of_decide_eq_false hx)
    rw [Piece.complaint?, hk]

/-- Every text is cut up by longest match into pieces, each character in one of them. The pieces of a kind other than
    blank are taken as the tokens, one by one and in order; those that have no kind are reported, one by one. The
    tokens lie one behind the other, and each is the longest match of what was left of the text where it starts. -/
theorem lexed_by_longest_match (text : String) :
    ∃ ps, CutUp text.toList ps ∧
      List.Forall₂ Takes (ps.filter fun x => x.kind ≠ none ∧ x.kind ≠ some .blank) (lex text).tokens ∧
      List.Forall₂ Reports (ps.filter fun x => x.kind = none) (lex text).complaints ∧
      (lex text).tokens.Pairwise (fun s t => s.stop < t.start) ∧
      ∀ t ∈ (lex text).tokens, ∃ u v, text.toList = u ++ t.text.toList ++ v ∧ Marks t u ∧
        CutOff (t.text.toList ++ v) (some t.kind) t.text.toList := by
  have hcut := pieces_cutUp text.toList
  exact ⟨pieces text.toList, hcut, tokens_taken _, complaints_reported _, hcut.tokens_pairwise,
    fun t ht => hcut.marks ht⟩

end Lexer

/-- A token of the lexer matches the pattern of its kind. -/
theorem lex_matches {text : String} {t : Token} (ht : t ∈ (lex text).tokens) :
    t.kind.pattern.Matches t.text.toList := (Lexer.pieces_cutUp text.toList).token_matches ht

end Statechart
