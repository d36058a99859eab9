/-
  Statechart.Proofs.Words — a text put together from words is cut into these words.

  The longest match leaves no choice: where some word is what has to be cut off, the lexer
  cuts it off (`piecesFrom_append`). So a text is `Worded` if each of its words in turn has to
  be cut off what is left, and then the lexer finds the words and complains of nothing
  (`Worded.lex`).

  Words are kept apart by what may follow them. No text of any kind reaches from a word
  over a closing parenthesis, or over a blank with an operator behind it (`Parted`); only
  `composite state` has a blank inside. A minus with a blank behind it is no arrow.
-/

import Statechart.Proofs.Anatomy

namespace Statechart

open Text (Pattern)

namespace Lexer

variable {u v cs rest : List Char} {k : Kind}

/-! ## The cut is unique -/

theorem winner_of_first (h : First k u) : (raceAt u).winner = some k := by
  obtain ⟨hk, earlier, later, heq, hnot⟩ := h
  rw [winner_raceAt, List.find?_eq_some_iff_append]
  refine ⟨(nullable_afterAll k u).mpr hk, earlier, later, heq, fun j hj => ?_⟩
  have hne := mt (nullable_afterAll j u).mp (hnot j hj)
  simpa using hne

theorem CutOff.unique {j : Option Kind} (h : CutOff cs (some k) u) (h' : CutOff cs j v) : j = some k ∧ v = u := by
  cases h with
  | readable hu hne hfirst hmax =>
    cases h' with
    | readable hv hne' hfirst' hmax' =>
      have hlen : v.length = u.length := Nat.le_antisymm (hmax _ v hv hfirst'.1) (hmax' _ u hu hfirst.1)
      obtain rfl : v = u := (List.prefix_of_prefix_length_le hv hu (Nat.le_of_eq hlen)).eq_of_length hlen
      exact ⟨(winner_of_first hfirst').symm.trans (winner_of_first hfirst), rfl⟩
    | unreadable hnone _ _ _ => exact absurd hfirst.1 (hnone k u hu)

/-- What has to be cut off is cut off. -/
theorem piecesFrom_append (h : CutOff (u ++ rest) (some k) u) (p : Position) :
    piecesFrom 0 p (u ++ rest) = ⟨some k, u, p⟩ :: piecesFrom 0 (p.skip u) rest := by
  have hne : u ≠ [] := by
    cases h with
    | readable _ hne _ _ => exact hne
  obtain ⟨c, cs, rfl⟩ := List.exists_cons_of_ne_nil hne
  rw [List.cons_append] at h ⊢
  obtain ⟨x, rest', hpieces, htext, hstart, hcut⟩ := piecesFrom_cons p c (cs ++ rest)
  obtain ⟨hkind, hx⟩ := h.unique hcut
  obtain ⟨kind, text, start⟩ := x
  cases hkind
  cases hx
  cases hstart
  have hrest : (c :: cs) ++ rest = (c :: cs) ++ rest' := htext
  rw [hpieces, List.append_cancel_left hrest]

/-! ## Words -/

/-- The text consists of these words, each of which has to be cut off. -/
inductive Worded : List Char → List (Kind × List Char) → Prop
  | nil : Worded [] []
  | cons {k : Kind} {u rest : List Char} {ws : List (Kind × List Char)} : CutOff (u ++ rest) (some k) u →
      Worded rest ws → Worded (u ++ rest) ((k, u) :: ws)

theorem Worded.single {c : Char} {ws : List (Kind × List Char)} (h : CutOff (c :: rest) (some k) [c])
    (hws : Worded rest ws) : Worded (c :: rest) ((k, [c]) :: ws) := @Worded.cons k [c] rest ws h hws

/-- The word of a token that is cut off. -/
def wordOf (w : Kind × List Char) : Kind × String := (w.1, w.1.literal?.getD (.ofList w.2))

theorem Worded.pieces {ws : List (Kind × List Char)} (h : Worded cs ws) (p : Position) :
    (piecesFrom 0 p cs).filterMap Piece.complaint? = [] ∧
      ((piecesFrom 0 p cs).filterMap Piece.token?).map Token.word = (ws.filter (·.1 ≠ .blank)).map wordOf := by
  induction h generalizing p with
  | nil => exact ⟨rfl, rfl⟩
  | @cons k u rest ws hcut _ ih =>
    obtain ⟨hcomplaints, hwords⟩ := ih (p.skip u)
    rw [piecesFrom_append hcut]
    refine ⟨by rwa [List.filterMap_cons_none rfl], ?_⟩
    by_cases hk : k = .blank
    · subst hk
      rwa [List.filterMap_cons_none rfl, List.filter_cons_of_neg (by simp)]
    · rw [List.filterMap_cons_some (token?_of_kind hk u p), List.filter_cons_of_pos (by simpa using hk), List.map_cons,
        List.map_cons, hwords]
      rfl

theorem CutUp.token_first {ps : List Piece} {t : Token} (h : CutUp cs ps) (ht : t ∈ ps.filterMap Piece.token?) :
    First t.kind t.text.toList := by
  obtain ⟨u, v, -, -, hcut⟩ := h.marks ht
  cases hcut with
  | readable _ _ hfirst _ => exact hfirst

theorem Worded.lex {text : String} {ws : List (Kind × List Char)} (h : Worded text.toList ws) :
    (lex text).complaints = [] ∧ (lex text).tokens.map Token.word = (ws.filter (·.1 ≠ .blank)).map wordOf :=
  h.pieces .start

end Lexer

/-! ## Characters of a pattern -/

namespace Text.Pattern

variable {p : Pattern} {c : Char} {u v : List Char}

/-- The character occurs in some text that the pattern describes. -/
def uses (c : Char) : Pattern → Bool
  | .nothing => false
  | .empty => false
  | .range rs => inRanges c rs
  | .seq p q => p.uses c || q.uses c
  | .either p q => p.uses c || q.uses c
  | .star p => p.uses c

theorem Matches.uses (h : p.Matches u) (hc : c ∈ u) : p.uses c = true := by
  induction h with
  | empty => cases hc
  | range hr => rwa [Pattern.uses, List.mem_singleton.mp hc]
  | seq _ _ ihp ihq => exact Bool.or_eq_true_iff.mpr ((List.mem_append.mp hc).imp ihp ihq)
  | left _ ih => exact Bool.or_eq_true_iff.mpr (Or.inl (ih hc))
  | right _ ih => exact Bool.or_eq_true_iff.mpr (Or.inr (ih hc))
  | done => cases hc
  | more _ _ ihp ihq => exact (List.mem_append.mp hc).elim ihp ihq

theorem eq_of_matches_literal {cs : List Char} (h : (literal cs).Matches u) : u = cs := by
  induction cs generalizing u with
  | nil =>
    cases h
    rfl
  | cons c cs ih =>
    cases cs with
    | nil => exact eq_of_matches_char h
    | cons d cs =>
      cases h with
      | seq hc hcs =>
        rw [eq_of_matches_char hc, ih hcs]
        rfl

end Text.Pattern

namespace Lexer

variable {u v cs rest : List Char} {k : Kind} {c : Char}

/-- What may stand behind a number or a variable. -/
def Parted (rest : List Char) : Prop :=
  rest = [] ∨ (∃ v, rest = ')' :: v) ∨ ∃ (op : Operator) (v : List Char), rest = ' ' :: (op.text.toList ++ v)

theorem head?_behind_blank (h : u ++ ' ' :: v = "composite state".toList) : v.head? = some 's' := by
  have hplace : ∀ i < 15, "composite state".toList[i]? = some ' ' → i = 9 := by decide +kernel
  have hlength : "composite state".toList.length = 15 := by decide +kernel
  have hlen : u.length < 15 := by
    rw [← hlength, ← h, List.length_append, List.length_cons]
    omega
  have hnine : u.length = 9 := hplace u.length hlen (by rw [← h]; simp)
  have hten : "composite state".toList[10]? = some 's' := by decide +kernel
  rw [← h, List.getElem?_append_right (by omega), hnine] at hten
  rwa [List.head?_eq_getElem?]

/-- No text of any kind reaches from a word into what parts it from the next. -/
theorem Parted.longest (hu : u ≠ []) (hrest : Parted rest) {j : Kind} (hv : v <+: u ++ rest)
    (hm : j.pattern.Matches v) : v.length ≤ u.length := by
  refine Nat.le_of_not_lt fun hlt => ?_
  obtain ⟨w, rfl⟩ := List.prefix_of_prefix_length_le (List.prefix_append u rest) hv (Nat.le_of_lt hlt)
  rw [List.prefix_append_right_inj] at hv
  rw [List.length_append] at hlt
  have hlong : 2 ≤ (u ++ w).length := by
    have := List.length_pos_iff.mpr hu
    rw [List.length_append]
    omega
  have hmem {d : Char} {r : List Char} (hr : rest = d :: r) : ∃ w', w = d :: w' ∧ w' <+: r := by
    cases w with
    | nil => simp at hlt
    | cons e w' =>
      rw [hr, List.cons_prefix_cons] at hv
      exact ⟨w', by rw [hv.1], hv.2⟩
  rcases hrest with hr | ⟨r, hr⟩ | ⟨op, r, hr⟩
  · rw [hr, List.prefix_nil] at hv
    simp [hv] at hlt
  · obtain ⟨w', rfl, -⟩ := hmem hr
    have hparen : ∀ j ∈ Kind.all, j.pattern.uses ')' = true → j = .closeParen := by decide +kernel
    obtain rfl := hparen j j.mem_all (hm.uses (List.mem_append_right _ List.mem_cons_self))
    rw [Pattern.eq_of_matches_char hm] at hlong
    exact absurd hlong (by decide)
  · obtain ⟨w', rfl, hw'⟩ := hmem hr
    have hblank : ∀ j ∈ Kind.all, j.pattern.uses ' ' = true → j = .blank ∨ j = .composite := by decide +kernel
    rcases hblank j j.mem_all (hm.uses (List.mem_append_right _ List.mem_cons_self)) with rfl | rfl
    · obtain ⟨c, hc, -⟩ := blank_of_matches hm
      rw [hc] at hlong
      exact absurd hlong (by simp)
    · -- the only blank of `composite state` has an `s` behind it, and not an operator
      have htext : u ++ ' ' :: w' = "composite state".toList := Pattern.eq_of_matches_literal hm
      obtain ⟨w'', rfl⟩ := List.head?_eq_some_iff.mp (head?_behind_blank htext)
      cases op <;> exact absurd (List.cons_prefix_cons.mp hw').1 (by decide)

theorem First.ne_nil (h : First k u) : u ≠ [] := by
  rintro rfl
  exact k.not_matches_nil h.1

/-- A word before such a place is cut off there. -/
theorem Parted.cutOff (hrest : Parted rest) (hfirst : First k u) : CutOff (u ++ rest) (some k) u :=
  .readable (List.prefix_append u rest) hfirst.ne_nil hfirst fun _ _ hv hm => hrest.longest hfirst.ne_nil hv hm

/-- A character is cut off where no text goes on behind it. -/
theorem cutOff_single (hfirst : First k [c])
    (h : ∀ (j : Kind) v, v <+: rest → (j.pattern.after c).Matches v → v = []) : CutOff (c :: rest) (some k) [c] := by
  refine .readable (by simp) (by simp) hfirst fun j v hv hm => ?_
  cases v with
  | nil => exact Nat.zero_le _
  | cons d v =>
    obtain ⟨rfl, hpre⟩ := List.cons_prefix_cons.mp hv
    rw [h j v hpre ((Pattern.after_iff ..).mpr hm)]

theorem nothing_behind {j : Kind} (h : (j.pattern.after c).dead = true ∨ j.pattern.after c = .empty)
    (hm : (j.pattern.after c).Matches v) : v = [] := by
  rcases h with hdead | hempty
  · exact absurd hm ((Pattern.dead_iff (j.inhabited_pattern.after c)).mp hdead v)
  · rw [hempty] at hm
    cases hm
    rfl

/-- Behind a parenthesis or a blank no text goes on. -/
theorem cutOff_alone (hfirst : (raceAt [c]).winner = some k)
    (h : ∀ j ∈ Kind.all, (j.pattern.after c).dead = true ∨ j.pattern.after c = .empty) :
    CutOff (c :: rest) (some k) [c] :=
  cutOff_single (first_of_winner hfirst) fun j _ _ hm => nothing_behind (h j j.mem_all) hm

theorem cutOff_openParen (rest : List Char) : CutOff ('(' :: rest) (some .openParen) ['('] :=
  cutOff_alone (by decide +kernel) (by decide +kernel)

theorem cutOff_closeParen (rest : List Char) : CutOff (')' :: rest) (some .closeParen) [')'] :=
  cutOff_alone (by decide +kernel) (by decide +kernel)

theorem cutOff_blank (rest : List Char) : CutOff (' ' :: rest) (some .blank) [' '] :=
  cutOff_alone (by decide +kernel) (by decide +kernel)

/-- Behind an operator only an arrow goes on, and not with a blank. -/
theorem cutOff_operator (op : Operator) (rest : List Char) :
    CutOff (op.text.toList ++ ' ' :: rest) (some op.kind) op.text.toList := by
  obtain ⟨c, hc⟩ : ∃ c, op.text.toList = [c] := by cases op <;> exact ⟨_, rfl⟩
  have hfirst : (raceAt op.text.toList).winner = some op.kind := by cases op <;> decide +kernel
  have hafter : ∀ j ∈ Kind.all, ((j.pattern.after c).dead = true ∨ j.pattern.after c = .empty) ∨
      j.pattern.after c = .char '>' := by
    cases op <;> cases hc <;> decide +kernel
  rw [hc] at hfirst ⊢
  refine cutOff_single (first_of_winner hfirst) fun j v hv hm => ?_
  rcases hafter j j.mem_all with hnothing | harrow
  · exact nothing_behind hnothing hm
  · rw [harrow] at hm
    rw [Pattern.eq_of_matches_char hm] at hv
    exact absurd (List.cons_prefix_cons.mp hv).1 (by decide)

end Lexer

end Statechart
