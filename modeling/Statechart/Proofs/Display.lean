/-
  Statechart.Proofs.Display — which expressions are read back from the text they are shown by.

  The text of an expression shows a sign by a name, and numbers of some sizes with a marked
  power of ten or by a name. Where it does neither (`Bare`), its words are those that spell
  the expression, with blanks around the operators, and the lexer cuts it into just these
  (`Expr.worded`). They lead the parser to the expression with its numbers as they are
  written (`Expr.shown`), and the numbers are read back.

  For the other direction letters are counted. A text that is read has letters only in
  its variables (`Yields.letters`), while a sign, a mark and the name of a number add letters
  to the text that is shown (`Expr.letters_text`).

  Proved (`Expr.reads_back_iff_bare`): every expression in a text without complaints is
  built, and it reads back exactly if it is bare. `-x` and ten to the sixteenth do not.
-/

import Statechart.Proofs.Binding
import Statechart.Proofs.Buildable
import Statechart.Proofs.Numerals
import Statechart.Proofs.Words
import Mathlib

namespace Statechart

open Decimal (Plain letters letters_append)
open Lexer (First Worded Parted)
open Text (Pattern)
open Text.Pattern (inRanges)

/-! ## Expressions that read back -/

namespace Expr

/-- No sign, and no number but those that are written out. -/
def Bare : Expr Float → Prop
  | .binary _ l r => l.Bare ∧ r.Bare
  | .paren s e => s = none ∧ e.Bare
  | .number s x => s = none ∧ Plain x
  | .variable s _ => s = none

/-- The text of the expression is read into it again, without complaint and to its end. -/
structure ReadsBack (e : Expr Float) : Prop where
  complaints : (parse .expression e.text).complaints = []
  whole : (Parser.outcome .expression (lex e.text)).ahead = []
  same : Expr.ofTree readNumber (parse .expression e.text).tree = .ok e

/-- The variables are words of a text, and no number is negative, as in an expression that was read. -/
def Legible : Expr Float → Prop
  | .binary _ l r => l.Legible ∧ r.Legible
  | .paren _ e => e.Legible
  | .number _ x => Rounding.IsPositive (Decimal.Reading.ofBits x.toBits.toNat)
  | .variable _ x => First .variable x.toList

/-- The expression with its numbers as they are written. -/
def shown : Expr Float → Expr String
  | .binary op l r => .binary op l.shown r.shown
  | .paren s e => .paren s e.shown
  | .number s x => .number s (floatText x)
  | .variable s x => .variable s x

/-- The words of the text of an expression without signs. -/
def words : Expr Float → List (Kind × List Char)
  | .binary op l r => l.words ++ (.blank, [' ']) :: (op.kind, op.text.toList) :: (.blank, [' ']) :: r.words
  | .paren _ e => (.openParen, ['(']) :: (e.words ++ [(.closeParen, [')'])])
  | .number _ x => [(.number, (floatText x).toList)]
  | .variable _ x => [(.variable, x.toList)]

/-- How many letters its variables have. -/
def nameLetters : Expr Float → Nat
  | .binary _ l r => l.nameLetters + r.nameLetters
  | .paren _ e => e.nameLetters
  | .number _ _ => 0
  | .variable _ x => letters x.toList

variable {e : Expr Float}

theorem rank_shown (e : Expr Float) : e.shown.rank = e.rank := by
  cases e <;> rfl

theorem canonical_shown (e : Expr Float) : e.shown.canonical = e.canonical := by
  induction e with
  | binary op l r ihl ihr => rw [shown, canonical, canonical, ihl, ihr, rank_shown, rank_shown]
  | paren s e ih => rw [shown, canonical, canonical, ih]
  | _ => rfl

end Expr

/-! ## The text of an expression is cut into its words -/

namespace Expr

variable {e : Expr Float}

/-- Each word of the text has to be cut off, whatever word comes behind the last. -/
theorem worded {rest : List Char} {ws : List (Kind × List Char)} (hb : e.Bare) (hl : e.Legible) (hrest : Parted rest)
    (hws : Worded rest ws) : Worded (e.text.toList ++ rest) (e.words ++ ws) := by
  induction e generalizing rest ws with
  | binary op l r ihl ihr =>
    have hright := ihr hb.2 hl.2 hrest hws
    have hop : Worded (' ' :: (op.text.toList ++ ' ' :: (r.text.toList ++ rest)))
        ((.blank, [' ']) :: (op.kind, op.text.toList) :: (.blank, [' ']) :: (r.words ++ ws)) :=
      .single (Lexer.cutOff_blank _) (.cons (Lexer.cutOff_operator op _) (.single (Lexer.cutOff_blank _) hright))
    have hall := ihl hb.1 hl.1 (Or.inr (Or.inr ⟨op, _, rfl⟩)) hop
    simpa [text, words] using hall
  | paren s e ih =>
    obtain ⟨rfl, hb⟩ := hb
    have hclose : Worded (')' :: rest) ((.closeParen, [')']) :: ws) := .single (Lexer.cutOff_closeParen _) hws
    have hall := Worded.single (Lexer.cutOff_openParen _) (ih hb hl (Or.inr (Or.inl ⟨rest, rfl⟩)) hclose)
    simpa [text, words, signText] using hall
  | number s x =>
    obtain ⟨rfl, hx⟩ := hb
    obtain ⟨whole, fraction, hwritten, -⟩ := hx.floatText
    have hall := Worded.cons (hrest.cutOff hwritten.first) hws
    simpa [text, words, signText] using hall
  | _ s x =>
    cases (hb : s = none)
    have hall := Worded.cons (hrest.cutOff hl) hws
    simpa [text, words, signText] using hall

theorem words_shown (hb : e.Bare) : (e.words.filter (·.1 ≠ .blank)).map Lexer.wordOf = e.shown.spelling := by
  induction e with
  | binary op l r ihl ihr =>
    have hop : op.kind ≠ .blank := by cases op <;> decide
    simp [words, shown, spelling, List.filter_append, ← ihl hb.1, ← ihr hb.2, hop, Lexer.wordOf, op.literal_kind]
  | paren s e ih =>
    obtain ⟨rfl, hb⟩ := hb
    simp [words, shown, spelling, List.filter_append, ← ih hb, Lexer.wordOf, Kind.literal?]
  | number s x =>
    cases hb.1
    simp [words, shown, spelling, Lexer.wordOf, Kind.literal?]
  | _ s x =>
    cases (hb : s = none)
    simp [words, shown, spelling, Lexer.wordOf, Kind.literal?]

theorem lex_text (hb : e.Bare) (hl : e.Legible) :
    (lex e.text).complaints = [] ∧ (lex e.text).tokens.map Token.word = e.shown.spelling := by
  have hworded := worded hb hl (Or.inl rfl) .nil
  rw [List.append_nil, List.append_nil] at hworded
  rw [← words_shown hb]
  exact hworded.lex

end Expr

/-! ## What is read -/

/-- Numbers that are written out are read back in their places. -/
theorem Yields.reads {e : Expr Float} {cs : List Tree} (h : Yields literal cs e.shown) (hb : e.Bare) :
    Yields readNumber cs e := by
  induction e generalizing cs with
  | binary op l r ihl ihr =>
    cases h with
    | binary hl ht hm hx hy => exact .binary hl ht hm (ihl hx hb.1) (ihr hy hb.2)
  | paren s e ih =>
    cases h with
    | paren hs hn ht hx => exact .paren hs hn ht (ih hx hb.2)
  | number s x =>
    obtain ⟨-, -, -, hread⟩ := hb.2.floatText
    generalize he : Expr.shown (.number s x) = e' at h
    cases h with
    | @number _ _ _ _ _ t hs ha hn ht hx =>
      obtain ⟨rfl, rfl⟩ := Expr.number.inj he
      have htext : t.text = floatText x := Except.ok.inj hx
      exact .number hs ha hn ht (by rw [htext, readNumber, hread])
    | _ => cases he
  | _ s x =>
    cases h with
    | _ hs ha hn ht => exact .variable hs ha hn ht

/-- A bare expression reads back. -/
theorem Expr.Bare.readsBack {e : Expr Float} (hb : e.Bare) (hl : e.Legible) (hc : e.canonical = true) :
    e.ReadsBack := by
  obtain ⟨hcomplaints, hwords⟩ := lex_text hb hl
  have hspells : Spells (lex e.text).tokens e.shown := ⟨(canonical_shown e).trans hc, hwords⟩
  have hclosed : (lex e.text).ending.kind ∈ closers := by
    show Kind.endOfText ∈ closers
    decide
  obtain ⟨hquiet, hahead, hread⟩ := hspells.read (l := lex e.text) rfl (List.append_nil _).symm hclosed
  have hrule := (Parser.outcome_isDerivation rfl hquiet).2.1
  obtain ⟨e', hyields⟩ : ∃ e', Yields literal (Parser.outcome .expression (lex e.text)).close.children e' :=
    (outcome_faithful hquiet).yields (fun s _ => ⟨s, rfl⟩) hrule
  obtain rfl : e' = e.shown := Except.ok.inj ((hyields.ofTree _).symm.trans hread)
  refine ⟨?_, hahead, (hyields.reads hb).ofTree _⟩
  show (lex e.text).complaints ++ (Parser.outcome .expression (lex e.text)).complaints = []
  rw [hcomplaints, hquiet, List.append_nil]

/-! ## Letters -/

/-- How many letters some tokens have. -/
def tokenLetters (ts : List Token) : Nat := letters (ts.flatMap fun t => t.text.toList)

theorem tokenLetters_append (ts us : List Token) : tokenLetters (ts ++ us) = tokenLetters ts + tokenLetters us := by
  rw [tokenLetters, List.flatMap_append, letters_append]
  rfl

theorem tokenLetters_cons (t : Token) (ts : List Token) :
    tokenLetters (t :: ts) = letters t.text.toList + tokenLetters ts := by
  rw [tokenLetters, List.flatMap_cons, letters_append]
  rfl

section

open Lexer

/-- Blanks have no letters, so those of a text without complaints are in its tokens. -/
theorem letters_pieces {ps : List Piece} (hc : ps.filterMap Piece.complaint? = [])
    (hb : ∀ x ∈ ps, x.kind = some .blank → ∃ c, x.text = [c] ∧ c ∈ [' ', '\t', '\r', '\n']) :
    letters (ps.flatMap (·.text)) = tokenLetters (ps.filterMap Piece.token?) := by
  induction ps with
  | nil => rfl
  | cons x ps ih =>
    obtain ⟨kind, text, start⟩ := x
    obtain ⟨hx, hps⟩ := List.forall_mem_cons.mp hb
    rw [List.flatMap_cons, letters_append]
    cases kind with
    | none => cases hc
    | some k =>
      rw [ih hc hps]
      by_cases hk : k = .blank
      · subst hk
        obtain ⟨c, rfl, hblank⟩ := hx rfl
        have hnone : letters [c] = 0 := by
          simp only [List.mem_cons, List.not_mem_nil, or_false] at hblank
          rcases hblank with rfl | rfl | rfl | rfl <;> decide
        rw [List.filterMap_cons_none rfl, hnone, Nat.zero_add]
      · rw [List.filterMap_cons_some (token?_of_kind hk text start), tokenLetters_cons, String.toList_ofList]

theorem letters_lex {text : String} (h : (lex text).complaints = []) :
    letters text.toList = tokenLetters (lex text).tokens := by
  have hcut := pieces_cutUp text.toList
  have hletters := letters_pieces h hcut.blank
  rwa [hcut.whole] at hletters

end

theorem letters_operator (op : Operator) : letters op.text.toList = 0 := by cases op <;> decide

theorem letters_signText (s : Option Sign) : letters (signText s).toList = 0 ↔ s = none := by
  rcases s with _ | s
  · exact ⟨fun _ => rfl, fun _ => rfl⟩
  · cases s <;> decide +kernel

/-- Besides its variables, the text of an expression has letters unless the expression is bare. -/
theorem Expr.letters_text {e : Expr Float} (hl : e.Legible) :
    e.nameLetters ≤ letters e.text.toList ∧ (letters e.text.toList = e.nameLetters ↔ e.Bare) := by
  induction e with
  | binary op l r ihl ihr =>
    obtain ⟨hleft, hleft'⟩ := ihl hl.1
    obtain ⟨hright, hright'⟩ := ihr hl.2
    have hsum : letters (Expr.binary op l r).text.toList = letters l.text.toList + letters r.text.toList := by
      have hblank : letters " ".toList = 0 := by decide
      simp only [text, String.toList_append, letters_append, letters_operator, hblank, Nat.add_zero]
    rw [hsum, nameLetters, Bare, ← hleft', ← hright']
    omega
  | paren s e ih =>
    obtain ⟨hin, hin'⟩ := ih hl
    have hsum : letters (Expr.paren s e).text.toList = letters (signText s).toList + letters e.text.toList := by
      have hopen : letters "(".toList = 0 := by decide
      have hclose : letters ")".toList = 0 := by decide
      simp only [text, String.toList_append, letters_append, hopen, hclose, Nat.add_zero]
    rw [hsum, nameLetters, Bare, ← hin', ← letters_signText]
    omega
  | number s x =>
    rw [text, String.toList_append, letters_append, nameLetters, Bare, ← Decimal.letters_floatText hl,
      ← letters_signText]
    omega
  | _ s x =>
    rw [text, String.toList_append, letters_append, nameLetters, Bare, ← letters_signText]
    omega

theorem Token.Apt.text_eq {t : Token} {s : String} (h : t.Apt) (hs : t.kind.literal? = some s) :
    t.text.toList = s.toList := by
  have hpattern {k : Kind} (hk : k.literal? = some s) : k ≠ .endOfText ∧ k.pattern = .literal s.toList := by
    cases k <;> cases hk <;> exact ⟨nofun, rfl⟩
  obtain ⟨hend, hliteral⟩ := hpattern hs
  have hmatch := h hend
  rw [hliteral] at hmatch
  exact Pattern.eq_of_matches_literal hmatch

theorem letters_number {u : List Char} (h : Kind.number.pattern.Matches u) : letters u = 0 := by
  refine List.countP_eq_zero.mpr fun c hc => ?_
  have huses : (inRanges c [Kind.digit] || inRanges c [Kind.digit] ||
      (inRanges c [('.', '.')] || (inRanges c [Kind.digit] || inRanges c [Kind.digit]) || false)) = true := h.uses hc
  by_cases hdigit : inRanges c [Kind.digit] = true
  · simp [Decimal.not_isAlpha_of_isDigit (Decimal.isDigit_of_inRanges hdigit)]
  · have hpoint : inRanges c [('.', '.')] = true := by simpa [hdigit] using huses
    have hone : [c] = ['.'] := Pattern.eq_of_matches_char (.range hpoint)
    cases hone
    decide

theorem letters_literal {t : Token} {k : Kind} {s : String} (h : t.Apt) (ht : t.kind = k) (hk : k.literal? = some s)
    (hs : letters s.toList = 0) : letters t.text.toList = 0 := by
  rw [h.text_eq (ht ▸ hk), hs]

theorem tokenLetters_sign {ss : List Token} {sign : Option Sign} (h : ss.map Token.word = (sign.map Sign.word).toList)
    (hapt : ∀ t ∈ ss, t.Apt) : tokenLetters ss = 0 := by
  rcases sign_cases h with ⟨rfl, -⟩ | ⟨t, g, rfl, -, ht⟩
  · rfl
  · have hsign : ∃ s, g.word.1.literal? = some s ∧ letters s.toList = 0 := by cases g <;> exact ⟨_, rfl, by decide⟩
    obtain ⟨s, hs, hnone⟩ := hsign
    rw [tokenLetters_cons, letters_literal (hapt t List.mem_cons_self) ht hs hnone]
    rfl

theorem tokensOf_atom (ss : List Token) (a b : Node) (t : Token) :
    Tree.tokensOf (ss.map .leaf ++ [.node a [.node b [.leaf t]]]) = ss ++ [t] := by
  induction ss with
  | nil => rfl
  | cons s ss ih =>
    rw [List.map_cons, List.cons_append, Tree.tokensOf, ih]
    rfl

/-- The letters of an expression in a text are those of its variables. -/
theorem Yields.letters {e : Expr Float} {cs : List Tree} (h : Yields readNumber cs e)
    (hapt : ∀ t ∈ Tree.tokensOf cs, t.Apt) : tokenLetters (Tree.tokensOf cs) = e.nameLetters := by
  induction h with
  | @binary op x y l m us vs t hl ht hm _ _ ihx ihy =>
    simp only [Tree.tokensOf, Tree.tokens, List.append_nil, List.mem_append, List.mem_singleton] at hapt ⊢
    rw [tokenLetters_append, tokenLetters_append, ihx fun t ht => hapt t (Or.inl ht),
      ihy fun t ht => hapt t (Or.inr (Or.inr ht)), tokenLetters_cons,
      letters_literal (hapt t (Or.inr (Or.inl rfl))) ht op.literal_kind (letters_operator op)]
    exact congrArg (_ + ·) (Nat.zero_add _)
  | @paren x n us s t hs _ ht _ ih =>
    simp only [Tree.tokensOf, Tree.tokens, List.append_nil, List.mem_append, List.mem_singleton] at hapt ⊢
    rw [tokenLetters_append, tokenLetters_append, ih fun t ht => hapt t (Or.inr (Or.inl ht)), tokenLetters_cons,
      tokenLetters_cons, letters_literal (hapt s (Or.inl rfl)) hs rfl (by decide),
      letters_literal (hapt t (Or.inr (Or.inr rfl))) ht rfl (by decide)]
    exact Nat.zero_add _
  | @number sign x a b ss t hs _ _ ht _ =>
    rw [tokensOf_atom] at hapt ⊢
    have hmatch := hapt t (List.mem_append_right _ List.mem_cons_self)
    rw [Token.Apt, ht] at hmatch
    rw [tokenLetters_append, tokenLetters_sign hs fun t ht => hapt t (List.mem_append_left _ ht), tokenLetters_cons,
      letters_number (hmatch (by decide))]
    rfl
  | _ hs _ _ _ =>
    rw [tokensOf_atom] at hapt ⊢
    rw [tokenLetters_append, tokenLetters_sign hs fun t ht => hapt t (List.mem_append_left _ ht), tokenLetters_cons]
    exact Nat.zero_add _

/-! ## Expressions of a text -/

/-- What is below a node of a tree is below the tree. -/
theorem Tree.IsDerivation.contains {t : Tree} {x : Node × List Tree} (h : t.IsDerivation) (hx : x ∈ t.nodes) :
    (∀ y ∈ (Tree.node x.1 x.2).nodes, y ∈ t.nodes) ∧ ∀ k ∈ Tree.tokensOf x.2, k ∈ t.tokens := by
  induction h with
  | leaf => cases hx
  | @node n cs _ _ ih =>
    rcases List.mem_cons.mp hx with rfl | hx
    · exact ⟨fun _ hy => hy, fun _ hk => hk⟩
    · obtain ⟨c, hc, hx⟩ := mem_nodesOf.mp hx
      obtain ⟨hnodes, htokens⟩ := ih c hc hx
      exact ⟨fun y hy => List.mem_cons_of_mem _ (mem_nodesOf.mpr ⟨c, hc, hnodes y hy⟩),
        fun k hk => mem_tokensOf.mpr ⟨c, hc, htokens k hk⟩⟩

theorem Yields.legible {e : Expr Float} {cs : List Tree} (h : Yields readNumber cs e)
    (hfirst : ∀ t ∈ Tree.tokensOf cs, t.kind ≠ .endOfText → First t.kind t.text.toList) : e.Legible := by
  induction h with
  | binary _ _ _ _ _ ihx ihy =>
    simp only [Tree.tokensOf, Tree.tokens, List.append_nil, List.mem_append] at hfirst
    exact ⟨ihx fun t ht => hfirst t (Or.inl ht), ihy fun t ht => hfirst t (Or.inr (Or.inr ht))⟩
  | paren _ _ _ _ ih =>
    simp only [Tree.tokensOf, Tree.tokens, List.append_nil, List.mem_append] at hfirst
    exact ih fun t ht => hfirst t (Or.inr (Or.inl ht))
  | @number _ _ _ _ ss t _ _ _ ht hx =>
    rw [tokensOf_atom] at hfirst
    have hname := hfirst t (List.mem_append_right _ List.mem_cons_self) (by rw [ht]; decide)
    rw [ht] at hname
    exact Decimal.readNumber_isPositive hname.1 hx
  | _ _ _ _ ht =>
    rw [tokensOf_atom] at hfirst
    have hname := hfirst _ (List.mem_append_right _ List.mem_cons_self) (by rw [ht]; decide)
    rwa [ht] at hname

/-- Every expression of a text without complaints is canonical and legible. -/
theorem outcome_expression {r : Rule} {text : String} (h : (Parser.outcome r (lex text)).complaints = []) {n : Node}
    {cs : List Tree} (hx : (n, cs) ∈ (Parser.outcome r (lex text)).close.nodes) (hn : n.rule = .expression) :
    ∃ e, Yields readNumber cs e ∧ e.canonical = true ∧ e.Legible := by
  have hfaithful := outcome_faithful h
  obtain ⟨hnodes, htokens⟩ := hfaithful.derivation.contains hx
  obtain ⟨e, he⟩ := (hfaithful.mem hx).yields (fun _ => readNumber_isOk) (beq_iff_eq.mpr hn)
  have hbinds : (Tree.node n cs).Binds := fun y hy => Parser.outcome_binds rfl h y (hnodes y hy)
  refine ⟨e, he, (he.canonical hn hbinds).1, he.legible fun t ht hend => ?_⟩
  obtain ⟨-, m, -, hall⟩ := Parser.outcome_tokens rfl h
  have hmem : t ∈ (lex text).tokens ++ List.replicate m (lex text).ending :=
    hall ▸ List.mem_append_left _ (htokens t ht)
  rcases List.mem_append.mp hmem with hmem | hmem
  · exact (Lexer.pieces_cutUp text.toList).token_first hmem
  · rw [List.eq_of_mem_replicate hmem] at hend
    exact absurd rfl hend

/-- Only a bare expression reads back. -/
theorem Expr.ReadsBack.bare {e : Expr Float} (h : e.ReadsBack) (hl : e.Legible) : e.Bare := by
  obtain ⟨hcomplaints, hwhole, hsame⟩ := h
  obtain ⟨hlexer, hquiet⟩ : (lex e.text).complaints = [] ∧ (Parser.outcome .expression (lex e.text)).complaints = [] :=
    List.append_eq_nil_iff.mp hcomplaints
  obtain ⟨-, hrule, hderives⟩ := Parser.outcome_isDerivation rfl hquiet
  obtain ⟨-, m, -, htokens⟩ := Parser.outcome_tokens rfl hquiet
  have hfaithful := outcome_faithful hquiet
  -- an expression does not read the end of the text
  have hnone : List.replicate m (lex e.text).ending = [] := by
    refine List.eq_nil_iff_forall_not_mem.mpr fun t ht => ?_
    have hmem : t ∈ (Parser.outcome .expression (lex e.text)).close.tokens := by
      rw [hwhole, List.append_nil] at htokens
      exact htokens ▸ List.mem_append_right _ ht
    exact hderives.inner rfl t hmem (by rw [List.eq_of_mem_replicate ht]; rfl)
  rw [hwhole, hnone, List.append_nil, List.append_nil] at htokens
  obtain ⟨e', hyields⟩ := hfaithful.yields (fun _ => readNumber_isOk) hrule
  obtain rfl : e' = e := Except.ok.inj ((hyields.ofTree _).symm.trans hsame)
  refine (letters_text hl).2.mp ?_
  rw [letters_lex hlexer, ← htokens]
  exact hyields.letters hfaithful.apt

/-- Every expression in a text without complaints is built, and its text reads back if it has no sign and no number
    that is written with a power of ten, and only then. -/
theorem Expr.reads_back_iff_bare (r : Rule) (text : String) (h : (parse r text).complaints = []) (n : Node)
    (cs : List Tree) (hx : (n, cs) ∈ (parse r text).tree.nodes) (hn : n.rule = .expression) :
    ∃ e, Expr.ofTree readNumber (.node n cs) = .ok e ∧ (e.ReadsBack ↔ e.Bare) := by
  obtain ⟨-, hquiet⟩ : (lex text).complaints = [] ∧ (Parser.outcome r (lex text)).complaints = [] :=
    List.append_eq_nil_iff.mp h
  obtain ⟨e, he, hcanonical, hlegible⟩ := outcome_expression hquiet hx hn
  exact ⟨e, he.ofTree n, fun hback => hback.bare hlegible, fun hbare => hbare.readsBack hlegible hcanonical⟩

/-- `-x` is shown by a text that is complained of, and ten to the sixteenth by one that is not read to its end. -/
theorem Expr.signed_and_large_unread :
    (parse .expression "-x").complaints = [] ∧ (parse .expression "10000000000000000").complaints = [] ∧
      Expr.ofTree readNumber (parse .expression "-x").tree = .ok (.variable (some .minus) "x") ∧
      Expr.ofTree readNumber (parse .expression "10000000000000000").tree =
        .ok (.number none (.ofScientific 10000000000000000 false 0)) ∧
      ¬ (Expr.variable (some .minus) "x").ReadsBack ∧
      ¬ (Expr.number none (.ofScientific 10000000000000000 false 0)).ReadsBack := by
  have hsign : (parse .expression (Expr.variable (some .minus) "x").text).complaints ≠ [] := by decide +kernel
  have hlarge : (Parser.outcome .expression
      (lex (Expr.number none (.ofScientific 10000000000000000 false 0)).text)).ahead ≠ [] := by decide +kernel
  exact ⟨by decide +kernel, by decide +kernel, by decide +kernel, by decide +kernel, fun h => hsign h.complaints,
    fun h => hlarge h.whole⟩

namespace Gauge

def text : String := r"StateMachine Gauge{INITIAL->On;state On{->On:'tick'/{x=x*(y+2);};}}"

def product : Expr Float :=
  .binary .times (.variable none "x")
    (.paren none (.binary .plus (.variable none "y") (.number none (.ofScientific 2 false 0))))

theorem plain_two : Plain (.ofScientific 2 false 0) := by
  refine ⟨2 ^ 52, -51, by decide +kernel, Or.inr ⟨?_, ?_⟩⟩ <;> norm_num

end Gauge

theorem Expr.gauge_reads_back :
    (parse .machine Gauge.text).complaints = [] ∧ Gauge.product.text = "x * (y + 2.0)" ∧
      ∃ x ∈ (parse .machine Gauge.text).tree.nodes, x.1.rule = .expression ∧
        Expr.ofTree readNumber (.node x.1 x.2) = .ok Gauge.product ∧ Gauge.product.ReadsBack := by
  have hquiet : (parse .machine Gauge.text).complaints = [] := by decide +kernel
  have hfound : ((parse .machine Gauge.text).tree.nodes.find? fun x => x.1.rule == .expression).map
      (fun x => Expr.ofTree readNumber (.node x.1 x.2)) = some (.ok Gauge.product) := by decide +kernel
  obtain ⟨x, hx, he⟩ := Option.map_eq_some_iff.mp hfound
  have hmem := List.mem_of_find?_eq_some hx
  have hrule : x.1.rule = .expression := by simpa using List.find?_some hx
  obtain ⟨e, hbuilt, hiff⟩ := Expr.reads_back_iff_bare .machine Gauge.text hquiet x.1 x.2 hmem hrule
  obtain rfl : e = Gauge.product := Except.ok.inj (hbuilt.symm.trans he)
  exact ⟨hquiet, by decide +kernel, x, hmem, hrule, he, hiff.mpr ⟨rfl, rfl, rfl, rfl, Gauge.plain_two⟩⟩

end Statechart
