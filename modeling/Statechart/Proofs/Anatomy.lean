/-
  Statechart.Proofs.Anatomy — the parts that a node of a text without syntax errors has.

  How often a child of some sort stands in a node is bounded by the grammar: `least` and
  `most` read the bounds off a right-hand side, and what spans it keeps them
  (`Spans.least_le`, `Spans.le_most`). So whether a part is always there, or never, or
  once, is for the grammar to decide, rule by rule.

  A tree is `Faithful` if it is a derivation, its nodes remember what stands in them, and
  its tokens match their kinds. In such a tree nothing is missing that a guard, an
  assignment or an expression is built from; whether an initial section or a transition can
  be built hangs on the state it leads to alone (`Faithful.initial_isOk_iff`,
  `Faithful.transition_isOk_iff`).
-/

import Statechart.Proofs.Recall
import Statechart.Proofs.Spelling
import Statechart.Proofs.Sites

namespace Statechart

open Text (Pattern)

/-! ## Counting children -/

/-- What a child of a node is for the grammar. -/
inductive Symbol where
  | token (k : Kind)
  | rule (r : Rule)
  deriving DecidableEq

def Tree.symbol : Tree → Symbol
  | .leaf t => .token t.kind
  | .fault t => .token t.kind
  | .node n _ => .rule n.rule

/-- A token of one of these kinds. -/
def Symbol.isToken (ks : List Kind) : Symbol → Bool
  | .token k => ks.contains k
  | .rule _ => false

section

variable (q : Symbol → Bool)

/-- How many of some children are of a sort. -/
def Tree.count (cs : List Tree) : Nat := cs.countP fun c => q c.symbol

mutual

/-- What spans a phrase has at least so many children of a sort. -/
def Phrase.least : Phrase → Nat
  | .token ks => if ks.all fun k => q (.token k) then 1 else 0
  | .rule r => if q (.rule r) then 1 else 0
  | .seq ps => leastAll ps
  | .option _ => 0
  | .star _ => 0
  | .plus b => leastAll b
  | .either l r => min (leastAll l) (leastAll r)

def leastAll : List Phrase → Nat
  | [] => 0
  | p :: ps => p.least + leastAll ps

end

mutual

/-- What spans a phrase has at most so many children of a sort, if that is at most one. -/
def Phrase.most : Phrase → Nat
  | .token ks => if ks.any fun k => q (.token k) then 1 else 0
  | .rule r => if q (.rule r) then 1 else 0
  | .seq ps => mostAll ps
  | .option b => mostAll b
  | .star b => 2 * mostAll b
  | .plus b => 2 * mostAll b
  | .either l r => max (mostAll l) (mostAll r)

def mostAll : List Phrase → Nat
  | [] => 0
  | p :: ps => p.most + mostAll ps

end

end

variable {q : Symbol → Bool} {cs ds : List Tree}

theorem Tree.count_append : count q (cs ++ ds) = count q cs + count q ds := List.countP_append

theorem Phrase.Spans.least_le {p : Phrase} (h : p.Spans cs) : p.least q ≤ Tree.count q cs := by
  induction h with
  | @token ks t hk =>
    rw [Phrase.least]
    split
    · rename_i hall
      simp [Tree.count, Tree.symbol, List.all_eq_true.mp hall _ hk]
    · exact Nat.zero_le _
  | @rule r n ts hn =>
    rw [Phrase.least]
    split
    · rename_i hr
      simp [Tree.count, Tree.symbol, hn, hr]
    · exact Nat.zero_le _
  | nil => exact Nat.zero_le _
  | absent => exact Nat.zero_le _
  | present => exact Nat.zero_le _
  | enough => exact Nat.zero_le _
  | again => exact Nat.zero_le _
  | cons _ _ ih ih' =>
    rw [Tree.count_append]
    exact Nat.add_le_add ih ih'
  | some _ _ ih _ =>
    rw [Tree.count_append]
    exact Nat.le_trans ih (Nat.le_add_right _ _)
  | left _ ih => exact Nat.le_trans (Nat.min_le_left _ _) ih
  | right _ ih => exact Nat.le_trans (Nat.min_le_right _ _) ih

theorem Phrase.Spans.le_most {p : Phrase} (h : p.Spans cs) (hp : p.most q ≤ 1) : Tree.count q cs ≤ p.most q := by
  induction h with
  | @token ks t hk =>
    rw [Phrase.most]
    split
    · exact List.countP_le_length
    · rename_i hany
      have hnone : q (.token t.kind) = false := by
        simpa using fun hq => hany (List.any_eq_true.mpr ⟨_, hk, hq⟩)
      simp [Tree.count, Tree.symbol, hnone]
  | @rule r n ts hn =>
    rw [Phrase.most]
    split
    · exact List.countP_le_length
    · rename_i hr
      simp [Tree.count, Tree.symbol, hn, hr]
  | nil => exact Nat.zero_le _
  | absent => exact Nat.zero_le _
  | enough => exact Nat.zero_le _
  | present _ ih => exact ih hp
  | cons _ _ ih ih' =>
    simp only [Phrase.most, mostAll] at hp ih' ⊢
    rw [Tree.count_append]
    exact Nat.add_le_add (ih (by omega)) (ih' (by omega))
  | again _ _ ih ih' =>
    -- several rounds are bounded by one only where a round has none
    simp only [Phrase.most] at hp ih ih' ⊢
    have hround := ih (by omega)
    have hmore := ih' hp
    rw [Tree.count_append]
    omega
  | some _ _ ih ih' =>
    simp only [Phrase.most] at hp ih ih' ⊢
    have hround := ih (by omega)
    have hmore := ih' hp
    rw [Tree.count_append]
    omega
  | left _ ih =>
    simp only [Phrase.most] at hp ih ⊢
    exact Nat.le_trans (ih (by omega)) (Nat.le_max_left _ _)
  | right _ ih =>
    simp only [Phrase.most] at hp ih ⊢
    exact Nat.le_trans (ih (by omega)) (Nat.le_max_right _ _)

/-! ## Parts that are there -/

namespace Tree

variable {c : Tree} {r : Rule} {k : Kind} {ks : List Kind}

theorem hasRule_iff : c.hasRule r = true ↔ c.symbol = .rule r := by
  cases c <;> simp [hasRule, symbol]

theorem exists_tokenOf? (h : ∃ c ∈ cs, (c.symbol == .token k) = true) : ∃ t, tokenOf? k cs = some t := by
  obtain ⟨c, hc, hk⟩ := h
  refine Option.isSome_iff_exists.mp (List.find?_isSome.mpr ?_)
  cases c with
  | leaf t => exact ⟨t, List.mem_filterMap.mpr ⟨_, hc, rfl⟩, by simpa [symbol] using hk⟩
  | fault t => exact ⟨t, List.mem_filterMap.mpr ⟨_, hc, rfl⟩, by simpa [symbol] using hk⟩
  | node n ts => simp [symbol] at hk

theorem exists_firstOf? (h : ∃ c ∈ cs, (c.symbol == .rule r) = true) :
    ∃ n ts, firstOf? r cs = some (.node n ts) ∧ n.rule = r ∧ .node n ts ∈ cs := by
  obtain ⟨c, hc, hr⟩ := h
  obtain ⟨d, hd⟩ := Option.isSome_iff_exists.mp
    (List.find?_isSome.mpr ⟨c, hc, hasRule_iff.mpr (beq_iff_eq.mp hr)⟩ : (firstOf? r cs).isSome)
  have hrule := List.find?_some hd
  cases d with
  | node n ts => exact ⟨n, ts, hd, beq_iff_eq.mp hrule, List.mem_of_find?_eq_some hd⟩
  | leaf _ => cases hrule
  | fault _ => cases hrule

theorem length_tokensAmong : (tokensAmong ks cs).length = count (Symbol.isToken ks) cs := by
  have htoken (c : Tree) (cs : List Tree) {t : Token} (ht : c.token? = some t)
      (hs : c.symbol.isToken ks = ks.contains t.kind) (ih : (tokensAmong ks cs).length = count (Symbol.isToken ks) cs) :
      (tokensAmong ks (c :: cs)).length = count (Symbol.isToken ks) (c :: cs) := by
    rw [tokensAmong, List.filterMap_cons_some ht, List.filter_cons, ← tokensAmong, count, List.countP_cons, hs, ← count,
      ← ih]
    split <;> rfl
  induction cs with
  | nil => rfl
  | cons c cs ih =>
    cases c with
    | leaf t => exact htoken (.leaf t) cs rfl rfl ih
    | fault t => exact htoken (.fault t) cs rfl rfl ih
    | node n ts => exact ih.trans (List.countP_cons_of_neg Bool.false_ne_true).symm

end Tree

namespace Phrase

variable {ps : List Phrase}

theorem Spans.exists_mem (h : Spans (.seq ps) cs) (hq : 0 < leastAll q ps) : ∃ c ∈ cs, q c.symbol = true :=
  List.countP_pos_iff.mp (Nat.lt_of_lt_of_le hq h.least_le)

theorem Spans.not_mem (h : Spans (.seq ps) cs) (hq : mostAll q ps = 0) : ∀ c ∈ cs, q c.symbol ≠ true := by
  have hcount := h.le_most (q := q) (by rw [Phrase.most, hq]; exact Nat.zero_le _)
  rw [Phrase.most, hq] at hcount
  exact List.countP_eq_zero.mp (Nat.le_zero.mp hcount)

/-- A rule that the right-hand side asks for once at most stands there once at most. -/
theorem Spans.firstOf?_eq {r : Rule} {c : Tree} (h : Spans (.seq ps) cs) (hm : mostAll (· == .rule r) ps ≤ 1)
    (hc : c ∈ cs) (hr : c.hasRule r = true) : Tree.firstOf? r cs = .some c := by
  obtain ⟨us, vs, rfl⟩ := List.append_of_mem hc
  have hcount := Nat.le_trans (h.le_most (q := (· == .rule r)) hm) hm
  have hone : Tree.count (· == .rule r) (c :: vs) = Tree.count (· == .rule r) vs + 1 :=
    List.countP_cons_of_pos (beq_iff_eq.mpr (Tree.hasRule_iff.mp hr))
  rw [Tree.count_append, hone] at hcount
  have hnone : Tree.count (· == .rule r) us = 0 := by omega
  refine List.find?_eq_some_iff_append.mpr ⟨hr, us, vs, rfl, fun d hd => ?_⟩
  have hne := List.countP_eq_zero.mp hnone d hd
  rw [beq_iff_eq, ← Tree.hasRule_iff] at hne
  simpa using hne

/-- A token of some kinds that the right-hand side asks for once. -/
theorem Spans.sole_token {ks : List Kind} (h : Spans (.seq ps) cs) (hl : leastAll (Symbol.isToken ks) ps = 1)
    (hm : mostAll (Symbol.isToken ks) ps = 1) : ∃ t, Tree.tokensAmong ks cs = [t] := by
  refine List.length_eq_one_iff.mp ?_
  have hleast := h.least_le (q := Symbol.isToken ks)
  have hmost := h.le_most (q := Symbol.isToken ks) (Nat.le_of_eq hm)
  rw [Phrase.least] at hleast
  rw [Phrase.most] at hmost
  rw [Tree.length_tokensAmong]
  omega

theorem Spans.oneOf {alts : List (List Phrase)} (h : Spans (.seq (oneOf alts)) cs) (ha : alts ≠ []) :
    ∃ ps ∈ alts, Spans (.seq ps) cs := by
  induction alts with
  | nil => exact absurd rfl ha
  | cons a alts ih =>
    cases alts with
    | nil => exact ⟨a, List.mem_singleton.mpr rfl, h⟩
    | cons b alts =>
      cases spans_one.mp h with
      | left h => exact ⟨a, List.mem_cons_self, h⟩
      | right h =>
        obtain ⟨ps, hp, hs⟩ := ih h nofun
        exact ⟨ps, List.mem_cons_of_mem _ hp, hs⟩

theorem Spans.rule_inv {r : Rule} (h : Spans (.rule r) cs) : ∃ n ts, cs = [.node n ts] ∧ n.rule = r := by
  cases h with
  | rule hn => exact ⟨_, _, rfl, hn⟩

theorem Spans.token_inv {ks : List Kind} (h : Spans (.token ks) cs) : ∃ t, cs = [.leaf t] ∧ t.kind ∈ ks := by
  cases h with
  | token hk => exact ⟨_, rfl, hk⟩

theorem Spans.binary_inv {r s : Rule} {ks : List Kind} (h : Spans (.seq [.rule r, .token ks, .rule s]) cs) :
    ∃ l us k m vs, cs = [.node l us, .leaf k, .node m vs] ∧ l.rule = r ∧ k.kind ∈ ks ∧ m.rule = s := by
  cases h with
  | cons hl h =>
    cases h with
    | cons hk hm =>
      obtain ⟨l, us, rfl, hleft⟩ := hl.rule_inv
      obtain ⟨k, rfl, hkind⟩ := hk.token_inv
      obtain ⟨m, vs, rfl, hright⟩ := (spans_one.mp hm).rule_inv
      exact ⟨l, us, k, m, vs, rfl, hleft, hkind, hright⟩

theorem Spans.enclosed_inv {r : Rule} {ks ls : List Kind} (h : Spans (.seq [.token ks, .rule r, .token ls]) cs) :
    ∃ j n us k, cs = [.leaf j, .node n us, .leaf k] ∧ j.kind ∈ ks ∧ n.rule = r ∧ k.kind ∈ ls := by
  cases h with
  | cons hj h =>
    cases h with
    | cons hn hk =>
      obtain ⟨j, rfl, hopen⟩ := hj.token_inv
      obtain ⟨n, us, rfl, hrule⟩ := hn.rule_inv
      obtain ⟨k, rfl, hclose⟩ := (spans_one.mp hk).token_inv
      exact ⟨j, n, us, k, rfl, hopen, hrule, hclose⟩

theorem Spans.sign_inv (h : Spans (.option [.token [.plus, .minus]]) cs) :
    ∃ (ss : List Token) (sign : Option Sign), cs = ss.map .leaf ∧ ss.map Token.word = (sign.map Sign.word).toList := by
  cases h with
  | absent => exact ⟨[], .none, rfl, rfl⟩
  | present h =>
    obtain ⟨t, rfl, ht⟩ := (spans_one.mp h).token_inv
    simp only [List.mem_cons, List.not_mem_nil, or_false] at ht
    rcases ht with ht | ht
    · exact ⟨[t], .some .plus, rfl, by simp [Token.word, ht]; rfl⟩
    · exact ⟨[t], .some .minus, rfl, by simp [Token.word, ht]; rfl⟩

end Phrase

/-! ## Numbers -/

theorem Text.Pattern.eq_of_matches_char {c : Char} {u : List Char} (h : (Pattern.char c).Matches u) : u = [c] := by
  cases h with
  | @range d _ hd =>
    simp only [inRanges, List.any_cons, List.any_nil, Bool.or_false, Bool.and_eq_true, decide_eq_true_eq] at hd
    rw [Char.toNat_inj.mp (Nat.le_antisymm hd.2 hd.1)]

namespace Decimal

theorem isDigit_of_inRanges {c : Char} (h : Pattern.inRanges c [Kind.digit] = true) : isDigit c = true := by
  simpa [Pattern.inRanges, isDigit, Kind.digit] using h

theorem digits_of_star {u : List Char} (h : (Pattern.star (.range [Kind.digit])).Matches u) :
    ∀ c ∈ u, isDigit c = true := by
  generalize hp : Pattern.star (.range [Kind.digit]) = p at h
  induction h with
  | done => exact fun c hc => (by cases hc)
  | more hc _ _ ih =>
    cases hp
    cases hc with
    | range hc => exact List.forall_mem_cons.mpr ⟨isDigit_of_inRanges hc, ih rfl⟩
  | _ => cases hp

/-- One digit or more. -/
theorem digits_of_plus {u : List Char} (h : (Pattern.plus (.range [Kind.digit])).Matches u) :
    u ≠ [] ∧ ∀ c ∈ u, isDigit c = true := by
  cases h with
  | seq hc hcs =>
    cases hc with
    | range hc => exact ⟨List.cons_ne_nil _ _, List.forall_mem_cons.mpr ⟨isDigit_of_inRanges hc, digits_of_star hcs⟩⟩

theorem splitSign_of_digit {c : Char} {cs : List Char} (hc : isDigit c = true) :
    splitSign (c :: cs) = (false, c :: cs) := by
  unfold splitSign
  split
  · rename_i h
    cases h
    exact absurd hc (by decide)
  · rename_i h
    cases h
    exact absurd hc (by decide)
  · rfl

/-- Digits, and perhaps a point and digits, are a number. -/
theorem unsigned?_isSome {ds rest : List Char} (hne : ds ≠ []) (hds : ∀ c ∈ ds, isDigit c = true)
    (hrest : rest = [] ∨ ∃ fs, rest = '.' :: fs ∧ ∀ c ∈ fs, isDigit c = true) :
    (unsigned? (ds ++ rest)).isSome = true := by
  have hpoint : rest.takeWhile isDigit = [] ∧ rest.dropWhile isDigit = rest := by
    rcases hrest with rfl | ⟨fs, rfl, -⟩
    · exact ⟨rfl, rfl⟩
    · exact ⟨List.takeWhile_cons_of_neg (by decide), List.dropWhile_cons_of_neg (by decide)⟩
  have hwhole : (ds ++ rest).takeWhile isDigit = ds := by
    rw [List.takeWhile_append_of_pos hds, hpoint.1, List.append_nil]
  have hdrop : (ds ++ rest).dropWhile isDigit = rest := by
    rw [List.dropWhile_append_of_pos hds, hpoint.2]
  unfold unsigned?
  simp only [hwhole, hdrop]
  rw [if_neg fun h => hne h.1, Option.isSome_map]
  rcases hrest with rfl | ⟨fs, rfl, hfs⟩
  · rfl
  · show (exponent? (fs.dropWhile isDigit)).isSome = true
    rw [List.dropWhile_eq_nil_iff.mpr hfs]
    rfl

end Decimal

theorem readNumber_isOk {s : String} (h : Kind.number.pattern.Matches s.toList) : ∃ x, readNumber s = .ok x := by
  obtain ⟨ds, rest, hs, hne, hds, hrest⟩ : ∃ ds rest, s.toList = ds ++ rest ∧ ds ≠ [] ∧
      (∀ c ∈ ds, Decimal.isDigit c = true) ∧
      (rest = [] ∨ ∃ fs, rest = '.' :: fs ∧ ∀ c ∈ fs, Decimal.isDigit c = true) := by
    generalize s.toList = cs at h
    cases h with
    | @seq _ _ ds rest hds hrest =>
      obtain ⟨hne, hall⟩ := Decimal.digits_of_plus hds
      refine ⟨ds, rest, rfl, hne, hall, ?_⟩
      cases hrest with
      | right h =>
        cases h
        exact Or.inl rfl
      | left h =>
        cases h with
        | seq hp hf =>
          rw [Pattern.eq_of_matches_char hp]
          exact Or.inr ⟨_, rfl, (Decimal.digits_of_plus hf).2⟩
  have hsome : (readFloat? s).isSome = true := by
    have hsign : Decimal.splitSign s.toList = (false, ds ++ rest) := by
      obtain ⟨d, ds, rfl⟩ := List.exists_cons_of_ne_nil hne
      rw [hs]
      exact Decimal.splitSign_of_digit (hds d List.mem_cons_self)
    unfold readFloat?
    rw [hsign]
    simp [Decimal.unsigned?_isSome hne hds hrest]
  obtain ⟨x, hx⟩ := Option.isSome_iff_exists.mp hsome
  exact ⟨x, by rw [readNumber, hx]⟩

/-! ## What an expression stands for -/

section

variable {ν : Type} (number : String → Except Defect ν)

/-- A node of an expression with these children, put together as the grammar says, stands for `e`. -/
inductive Yields : List Tree → Expr ν → Prop
  | binary {op : Operator} {x y : Expr ν} {l m : Node} {us vs : List Tree} {t : Token} : l.rule = .expression →
      t.kind = op.kind → m.rule = .expression → Yields us x → Yields vs y →
      Yields [.node l us, .leaf t, .node m vs] (.binary op x y)
  | paren {x : Expr ν} {n : Node} {us : List Tree} {s t : Token} : s.kind = .openParen → n.rule = .expression →
      t.kind = .closeParen → Yields us x → Yields [.leaf s, .node n us, .leaf t] (.paren none x)
  | number {sign : Option Sign} {x : ν} {a b : Node} {ss : List Token} {t : Token} :
      ss.map Token.word = (sign.map Sign.word).toList → a.rule = .atom → b.rule = .number → t.kind = .number →
      number t.text = .ok x → Yields (ss.map .leaf ++ [.node a [.node b [.leaf t]]]) (.number sign x)
  | variable {sign : Option Sign} {a b : Node} {ss : List Token} {t : Token} :
      ss.map Token.word = (sign.map Sign.word).toList → a.rule = .atom → b.rule = .variable → t.kind = .variable →
      Yields (ss.map .leaf ++ [.node a [.node b [.leaf t]]]) (.variable sign t.text)

end

section

variable {ν : Type} {number : String → Except Defect ν} {e : Expr ν}

theorem Yields.ofTree (h : Yields number cs e) (n : Node) : Expr.ofTree number (.node n cs) = .ok e := by
  induction h generalizing n with
  | binary hl ht hm _ _ ihx ihy => exact (Expr.ofTree.eq_1 ..).trans (assemble_binary hl hm ht (ihx _) (ihy _))
  | paren _ hn _ _ ih => exact (Expr.ofTree.eq_1 ..).trans (assemble_paren hn (ih _))
  | number hs ha hb _ hx =>
    rw [Expr.ofTree, assemble_atom hs ha, Expr.ofAtom, text_atom, hx]
    simp [Tree.firstOf?, Tree.children, Tree.hasRule, hb, Except.map]
  | _ hs ha hb _ =>
    rw [Expr.ofTree, assemble_atom hs ha, Expr.ofAtom, text_atom]
    simp [Tree.firstOf?, Tree.children, Tree.hasRule, hb]

end

/-! ## Faithful trees -/

theorem Tree.mem_tokensOf {t : Token} : t ∈ tokensOf cs ↔ ∃ c ∈ cs, t ∈ c.tokens := by
  induction cs with
  | nil => simp [tokensOf]
  | cons c cs ih => simp [tokensOf, ih]

/-- The token's text is of its kind; the end of the text is no text. -/
def Token.Apt (t : Token) : Prop := t.kind ≠ .endOfText → t.kind.pattern.Matches t.text.toList

/-- The target that is written among some children, a name or FINAL. -/
def Tree.targetOf? (cs : List Tree) : Option String := (tokensAmong Slot.target.kinds cs).head?.map (·.text)

structure Tree.Faithful (t : Tree) : Prop where
  derivation : t.IsDerivation
  recalls : t.Recalls
  apt : ∀ k ∈ t.tokens, k.Apt

/-- What is read without complaint is faithful to the text. -/
theorem outcome_faithful {r : Rule} {text : String} (h : (Parser.outcome r (lex text)).complaints = []) :
    (Parser.outcome r (lex text)).close.Faithful := by
  refine ⟨(Parser.outcome_isDerivation rfl h).1, Parser.outcome_recalls rfl h, fun k hk => ?_⟩
  obtain ⟨-, m, -, htokens⟩ := Parser.outcome_tokens rfl h
  have hmem : k ∈ (lex text).tokens ++ List.replicate m (lex text).ending := htokens ▸ List.mem_append_left _ hk
  intro hend
  rcases List.mem_append.mp hmem with hmem | hmem
  · exact lex_matches hmem
  · rw [List.eq_of_mem_replicate hmem] at hend
    exact absurd rfl hend

namespace Tree.Faithful

variable {n : Node} {c t : Tree} {r : Rule}

theorem child (h : (Tree.node n cs).Faithful) (hc : c ∈ cs) : c.Faithful := by
  refine ⟨?_, (forall_nodes.mp h.recalls).2 c hc, fun k hk => h.apt k (mem_tokensOf.mpr ⟨c, hc, hk⟩)⟩
  cases h.derivation with
  | node _ hcs => exact hcs c hc

theorem spans (h : (Tree.node n cs).Faithful) (hn : n.rule = r) : Phrase.Spans (.seq r.production) cs := by
  cases h.derivation with
  | node hs _ => rwa [hn] at hs

/-- A rule that is asked for is there, and faithful. -/
theorem part (h : (Tree.node n cs).Faithful) (hn : n.rule = r) {s : Rule}
    (hs : 0 < leastAll (· == .rule s) r.production) :
    ∃ m ts, firstOf? s cs = some (.node m ts) ∧ m.rule = s ∧ (Tree.node m ts).Faithful := by
  obtain ⟨m, ts, hfirst, hm, hmem⟩ := exists_firstOf? ((h.spans hn).exists_mem hs)
  exact ⟨m, ts, hfirst, hm, h.child hmem⟩

theorem token (h : (Tree.node n cs).Faithful) (hn : n.rule = r) {k : Kind}
    (hk : 0 < leastAll (· == .token k) r.production) : ∃ t, tokenOf? k cs = some t :=
  exists_tokenOf? ((h.spans hn).exists_mem hk)

/-! ## Expressions -/

section

variable {ν : Type} {number : String → Except Defect ν}

theorem yields_atom {m : Node} {us : List Tree} {ss : List Token} {sign : Option Sign}
    (hnumber : ∀ s : String, Kind.number.pattern.Matches s.toList → ∃ x, number s = .ok x)
    (h : (Tree.node m us).Faithful) (hm : m.rule = .atom) (hs : ss.map Token.word = (sign.map Sign.word).toList) :
    ∃ e, Yields number (ss.map .leaf ++ [.node m us]) e := by
  obtain ⟨ps, hps, hspans⟩ := (h.spans hm).oneOf nofun
  simp only [List.mem_cons, List.not_mem_nil, or_false] at hps
  rcases hps with rfl | rfl
  · obtain ⟨b, ts, rfl, hb⟩ := (Phrase.spans_one.mp hspans).rule_inv
    have hinner := h.child List.mem_cons_self
    obtain ⟨t, rfl, ht⟩ := (Phrase.spans_one.mp (hinner.spans hb)).token_inv
    have hkind := List.mem_singleton.mp ht
    have hmatch := hinner.apt t List.mem_cons_self
    rw [Token.Apt, hkind] at hmatch
    obtain ⟨x, hx⟩ := hnumber t.text (hmatch nofun)
    exact ⟨_, .number hs hm hb hkind hx⟩
  · obtain ⟨b, ts, rfl, hb⟩ := (Phrase.spans_one.mp hspans).rule_inv
    obtain ⟨t, rfl, ht⟩ := (Phrase.spans_one.mp ((h.child List.mem_cons_self).spans hb)).token_inv
    exact ⟨_, .variable hs hm hb (List.mem_singleton.mp ht)⟩

/-- Every expression of a faithful tree stands for one, if its numbers can be read. -/
theorem yields (hnumber : ∀ s : String, Kind.number.pattern.Matches s.toList → ∃ x, number s = .ok x)
    (h : t.Faithful) (ht : t.hasRule .expression = true) : ∃ e, Yields number t.children e := by
  have hd := h.derivation
  induction hd with
  | leaf => cases ht
  | @node n cs _ _ ih =>
    have hinner {m : Node} {ts : List Tree} (hmem : .node m ts ∈ cs) (hm : m.rule = .expression) :
        ∃ e, Yields number ts e := ih (.node m ts) hmem (h.child hmem) (beq_iff_eq.mpr hm)
    have hbinary {ks : List Kind} (hs : Phrase.Spans (.seq [.rule .expression, .token ks, .rule .expression]) cs)
        (hks : ∀ k ∈ ks, k ∈ operators) : ∃ e, Yields number cs e := by
      obtain ⟨l, us, k, m, vs, rfl, hl, hk, hm⟩ := hs.binary_inv
      obtain ⟨x, hx⟩ := @hinner l us (by simp) hl
      obtain ⟨y, hy⟩ := @hinner m vs (by simp) hm
      obtain ⟨op, hop⟩ := exists_operator (hks _ hk)
      exact ⟨_, .binary hl hop hm hx hy⟩
    obtain ⟨ps, hps, hspans⟩ := (h.spans (beq_iff_eq.mp ht : n.rule = .expression)).oneOf (List.cons_ne_nil _ _)
    simp only [List.mem_cons, List.not_mem_nil, or_false] at hps
    rcases hps with rfl | rfl | rfl | rfl | rfl
    · exact hbinary hspans (by decide)
    · exact hbinary hspans (by decide)
    · exact hbinary hspans (by decide)
    · obtain ⟨j, m, us, k, rfl, hj, hm, hk⟩ := hspans.enclosed_inv
      obtain ⟨x, hx⟩ := @hinner m us (by simp) hm
      exact ⟨_, .paren (List.mem_singleton.mp hj) hm (List.mem_singleton.mp hk) hx⟩
    · cases hspans with
      | cons hsign hatom =>
        obtain ⟨ss, sign, rfl, hs⟩ := hsign.sign_inv
        obtain ⟨m, us, rfl, hm⟩ := (Phrase.spans_one.mp hatom).rule_inv
        exact (h.child (by simp)).yields_atom hnumber hm hs

end

theorem expression_isOk (h : t.Faithful) (ht : t.hasRule .expression = true) :
    ∃ e, Expr.ofTree readNumber t = .ok e := by
  obtain ⟨e, he⟩ := h.yields (fun _ => readNumber_isOk) ht
  cases t with
  | node n cs => exact ⟨e, he.ofTree n⟩
  | leaf => cases ht
  | fault => cases ht

/-! ## Guards and assignments -/

/-- A variable and an expression, as guards and assignments have them. -/
theorem operands (h : (Tree.node n cs).Faithful) (hn : n.rule = r)
    (hx : 0 < leastAll (· == .rule .variable) r.production) (he : 0 < leastAll (· == .rule .expression) r.production) :
    ∃ x t e, firstOf? .variable cs = some x ∧ firstOf? .expression cs = some t ∧ Expr.ofTree readNumber t = .ok e := by
  obtain ⟨m, us, hfirst, -, -⟩ := h.part hn hx
  obtain ⟨o, vs, hsecond, ho, hfaithful⟩ := h.part hn he
  obtain ⟨e, hexpr⟩ := hfaithful.expression_isOk (beq_iff_eq.mpr ho)
  exact ⟨_, _, e, hfirst, hsecond, hexpr⟩

theorem guard_isOk (h : (Tree.node n cs).Faithful) (hn : n.rule = .guard) (id : Id) :
    ∃ g, Guard.ofTree id (.node n cs) = .ok g := by
  obtain ⟨x, t, e, hx, ht, he⟩ := h.operands hn (by decide) (by decide)
  unfold Guard.ofTree
  exact ⟨_, bind_eq_ok.mpr ⟨x, need_eq_ok.mpr hx,
    bind_eq_ok.mpr ⟨t, need_eq_ok.mpr ht, bind_eq_ok.mpr ⟨e, he, rfl⟩⟩⟩⟩

/-- A token was passed before a node ends that has one below it. -/
theorem stop_isSome (h : (Tree.node n cs).Faithful) (hn : n.rule = r) {k : Kind} (hk : k ≠ .endOfText)
    (hleast : 0 < leastAll (· == .token k) r.production) : ∃ s, n.stop = some s := by
  obtain ⟨t, ht⟩ := h.token hn hleast
  cases hs : n.stop with
  | some s => exact ⟨s, rfl⟩
  | none =>
    have hmem : t ∈ tokensOf cs := by
      obtain ⟨c, hc, hct⟩ := List.mem_filterMap.mp (List.mem_of_find?_eq_some ht)
      refine mem_tokensOf.mpr ⟨c, hc, ?_⟩
      cases c with
      | node _ _ => cases hct
      | leaf s => cases hct; exact List.mem_singleton.mpr rfl
      | fault s => cases hct; exact List.mem_singleton.mpr rfl
    have hend := (forall_nodes.mp h.recalls).1.stop hs t hmem
    have hkind : t.kind = k := by simpa using List.find?_some ht
    exact absurd (hkind.symm.trans hend) hk

theorem assignment_isOk (h : (Tree.node n cs).Faithful) (hn : n.rule = .separated) (id : Id) :
    ∃ a, Assignment.ofTree id (.node n cs) = .ok a := by
  obtain ⟨m, us, hfirst, hm, hfaithful⟩ := h.part hn (s := .assignment) (by decide)
  obtain ⟨x, t, e, hx, ht, he⟩ := hfaithful.operands hm (by decide) (by decide)
  obtain ⟨s, hs⟩ := h.stop_isSome hn (k := .semicolon) nofun (by decide)
  unfold Assignment.ofTree
  exact ⟨_, bind_eq_ok.mpr ⟨_, need_eq_ok.mpr hfirst, bind_eq_ok.mpr ⟨x, need_eq_ok.mpr hx,
    bind_eq_ok.mpr ⟨t, need_eq_ok.mpr ht, bind_eq_ok.mpr ⟨e, he, bind_eq_ok.mpr ⟨s, need_eq_ok.mpr hs, rfl⟩⟩⟩⟩⟩⟩

/-! ## Initial sections and transitions -/

/-- What is remembered in a slot is the one token of its kinds. -/
theorem recalled (h : (Tree.node n cs).Faithful) (hn : n.rule = r) (hr : r.slotted = true) (s : Slot)
    (hl : leastAll (Symbol.isToken s.kinds) r.production = 1) (hm : mostAll (Symbol.isToken s.kinds) r.production = 1) :
    ∃ t, s.pick n.target n.trigger = some t ∧ tokensAmong s.kinds cs = [t] := by
  obtain ⟨t, ht⟩ := (h.spans hn).sole_token hl hm
  have hslot := (forall_nodes.mp h.recalls).1.slots (hn ▸ hr) s
  exact ⟨t, by rw [hslot, ht]; rfl, ht⟩

variable {b : Builder}

theorem initial_isOk_iff (h : (Tree.node n cs).Faithful) (hn : n.rule = .initial) (built : Registry) :
    (∃ i, b.initial built (.node n cs) = .ok i) ↔ ∀ x, targetOf? cs = some x → x ∈ b.registry.names := by
  obtain ⟨t, htarget, hamong⟩ := h.recalled hn rfl .target (by decide) (by decide)
  have hx : targetOf? cs = some t.text := by rw [targetOf?, hamong]; rfl
  unfold Builder.initial
  simp only [hx, Option.some.injEq, forall_eq', ← Registry.find?_isSome]
  constructor
  · rintro ⟨i, hi⟩
    obtain ⟨s, hs, hi⟩ := bind_eq_ok.mp hi
    obtain ⟨d, hd, -⟩ := bind_eq_ok.mp hi
    obtain rfl : t = s := Option.some.inj (htarget.symm.trans (need_eq_ok.mp hs))
    rw [need_eq_ok.mp hd]
    rfl
  · intro hsome
    obtain ⟨d, hd⟩ := Option.isSome_iff_exists.mp hsome
    exact ⟨_, bind_eq_ok.mpr ⟨t, need_eq_ok.mpr htarget, bind_eq_ok.mpr ⟨d, need_eq_ok.mpr hd, rfl⟩⟩⟩

end Tree.Faithful

theorem Builder.target_isOk_iff {b : Builder} (source : String) (i : Nat) (around : List String) {text : String} :
    (∃ t, b.target source i around text = .ok t) ↔ (text ≠ "FINAL" → text ∈ b.registry.names) := by
  rw [← Registry.find?_isSome]
  unfold Builder.target
  split
  · rename_i hfinal
    exact ⟨fun _ hne => absurd hfinal hne, fun _ => ⟨_, rfl⟩⟩
  · rename_i hfinal
    split
    · rename_i hd
      exact ⟨fun _ _ => hd, fun _ => ⟨_, rfl⟩⟩
    · rename_i hd
      exact ⟨fun ⟨t, ht⟩ => (by cases ht), fun h => absurd (h hfinal) hd⟩

namespace Tree.Faithful

variable {n : Node} {b : Builder} {source : String} {around : List String}

theorem guards_isOk (h : (Tree.node n cs).Faithful) (id : Id) :
    ∃ g, (firstOf? .guard cs).mapM (Guard.ofTree id) = .ok g := by
  cases hfirst : firstOf? .guard cs with
  | none => exact ⟨none, rfl⟩
  | some c =>
    have hrule : c.hasRule .guard = true := List.find?_some hfirst
    have hfaithful := h.child (List.mem_of_find?_eq_some hfirst)
    cases c with
    | leaf _ => cases hrule
    | fault _ => cases hrule
    | node m us =>
      obtain ⟨g, hg⟩ := hfaithful.guard_isOk (beq_iff_eq.mp hrule) id
      exact ⟨some g, by rw [Option.mapM_some, hg]; rfl⟩

theorem assignments_isOk (h : (Tree.node n cs).Faithful) (i : Nat) : ∃ as, b.assignments source i cs = .ok as := by
  refine exists_mapM_eq_ok.mpr fun a ha => ?_
  obtain ⟨c, j⟩ := a
  obtain ⟨hmem, hrule⟩ := List.mem_filter.mp (List.fst_mem_of_mem_zipIdx ha)
  have hfaithful := h.child hmem
  cases c with
  | leaf _ => cases hrule
  | fault _ => cases hrule
  | node m us => exact hfaithful.assignment_isOk (beq_iff_eq.mp hrule) _

theorem transition_isOk_iff (h : (Tree.node n cs).Faithful) (hn : n.rule = .transition) (i : Nat) :
    (∃ t, b.transition source around i n cs = .ok t) ↔
      ∀ x, targetOf? cs = some x → x ≠ "FINAL" → x ∈ b.registry.names := by
  obtain ⟨head, htarget, hamong⟩ := h.recalled hn rfl .target (by decide) (by decide)
  obtain ⟨trigger, htrigger, -⟩ := h.recalled hn rfl .trigger (by decide) (by decide)
  have hx : targetOf? cs = some head.text := by rw [targetOf?, hamong]; rfl
  rw [hx]
  simp only [Option.some.injEq, forall_eq']
  rw [← Builder.target_isOk_iff source i around]
  unfold Builder.transition
  constructor
  · rintro ⟨t, ht⟩
    obtain ⟨arrow, -, ht⟩ := bind_eq_ok.mp ht
    obtain ⟨guard, -, ht⟩ := bind_eq_ok.mp ht
    obtain ⟨as, -, ht⟩ := bind_eq_ok.mp ht
    obtain ⟨s, hs, ht⟩ := bind_eq_ok.mp ht
    obtain ⟨u, -, ht⟩ := bind_eq_ok.mp ht
    obtain ⟨target, ht, -⟩ := bind_eq_ok.mp ht
    obtain rfl : head = s := Option.some.inj (htarget.symm.trans (need_eq_ok.mp hs))
    exact ⟨target, ht⟩
  · rintro ⟨target, ht⟩
    obtain ⟨arrow, harrow⟩ := h.token hn (k := .arrow) (by decide)
    obtain ⟨guard, hguard⟩ := h.guards_isOk (.guard b.load source i)
    obtain ⟨as, has⟩ := h.assignments_isOk i
    exact ⟨_, bind_eq_ok.mpr ⟨arrow, need_eq_ok.mpr harrow, bind_eq_ok.mpr ⟨guard, hguard, bind_eq_ok.mpr ⟨as, has,
      bind_eq_ok.mpr ⟨head, need_eq_ok.mpr htarget, bind_eq_ok.mpr ⟨trigger, need_eq_ok.mpr htrigger,
        bind_eq_ok.mpr ⟨target, ht, rfl⟩⟩⟩⟩⟩⟩⟩

/-- The transitions among the children of a node can be built if each leads to FINAL or to a declared state. -/
theorem transitions_isOk_iff (h : (Tree.node n cs).Faithful) (source : String) (around : List String) :
    (∃ ts, b.transitions source around cs = .ok ts) ↔ ∀ m us, .node m us ∈ cs → m.rule = .transition →
      ∀ x, targetOf? us = some x → x ≠ "FINAL" → x ∈ b.registry.names := by
  unfold Builder.transitions
  rw [exists_mapM_eq_ok]
  constructor
  · intro hall m us hmem hm
    have hin : Tree.node m us ∈ allOf .transition cs := List.mem_filter.mpr ⟨hmem, beq_iff_eq.mpr hm⟩
    rw [← List.zipIdx_map_fst 0 (allOf .transition cs)] at hin
    obtain ⟨⟨c, i⟩, hi, rfl⟩ := List.mem_map.mp hin
    exact ((h.child hmem).transition_isOk_iff hm i).mp (hall _ hi)
  · intro hall a ha
    obtain ⟨c, i⟩ := a
    obtain ⟨hmem, hrule⟩ := List.mem_filter.mp (List.fst_mem_of_mem_zipIdx ha)
    cases c with
    | leaf _ => cases hrule
    | fault _ => cases hrule
    | node m us =>
      have hm : m.rule = .transition := beq_iff_eq.mp hrule
      exact ((h.child hmem).transition_isOk_iff hm i).mpr (hall m us hmem hm)

end Tree.Faithful

end Statechart
