/-
  Statechart.Proofs.Language — the grammar as it is written down, the token sequences it
  derives, and the trees that are derivations.

  `Rule.production` gives the right-hand side of every rule. An expression is there
  simply two expressions with an operator between them, or parentheses, or a signed
  atom; nothing says how operators bind. `Derives` says which tokens a right-hand side
  derives, `Spans` which children a node may have for it, and a tree is a derivation if
  the children of each node span the right-hand side of its rule.
  - `IsDerivation.derives`: the tokens below a derivation are derived from its rule.
  - `Derived.isDerivation`: what fills the parser's items is a derivation. The levels at
    which operators were read are forgotten in it.
  - `Derives.flat`: an expression is operands with operators between them.
-/

import Statechart.Proofs.Derivation

namespace Statechart

/-! ## Right-hand sides -/

/-- A right-hand side, or a part of one. -/
inductive Phrase where
  | token (kinds : List Kind)
  | rule (r : Rule)
  | seq (parts : List Phrase)
  | option (body : List Phrase)
  | star (body : List Phrase)
  | plus (body : List Phrase)
  | either (left right : List Phrase)

/-- One of some alternatives. -/
def Phrase.oneOf : List (List Phrase) → List Phrase
  | [] => []
  | [p] => p
  | p :: ps => [.either p (oneOf ps)]

def Rule.production : Rule → List Phrase
  | .machine =>
    [.token [.machine], .token [.name], .token [.openBrace], .rule .initial, .plus [.rule .state], .token [.closeBrace],
     .token [.endOfText]]
  | .composite =>
    [.token [.composite], .token [.name], .token [.openBrace], .star [.rule .transition],
     .option [.rule .initial, .plus [.rule .state]], .token [.closeBrace]]
  | .simple =>
    [.token [.state], .token [.name], .token [.openBrace], .star [.rule .transition], .token [.closeBrace]]
  | .state => Phrase.oneOf [[.rule .simple], [.rule .composite]]
  | .initial => [.token [.initial], .token [.arrow], .token [.name], .token [.semicolon]]
  | .transition =>
    [.token [.arrow], .token [.final, .name], .token [.colon], .token [.text],
     .option [.token [.openBracket], .rule .guard, .token [.closeBracket]],
     .option [.token [.divide], .token [.openBrace], .star [.rule .separated], .token [.closeBrace]],
     .token [.semicolon]]
  | .guard =>
    [.rule .variable, .token [.notEqual, .less, .lessEqual, .greater, .greaterEqual, .equal], .rule .expression]
  | .separated => [.rule .assignment, .token [.semicolon]]
  | .file => [.star [.rule .assignment], .token [.endOfText]]
  | .assignment => [.rule .variable, .token [.equal], .rule .expression]
  | .expression => Phrase.oneOf
    [[.rule .expression, .token [.power], .rule .expression],
     [.rule .expression, .token [.times, .divide], .rule .expression],
     [.rule .expression, .token [.plus, .minus], .rule .expression],
     [.token [.openParen], .rule .expression, .token [.closeParen]],
     [.option [.token [.plus, .minus]], .rule .atom]]
  | .atom => Phrase.oneOf [[.rule .number], [.rule .variable]]
  | .number => [.token [.number]]
  | .variable => [.token [.variable]]

namespace Phrase

/-! ## Derived tokens -/

/-- The tokens that a phrase derives. -/
inductive Derives : Phrase → List Token → Prop
  | token {ks : List Kind} {t : Token} : t.kind ∈ ks → Derives (.token ks) [t]
  | rule {r : Rule} {w : List Token} : Derives (.seq r.production) w → Derives (.rule r) w
  | nil : Derives (.seq []) []
  | cons {p : Phrase} {ps : List Phrase} {u v : List Token} : Derives p u → Derives (.seq ps) v →
      Derives (.seq (p :: ps)) (u ++ v)
  | absent {b : List Phrase} : Derives (.option b) []
  | present {b : List Phrase} {w : List Token} : Derives (.seq b) w → Derives (.option b) w
  | enough {b : List Phrase} : Derives (.star b) []
  | again {b : List Phrase} {u v : List Token} : Derives (.seq b) u → Derives (.star b) v → Derives (.star b) (u ++ v)
  | some {b : List Phrase} {u v : List Token} : Derives (.seq b) u → Derives (.star b) v → Derives (.plus b) (u ++ v)
  | left {l r : List Phrase} {w : List Token} : Derives (.seq l) w → Derives (.either l r) w
  | right {l r : List Phrase} {w : List Token} : Derives (.seq r) w → Derives (.either l r) w

section

variable {p : Phrase} {ps qs b : List Phrase} {u v w : List Token}

theorem Derives.append (h : Derives (.seq ps) u) (h' : Derives (.seq qs) v) : Derives (.seq (ps ++ qs)) (u ++ v) := by
  induction ps generalizing u with
  | nil =>
    cases h with
    | nil => exact h'
  | cons p ps ih =>
    cases h with
    | cons hp hps =>
      rw [List.append_assoc]
      exact .cons hp (ih hps)

theorem Derives.split (h : Derives (.seq (ps ++ qs)) w) :
    ∃ u v, w = u ++ v ∧ Derives (.seq ps) u ∧ Derives (.seq qs) v := by
  induction ps generalizing w with
  | nil => exact ⟨[], w, rfl, .nil, h⟩
  | cons p ps ih =>
    cases h with
    | @cons _ _ u₀ _ hp hps =>
      obtain ⟨u, v, rfl, hu, hv⟩ := ih hps
      exact ⟨u₀ ++ u, v, by rw [List.append_assoc], .cons hp hu, hv⟩

theorem derives_one : Derives (.seq [p]) w ↔ Derives p w := by
  constructor
  · intro h
    cases h with
    | cons hp hn =>
      cases hn
      rwa [List.append_nil]
  · intro h
    rw [← List.append_nil w]
    exact .cons h .nil

theorem Derives.oneOf {alts : List (List Phrase)} (h : Derives (.seq (oneOf alts)) w) (ha : alts ≠ []) :
    ∃ qs ∈ alts, Derives (.seq qs) w := by
  induction alts with
  | nil => exact absurd rfl ha
  | cons a alts ih =>
    cases alts with
    | nil => exact ⟨a, List.mem_singleton.mpr rfl, h⟩
    | cons b alts =>
      cases derives_one.mp h with
      | left h => exact ⟨a, List.mem_cons_self .., h⟩
      | right h =>
        obtain ⟨qs, hq, hd⟩ := ih h nofun
        exact ⟨qs, List.mem_cons_of_mem _ hq, hd⟩

/-- Rounds may be added behind others. -/
theorem Derives.star_append (h : Derives (.star b) u) (h' : Derives (.star b) v) : Derives (.star b) (u ++ v) := by
  generalize he : Phrase.star b = p at h
  induction h with
  | enough => exact he ▸ h'
  | again hb _ _ ih =>
    cases he
    rw [List.append_assoc]
    exact .again hb (ih rfl)
  | _ => cases he

end

/-! ## Derivation trees -/

/-- The children that a node may have for a phrase. -/
inductive Spans : Phrase → List Tree → Prop
  | token {ks : List Kind} {t : Token} : t.kind ∈ ks → Spans (.token ks) [.leaf t]
  | rule {r : Rule} {n : Node} {ts : List Tree} : n.rule = r → Spans (.rule r) [.node n ts]
  | nil : Spans (.seq []) []
  | cons {p : Phrase} {ps : List Phrase} {cs ds : List Tree} : Spans p cs → Spans (.seq ps) ds →
      Spans (.seq (p :: ps)) (cs ++ ds)
  | absent {b : List Phrase} : Spans (.option b) []
  | present {b : List Phrase} {cs : List Tree} : Spans (.seq b) cs → Spans (.option b) cs
  | enough {b : List Phrase} : Spans (.star b) []
  | again {b : List Phrase} {cs ds : List Tree} : Spans (.seq b) cs → Spans (.star b) ds → Spans (.star b) (cs ++ ds)
  | some {b : List Phrase} {cs ds : List Tree} : Spans (.seq b) cs → Spans (.star b) ds → Spans (.plus b) (cs ++ ds)
  | left {l r : List Phrase} {cs : List Tree} : Spans (.seq l) cs → Spans (.either l r) cs
  | right {l r : List Phrase} {cs : List Tree} : Spans (.seq r) cs → Spans (.either l r) cs

theorem Spans.split {ps qs : List Phrase} {cs : List Tree} (h : Spans (.seq (ps ++ qs)) cs) :
    ∃ ds es, cs = ds ++ es ∧ Spans (.seq ps) ds ∧ Spans (.seq qs) es := by
  induction ps generalizing cs with
  | nil => exact ⟨[], cs, rfl, .nil, h⟩
  | cons p ps ih =>
    cases h with
    | @cons _ _ ds₀ _ hp hps =>
      obtain ⟨ds, es, rfl, hd, he⟩ := ih hps
      exact ⟨ds₀ ++ ds, es, by rw [List.append_assoc], .cons hp hd, he⟩

theorem spans_one {p : Phrase} {cs : List Tree} : Spans (.seq [p]) cs ↔ Spans p cs := by
  constructor
  · intro h
    cases h with
    | cons hp hn =>
      cases hn
      rwa [List.append_nil]
  · intro h
    rw [← List.append_nil cs]
    exact .cons h .nil

theorem spans_oneOf {alts : List (List Phrase)} {ps : List Phrase} {cs : List Tree} (hp : ps ∈ alts)
    (h : Spans (.seq ps) cs) : Spans (.seq (oneOf alts)) cs := by
  induction alts with
  | nil => cases hp
  | cons a alts ih =>
    cases alts with
    | nil =>
      cases List.mem_singleton.mp hp
      exact h
    | cons b alts =>
      rcases List.mem_cons.mp hp with rfl | hp
      · exact spans_one.mpr (.left h)
      · exact spans_one.mpr (.right (ih hp))

theorem Spans.concat {ps : List Phrase} {p : Phrase} {cs ds : List Tree} (h : Spans (.seq ps) cs) (hp : Spans p ds) :
    Spans (.seq (ps ++ [p])) (cs ++ ds) := by
  induction ps generalizing cs with
  | nil =>
    cases h with
    | nil => exact spans_one.mpr hp
  | cons q ps ih =>
    cases h with
    | cons hq hps =>
      rw [List.append_assoc]
      exact .cons hq (ih hps)

end Phrase

namespace Tree

/-- The children of every node span the right-hand side of its rule. -/
inductive IsDerivation : Tree → Prop
  | leaf (t : Token) : IsDerivation (.leaf t)
  | node {n : Node} {cs : List Tree} : Phrase.Spans (.seq n.rule.production) cs → (∀ c ∈ cs, c.IsDerivation) →
      IsDerivation (.node n cs)

mutual

/-- The tokens that were passed over or put in below a tree. -/
def faults : Tree → List Token
  | .leaf _ => []
  | .fault t => [t]
  | .node _ cs => faultsOf cs

def faultsOf : List Tree → List Token
  | [] => []
  | c :: cs => c.faults ++ faultsOf cs

end

theorem faultsOf_eq_nil {cs : List Tree} (h : ∀ c ∈ cs, c.faults = []) : faultsOf cs = [] := by
  induction cs with
  | nil => rfl
  | cons c cs ih =>
    rw [faultsOf, h c (List.mem_cons_self ..), ih fun d hd => h d (List.mem_cons_of_mem _ hd)]
    rfl

theorem IsDerivation.faults {t : Tree} (h : t.IsDerivation) : t.faults = [] := by
  induction h with
  | leaf t => rfl
  | node _ _ ih => exact faultsOf_eq_nil ih

end Tree

/-- What spans a phrase has tokens that the phrase derives, if what is below each node has such tokens. -/
theorem Phrase.Spans.derives {p : Phrase} {cs : List Tree} (h : p.Spans cs)
    (hc : ∀ n ts, .node n ts ∈ cs → Derives (.rule n.rule) (Tree.tokensOf ts)) : p.Derives (Tree.tokensOf cs) := by
  induction h with
  | token hk => exact .token hk
  | @rule r n ts hn =>
    subst hn
    rw [Tree.tokensOf, Tree.tokens, Tree.tokensOf, List.append_nil]
    exact hc n ts (List.mem_singleton.mpr rfl)
  | nil => exact .nil
  | absent => exact .absent
  | enough => exact .enough
  | present _ ih => exact .present (ih hc)
  | left _ ih => exact .left (ih hc)
  | right _ ih => exact .right (ih hc)
  | cons _ _ ih ih' =>
    rw [Tree.tokensOf_append]
    exact .cons (ih fun n ts h => hc n ts (List.mem_append_left _ h))
      (ih' fun n ts h => hc n ts (List.mem_append_right _ h))
  | again _ _ ih ih' =>
    rw [Tree.tokensOf_append]
    exact .again (ih fun n ts h => hc n ts (List.mem_append_left _ h))
      (ih' fun n ts h => hc n ts (List.mem_append_right _ h))
  | some _ _ ih ih' =>
    rw [Tree.tokensOf_append]
    exact .some (ih fun n ts h => hc n ts (List.mem_append_left _ h))
      (ih' fun n ts h => hc n ts (List.mem_append_right _ h))

/-- The tokens below a derivation are derived from its rule. -/
theorem Tree.IsDerivation.derives {n : Node} {cs : List Tree} (h : (Tree.node n cs).IsDerivation) :
    Phrase.Derives (.rule n.rule) (tokensOf cs) := by
  generalize ht : Tree.node n cs = t at h
  induction h generalizing n cs with
  | leaf => cases ht
  | node hs _ ih =>
    cases ht
    exact .rule (hs.derives fun m ts hm => ih _ hm rfl)

/-! ## The parser's items as phrases -/

/-- What stands between operators. -/
def Phrase.operand : Phrase :=
  .either [.token [.openParen], .rule .expression, .token [.closeParen]]
    [.option [.token [.plus, .minus]], .rule .atom]

/-- The operators that bind at least as tightly as `level`. -/
def operatorsFrom (level : Nat) : List Kind := operators.filter fun k => k.level?.any (level ≤ ·)

/-- Operators of some level on, each with an operand behind it. -/
def Phrase.operations (level : Nat) : Phrase := .star [.token (operatorsFrom level), operand]

mutual

/-- What an item asks for. An expression at a level above the lowest is operands with operators of that level on;
    the grammar has no rule for it. -/
def Item.phrase : Item → Phrase
  | .token _ ks _ => .token ks
  | .call r => .rule r
  | .expression 0 => .rule .expression
  | .expression (level + 1) => .seq [.operand, .operations (level + 1)]
  | .option _ b => .option (phrasesOf b)
  | .many _ _ b => .star (phrasesOf b)
  | .some _ _ b => .plus (phrasesOf b)
  | .again _ b => .star (phrasesOf b)
  | .choice _ l r => .either (phrasesOf l) (phrasesOf r)
  | .operators level => .operations level

def phrasesOf : List Item → List Phrase
  | [] => []
  | i :: is => i.phrase :: phrasesOf is

end

theorem phrasesOf_append (is js : List Item) : phrasesOf (is ++ js) = phrasesOf is ++ phrasesOf js := by
  induction is with
  | nil => rfl
  | cons i is ih => rw [List.cons_append, phrasesOf, phrasesOf, ih, List.cons_append]

/-- But for expressions the parser's items are the grammar. -/
theorem Rule.phrasesOf_body {r : Rule} (h : r ≠ .expression) : phrasesOf r.body = r.production := by
  cases r with
  | expression => exact absurd rfl h
  | _ => rfl

/-! ## What fills a rule is a derivation -/

mutual

/-- Expressions are asked for at the lowest level only, and operators not at all. -/
def Item.based : Item → Bool
  | .expression level => level == 0
  | .operators _ => false
  | .option _ b => basedAll b
  | .many _ _ b => basedAll b
  | .some _ _ b => basedAll b
  | .again _ b => basedAll b
  | .choice _ l r => basedAll l && basedAll r
  | _ => true

def basedAll : List Item → Bool
  | [] => true
  | i :: is => i.based && basedAll is

end

theorem basedAll_append (is js : List Item) : basedAll (is ++ js) = (basedAll is && basedAll js) := by
  induction is with
  | nil => rfl
  | cons i is ih => rw [List.cons_append, basedAll, basedAll, ih, Bool.and_assoc]

theorem basedAll_rounds {place : Nat} {b is : List Item} (h : (basedAll b && basedAll is) = true) :
    basedAll (b ++ .again place b :: is) = true := by
  rw [Bool.and_eq_true] at h
  rw [basedAll_append, basedAll, Item.based, h.1, h.2]
  rfl

/-- A round and then perhaps more are some rounds. -/
theorem spans_rounds {place : Nat} {b is : List Item} {cs : List Tree}
    (h : Phrase.Spans (.seq (phrasesOf (b ++ .again place b :: is))) cs) :
    ∃ ds es, cs = ds ++ es ∧ Phrase.Spans (.star (phrasesOf b)) ds ∧ Phrase.Spans (.plus (phrasesOf b)) ds ∧
      Phrase.Spans (.seq (phrasesOf is)) es := by
  rw [phrasesOf_append] at h
  obtain ⟨us, vs, rfl, hu, hv⟩ := h.split
  cases hv with
  | @cons _ _ ds es hs hrest => exact ⟨us ++ ds, es, by rw [List.append_assoc], .again hu hs, .some hu hs, hrest⟩

theorem Rule.based_body {r : Rule} (h : r ≠ .expression) : basedAll r.body = true := by
  cases r with
  | expression => exact absurd rfl h
  | _ => rfl

theorem Fills.spans {r : Rule} {is : List Item} {cs ds : List Tree} (h : Fills r is cs ds) (hi : basedAll is = true) :
    ∃ es, ds = cs ++ es ∧ Phrase.Spans (.seq (phrasesOf is)) es := by
  induction h with
  | done => exact ⟨[], by rw [List.append_nil], .nil⟩
  | token hk _ ih =>
    simp only [basedAll, Bool.and_eq_true] at hi
    obtain ⟨es, rfl, hes⟩ := ih hi.2
    exact ⟨_ :: es, by rw [List.append_assoc]; rfl, .cons (.token hk) hes⟩
  | call ts hn _ ih =>
    simp only [basedAll, Bool.and_eq_true] at hi
    obtain ⟨es, rfl, hes⟩ := ih hi.2
    exact ⟨_ :: es, by rw [List.append_assoc]; rfl, .cons (.rule hn) hes⟩
  | expression ts hn _ ih =>
    simp only [basedAll, Item.based, Bool.and_eq_true, beq_iff_eq] at hi
    obtain ⟨rfl, hi⟩ := hi
    obtain ⟨es, rfl, hes⟩ := ih hi
    exact ⟨_ :: es, by rw [List.append_assoc]; rfl, .cons (.rule hn) hes⟩
  | absent _ ih =>
    simp only [basedAll, Bool.and_eq_true] at hi
    obtain ⟨es, rfl, hes⟩ := ih hi.2
    exact ⟨es, rfl, .cons .absent hes⟩
  | none _ ih =>
    simp only [basedAll, Bool.and_eq_true] at hi
    obtain ⟨es, rfl, hes⟩ := ih hi.2
    exact ⟨es, rfl, .cons .enough hes⟩
  | enough _ ih =>
    simp only [basedAll, Bool.and_eq_true] at hi
    obtain ⟨es, rfl, hes⟩ := ih hi.2
    exact ⟨es, rfl, .cons .enough hes⟩
  | present _ ih =>
    obtain ⟨es, rfl, hes⟩ := ih (by rwa [basedAll_append])
    rw [phrasesOf_append] at hes
    obtain ⟨us, vs, rfl, hu, hv⟩ := hes.split
    exact ⟨_, rfl, .cons (.present hu) hv⟩
  | left _ ih =>
    simp only [basedAll, Item.based, Bool.and_eq_true] at hi
    obtain ⟨es, rfl, hes⟩ := ih (by rw [basedAll_append, hi.1.1, hi.2]; rfl)
    rw [phrasesOf_append] at hes
    obtain ⟨us, vs, rfl, hu, hv⟩ := hes.split
    exact ⟨_, rfl, .cons (.left hu) hv⟩
  | right _ ih =>
    simp only [basedAll, Item.based, Bool.and_eq_true] at hi
    obtain ⟨es, rfl, hes⟩ := ih (by rw [basedAll_append, hi.1.2, hi.2]; rfl)
    rw [phrasesOf_append] at hes
    obtain ⟨us, vs, rfl, hu, hv⟩ := hes.split
    exact ⟨_, rfl, .cons (.right hu) hv⟩
  | many _ ih =>
    obtain ⟨es, rfl, hes⟩ := ih (basedAll_rounds hi)
    obtain ⟨us, vs, rfl, hu, -, hv⟩ := spans_rounds hes
    exact ⟨_, rfl, .cons hu hv⟩
  | again _ ih =>
    obtain ⟨es, rfl, hes⟩ := ih (basedAll_rounds hi)
    obtain ⟨us, vs, rfl, hu, -, hv⟩ := spans_rounds hes
    exact ⟨_, rfl, .cons hu hv⟩
  | some _ ih =>
    obtain ⟨es, rfl, hes⟩ := ih (basedAll_rounds hi)
    obtain ⟨us, vs, rfl, -, hu, hv⟩ := spans_rounds hes
    exact ⟨_, rfl, .cons hu hv⟩
  | operand => simp [basedAll, Item.based] at hi
  | operator => simp [basedAll, Item.based] at hi

/-- Items for one token or one node each, and what the grammar has in their place. -/
inductive Places : List Item → List Phrase → Prop
  | nil : Places [] []
  | token {place : Nat} {ks : List Kind} {slot : Slot} {is : List Item} {ps : List Phrase} : Places is ps →
      Places (.token place ks slot :: is) (.token ks :: ps)
  | call {r : Rule} {is : List Item} {ps : List Phrase} : Places is ps → Places (.call r :: is) (.rule r :: ps)
  | expression {level : Nat} {is : List Item} {ps : List Phrase} : Places is ps →
      Places (.expression level :: is) (.rule .expression :: ps)

/-- The items of an operator of some level are those of an alternative of the grammar. -/
theorem places_operatorBody (level bound : Nat) : ∃ is ks, operatorBody level bound = is ++ [.operators level] ∧
    Places is [.token ks, .rule .expression] ∧
    ∀ cs, Phrase.Spans (.seq [.rule .expression, .token ks, .rule .expression]) cs →
      Phrase.Spans (.seq Rule.expression.production) cs := by
  unfold operatorBody
  dsimp only
  split
  · exact ⟨[_, _], _, rfl, .token (.expression .nil), fun cs h => Phrase.spans_oneOf (by simp) h⟩
  · split
    · exact ⟨[_, _], _, rfl, .token (.expression .nil), fun cs h => Phrase.spans_oneOf (by simp) h⟩
    · exact ⟨[_, _], _, rfl, .token (.expression .nil), fun cs h => Phrase.spans_oneOf (by simp) h⟩

/-- What there is spans the part `done` of an alternative, and the items up to the operators are the rest of it. Each
    operator starts an alternative anew, with all that is there as its first expression. -/
theorem Fills.spans_operators {items : List Item} {cs ds : List Tree} (h : Fills .expression items cs ds)
    {is : List Item} {level : Nat} {done ps : List Phrase} (hplaces : Places is ps)
    (hitems : items = is ++ [.operators level]) (hdone : Phrase.Spans (.seq done) cs)
    (hall : ∀ es, Phrase.Spans (.seq (done ++ ps)) es → Phrase.Spans (.seq Rule.expression.production) es) :
    Phrase.Spans (.seq Rule.expression.production) ds := by
  induction h generalizing is done ps with
  | @token _ _ _ _ _ _ t hk _ ih =>
    cases hplaces with
    | nil => cases hitems
    | token hplaces =>
      cases hitems
      refine ih hplaces rfl (hdone.concat (.token hk)) fun es hes => hall es ?_
      rwa [List.append_assoc] at hes
    | _ => cases hitems
  | call ts hn _ ih =>
    cases hplaces with
    | nil => cases hitems
    | call hplaces =>
      cases hitems
      refine ih hplaces rfl (hdone.concat (.rule hn)) fun es hes => hall es ?_
      rwa [List.append_assoc] at hes
    | _ => cases hitems
  | expression ts hn _ ih =>
    cases hplaces with
    | nil => cases hitems
    | expression hplaces =>
      cases hitems
      refine ih hplaces rfl (hdone.concat (.rule hn)) fun es hes => hall es ?_
      rwa [List.append_assoc] at hes
    | _ => cases hitems
  | operand hf _ =>
    cases hplaces with
    | nil =>
      cases hitems
      cases hf
      exact hall _ (by rwa [List.append_nil])
    | _ => cases hitems
  | @operator _ bound _ _ _ n hn _ _ ih =>
    cases hplaces with
    | nil =>
      cases hitems
      obtain ⟨js, ks, hbody, hjs, halt⟩ := places_operatorBody level bound
      exact ih hjs (by rw [hbody, List.append_nil]) (Phrase.spans_one.mpr (.rule hn)) halt
    | _ => cases hitems
  | _ => cases hplaces <;> cases hitems

theorem Fills.spans_expression {level : Nat} {cs : List Tree} (h : Fills .expression (expressionBody level) [] cs) :
    Phrase.Spans (.seq Rule.expression.production) cs := by
  cases h with
  | left h =>
    exact h.spans_operators (.token (.expression (.token .nil))) rfl .nil fun es hes => Phrase.spans_oneOf (by simp) hes
  | right h =>
    have hatom {es : List Tree} (hes : Phrase.Spans (.seq [.option [.token [.plus, .minus]], .rule .atom]) es) :
        Phrase.Spans (.seq Rule.expression.production) es := Phrase.spans_oneOf (by simp) hes
    cases h with
    | absent h => exact h.spans_operators (.call .nil) rfl .nil fun es hes => hatom (.cons .absent hes)
    | present h =>
      refine h.spans_operators (.token (.call .nil)) rfl .nil fun es hes => hatom ?_
      cases hes with
      | cons hsign hrest => exact .cons (.present (Phrase.spans_one.mpr hsign)) hrest

theorem Tree.Derived.isDerivation {t : Tree} (h : t.Derived) : t.IsDerivation := by
  induction h with
  | leaf t => exact .leaf t
  | @node n items cs hstarts hfills _ ih =>
    refine .node ?_ ih
    by_cases hr : n.rule = .expression
    · rw [hr] at hstarts hfills ⊢
      rcases hstarts with rfl | ⟨-, level, rfl⟩
      · exact Fills.spans_expression hfills
      · exact hfills.spans_expression
    · rcases hstarts with rfl | ⟨he, -⟩
      · obtain ⟨es, rfl, hes⟩ := hfills.spans (Rule.based_body hr)
        rwa [Rule.phrasesOf_body hr] at hes
      · exact absurd he hr

/-! ## Expressions as rows of operands -/

namespace Phrase

variable {u v w : List Token} {t : Token}

theorem Derives.operation {level : Nat} (ht : t.kind ∈ operatorsFrom level) (h : Derives .operand w) :
    Derives (.seq [.token (operatorsFrom level), .operand]) (t :: w) :=
  .cons (.token ht) (derives_one.mpr h)

/-- Two rows of operands with an operator between them are one. -/
theorem Derives.join {level : Nat} (hu : Derives (.seq [.operand, .operations level]) u)
    (ht : t.kind ∈ operatorsFrom level) (hv : Derives (.seq [.operand, .operations level]) v) :
    Derives (.seq [.operand, .operations level]) (u ++ t :: v) := by
  cases hu with
  | cons hfirst hmore =>
    cases hv with
    | cons hnext hrest =>
      rw [List.append_assoc, ← List.cons_append]
      exact .cons hfirst (derives_one.mpr ((derives_one.mp hmore).star_append
        (.again (hnext.operation ht) (derives_one.mp hrest))))

theorem Derives.binary {ks : List Kind} (h : Derives (.seq [.rule .expression, .token ks, .rule .expression]) w) :
    ∃ u t v, w = u ++ t :: v ∧ t.kind ∈ ks ∧ Derives (.seq Rule.expression.production) u ∧
      Derives (.seq Rule.expression.production) v := by
  cases h with
  | cons hu hrest =>
    cases hrest with
    | cons ht hv =>
      cases hu with
      | rule hu =>
        cases ht with
        | token ht =>
          cases derives_one.mp hv with
          | rule hv => exact ⟨_, _, _, rfl, ht, hu, hv⟩

/-- An expression is operands with operators between them. -/
theorem Derives.flat {w : List Token} (h : Derives (.seq Rule.expression.production) w) :
    Derives (.seq [.operand, .operations 0]) w := by
  have hsingle {w : List Token} (h : Derives .operand w) : Derives (.seq [.operand, .operations 0]) w := by
    rw [← List.append_nil w]
    exact .cons h (derives_one.mpr .enough)
  -- the expressions on both sides of an operator are shorter
  generalize hn : w.length = n
  induction n using Nat.strongRecOn generalizing w with
  | ind n ih =>
    have hjoin {ks : List Kind} (hks : ∀ k ∈ ks, k ∈ operatorsFrom 0)
        (h : Derives (.seq [.rule .expression, .token ks, .rule .expression]) w) :
        Derives (.seq [.operand, .operations 0]) w := by
      obtain ⟨u, t, v, rfl, ht, hu, hv⟩ := h.binary
      simp only [List.length_append, List.length_cons] at hn
      exact (ih u.length (by omega) hu rfl).join (hks _ ht) (ih v.length (by omega) hv rfl)
    unfold Rule.production at h
    obtain ⟨qs, hq, h⟩ := h.oneOf nofun
    simp only [List.mem_cons, List.not_mem_nil, or_false] at hq
    rcases hq with rfl | rfl | rfl | rfl | rfl
    · exact hjoin (by decide) h
    · exact hjoin (by decide) h
    · exact hjoin (by decide) h
    · exact hsingle (.left h)
    · exact hsingle (.right h)

end Phrase

end Statechart
