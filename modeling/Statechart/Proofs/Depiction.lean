/-
  Statechart.Proofs.Depiction — the tree that is read from the text of a chart.

  What the parser reads of a layout are its words without the blanks (`said`). `Faces` says
  where the parser stands in terms of the words ahead, and each item of the grammar has a
  lemma on how it goes on: a token, an opening, a call, an expression, the rounds of a
  repetition. A rule `Reads` some words if it reads them whatever comes behind, as long as
  that is no operator.

  A tree depicts a chart if the parts that a machine is built from stand in its nodes:
  names, targets and triggers as tokens, conditions, assignments, transitions and states as
  nodes of their own, in the order in which they are written.

  Proved (`Chart.Writable.depicted`): the text of a chart whose words can be written is read
  without complaint, into a tree that depicts the chart.
-/

import Statechart.Proofs.Charts
import Statechart.Proofs.Anatomy

namespace Statechart

/-! ## What is said -/

/-- How a kind is spelled that has only one spelling. -/
def Kind.spelling (k : Kind) : String := k.literal?.getD ""

namespace Word

variable {k : Kind} {ws us : List Word}

@[simp] theorem said_nil : said [] = [] := rfl

@[simp] theorem said_append : said (us ++ ws) = said us ++ said ws := by simp [said]

@[simp] theorem said_space : said (space :: ws) = said ws := rfl

@[simp] theorem said_newline : said (newline :: ws) = said ws := rfl

@[simp] theorem said_indent (depth : Nat) : said (indent depth) = [] := by
  unfold indent
  induction 2 * depth with
  | zero => rfl
  | succ n ih => exact ih

theorem said_cons {w : Word} (hk : w.1 ≠ .blank) : said (w :: ws) = Lexer.wordOf w :: said ws := by simp [said, hk]

@[simp] theorem said_fixed (hk : k ≠ .blank) : said (fixed k :: ws) = (k, k.spelling) :: said ws := by
  rw [said_cons hk, Lexer.wordOf, fixed, Kind.spelling]
  cases k.literal? <;> rfl

theorem said_free {cs : List Char} (hk : k ≠ .blank) (hl : k.literal? = none) :
    said ((k, cs) :: ws) = (k, .ofList cs) :: said ws := by
  rw [said_cons hk, Lexer.wordOf, hl]
  rfl

@[simp] theorem said_ofName (x : String) : said (ofName x :: ws) = (.name, x) :: said ws := by
  rw [ofName, said_free (by decide) rfl, String.ofList_toList]

@[simp] theorem said_ofVariable (x : String) : said (ofVariable x :: ws) = (.variable, x) :: said ws := by
  rw [ofVariable, said_free (by decide) rfl, String.ofList_toList]

@[simp] theorem said_ofNumber (x : String) : said (ofNumber x :: ws) = (.number, x) :: said ws := by
  rw [ofNumber, said_free (by decide) rfl, String.ofList_toList]

@[simp] theorem said_text (x : String) : said ((.text, x.toList) :: ws) = (.text, x) :: said ws := by
  rw [said_free (by decide) rfl, String.ofList_toList]

theorem said_flatMap {α : Type} (f : α → List Word) (as : List α) :
    said (as.flatMap f) = as.flatMap fun a => said (f a) := by
  induction as with
  | nil => rfl
  | cons a as ih => rw [List.flatMap_cons, said_append, ih, List.flatMap_cons]

end Word

open Word

theorem said_signLayout (s : Option Sign) : said (signLayout s) = (s.map Sign.word).toList := by
  rcases s with _ | s
  · rfl
  · cases s <;> rfl

theorem Expr.said_layout (e : Expr String) : said e.layout = e.spelling := by
  induction e with
  | binary op l r ihl ihr =>
    have hne : op.kind ≠ .blank := by cases op <;> decide
    have hop : op.kind.spelling = op.text := by rw [Kind.spelling, op.literal_kind, Option.getD_some]
    simp [layout, spelling, ihl, ihr, hne, hop]
  | paren s e ih => simp [layout, spelling, ih, said_signLayout]; exact ⟨rfl, rfl⟩
  | number s x => simp [layout, spelling, said_signLayout]
  | _ s x => simp [layout, spelling, said_signLayout]

namespace Parser

/-! ## The words ahead -/

/-- The parser stands as `At` says, with tokens of these words ahead. -/
def Faces (r : Rule) (callers : List Frame) (todo : List Item) (children : List Tree) (words : List (Kind × String))
    (p : Parser) : Prop := ∃ ts, ts.map Token.word = words ∧ At r callers todo children ts p

/-- The words do not begin with an operator. -/
def Ends (ws : List (Kind × String)) : Prop := ∀ w ∈ ws.head?, w.1.level? = none

theorem ends_cons {w : Kind × String} {ws : List (Kind × String)} (h : w.1.level? = none) : Ends (w :: ws) := by
  intro v hv
  cases hv
  exact h

section

variable {r r' : Rule} {fs : List Frame} {is items : List Item} {i : Item} {cs : List Tree} {p : Parser}
  {w : Kind × String} {us ws : List (Kind × String)}

theorem Faces.token {place : Nat} {ks : List Kind} {slot : Slot}
    (h : Faces r fs (.token place ks slot :: is) cs (w :: ws) p) (hk : w.1 ∈ ks) :
    Reaches p fun q => ∃ t : Token, t.word = w ∧ Faces r fs is (cs ++ [.leaf t]) ws q := by
  obtain ⟨ts, hts, hat⟩ := h
  obtain ⟨t, ts, rfl, rfl, rfl⟩ := List.map_eq_cons_iff.mp hts
  exact (hat.token hk).then fun q hq => reaches_here ⟨t, rfl, ts, rfl, hq⟩

theorem Faces.opens (h : Faces r fs (i :: is) cs (w :: ws) p) (hfit : w.1 ∈ (lookAll (i :: is)).kinds)
    (ho : Opens w.1 is i items) : Reaches p (Faces r fs items cs (w :: ws)) := by
  obtain ⟨ts, hts, hat⟩ := h
  obtain ⟨t, ts, rfl, rfl, rfl⟩ := List.map_eq_cons_iff.mp hts
  exact (hat.opens hfit ho).then fun q hq => reaches_here ⟨t :: ts, rfl, hq⟩

/-- The words are read by a rule, up to whatever comes behind them, into children of this sort. -/
def Reads (r : Rule) (us : List (Kind × String)) (D : List Tree → Prop) : Prop :=
  ∀ fs ws p, Ends ws → Faces r fs r.body [] (us ++ ws) p → Reaches p fun q => ∃ ds, D ds ∧ Faces r fs [] ds ws q

theorem Reads.call {D : List Tree → Prop} (hr : Reads r' us D) (h : Faces r fs (.call r' :: is) cs (us ++ ws) p)
    (hws : Ends ws) :
    Reaches p fun q => ∃ n ds, n.rule = r' ∧ D ds ∧ Faces r fs is (cs ++ [.node n ds]) ws q := by
  obtain ⟨ts, hts, hat⟩ := h
  have hvisit := hat.visit (fun ds rest => D ds ∧ rest.map Token.word = ws) (.rule r') fun f q hq => by
    refine (hr (f :: fs) ws q hws ⟨ts, hts, hq⟩).then ?_
    rintro q ⟨ds, hds, rest, hrest, hq⟩
    exact reaches_here ⟨ds, rest, ⟨hds, hrest⟩, hq⟩
  refine hvisit.then ?_
  rintro q ⟨n, ds, rest, hn, ⟨hds, hrest⟩, hq⟩
  exact reaches_here ⟨n, ds, hn, hds, rest, hrest, hq⟩

theorem below_of_ends {ts : List Token} (h : Ends (ts.map Token.word)) (level : Nat) : Below level ts := by
  intro t ht bound hb
  have hnone : t.kind.level? = none := h t.word (by rw [List.head?_map, ht]; rfl)
  rw [hnone] at hb
  cases hb

theorem Faces.expression {e : Expr String} (h : Faces r fs (.expression 0 :: is) cs (e.spelling ++ ws) p)
    (he : e.canonical = true) (hws : Ends ws) : Reaches p fun q => ∃ n ds, n.rule = .expression ∧ Stands e ds ∧
      Faces r fs is (cs ++ [.node n ds]) ws q := by
  obtain ⟨ts, hts, hat⟩ := h
  obtain ⟨us, rest, rfl, hus, rfl⟩ := List.map_eq_append_iff.mp hts
  have hcall := hat.call (Stands e) rest (.expression 0) fun f q hq => by
    refine (hq.reads_spelling he hus (Nat.zero_le _) (below_of_ends hws _)).then ?_
    rintro q ⟨ds, hds, hq⟩
    exact (hq.operand (below_of_ends hws _)).then fun q hq => reaches_here ⟨ds, hds, hq⟩
  refine hcall.then ?_
  rintro q ⟨n, ds, hn, hds, hq⟩
  exact reaches_here ⟨n, ds, hn, hds, rest, rfl, hq⟩

/-- The last token of a text is behind all its words. -/
theorem Faces.ending {place : Nat} {slot : Slot} (h : Faces r fs (.token place [.endOfText] slot :: is) cs [] p) :
    Reaches p fun q => ∃ t : Token, t.kind = .endOfText ∧ Faces r fs is (cs ++ [.leaf t]) [] q := by
  obtain ⟨ts, hts, hat⟩ := h
  cases List.map_eq_nil_iff.mp hts
  have hview : p.view.kind = .endOfText := by rw [view, hat.ahead, List.headD_nil, hat.ending]
  have hstep : p.step = p.take slot is := by
    unfold step
    rw [hat.todo]
    exact if_pos (sees_iff.mpr (List.mem_singleton.mpr hview))
  refine reaches_step hat.todo ⟨p.view, hview, [], rfl, ?_⟩
  obtain ⟨hrule, htodo, hchildren, hcallers, -⟩ := p.frame_take slot is
  obtain ⟨-, -, hahead, hending⟩ := p.take_keeps slot is
  rw [hstep]
  exact ⟨hrule.trans hat.rule, hcallers.trans hat.callers, htodo, by rw [hchildren, hat.children],
    by rw [hahead, hat.ahead, List.tail_nil], by rw [complaints_take, hat.complaints], by rw [hending, hat.ending]⟩

end

/-! ## Rounds -/

/-- Nodes of a rule, one for each of some things, that depict them. -/
def Nodes {α : Type} (r : Rule) (D : α → List Tree → Prop) (xs : List α) (cs : List Tree) : Prop :=
  List.Forall₂ (fun x c => c.hasRule r = true ∧ D x c.children) xs cs

section

variable {α : Type} {r r' : Rule} {fs : List Frame} {is : List Item} {cs : List Tree} {p : Parser}
  {D : α → List Tree → Prop} {f : α → List (Kind × String)} {xs : List α} {w : Kind × String}
  {ws : List (Kind × String)}

/-- Things that are written one after the other, each by a rule, with a word behind them that the rule does not
    begin with. -/
structure Row (r : Rule) (f : α → List (Kind × String)) (D : α → List Tree → Prop) (xs : List α)
    (w : Kind × String) : Prop where
  reads : ∀ x ∈ xs, Reads r (f x) (D x)
  opening : ∀ x ∈ xs, ∃ u us, f x = u :: us ∧ u.1 ∈ r.opening
  level : ∀ k ∈ r.opening, k.level? = none
  ends : w.1.level? = none
  behind : w.1 ∉ r.opening

theorem Row.tail {x : α} (h : Row r f D (x :: xs) w) : Row r f D xs w :=
  ⟨fun y hy => h.reads y (List.mem_cons_of_mem _ hy), fun y hy => h.opening y (List.mem_cons_of_mem _ hy), h.level,
    h.ends, h.behind⟩

/-- What comes next in a row is its first thing, or what is behind it. -/
theorem Row.next (h : Row r f D xs w) (ws : List (Kind × String)) :
    ∃ v vs, xs.flatMap f ++ w :: ws = v :: vs ∧ v.1.level? = none ∧ (xs ≠ [] → v.1 ∈ r.opening) := by
  cases xs with
  | nil => exact ⟨w, ws, rfl, h.ends, fun hne => absurd rfl hne⟩
  | cons x xs =>
    obtain ⟨u, us, hu, hopen⟩ := h.opening x List.mem_cons_self
    refine ⟨u, us ++ (xs.flatMap f ++ w :: ws), ?_, h.level _ hopen, fun _ => hopen⟩
    rw [List.flatMap_cons, hu, List.cons_append, List.cons_append, List.append_assoc]

theorem Row.ends_next (h : Row r f D xs w) (ws : List (Kind × String)) : Ends (xs.flatMap f ++ w :: ws) := by
  obtain ⟨v, vs, hv, hlevel, -⟩ := h.next ws
  rw [hv]
  exact ends_cons hlevel

/-- Each round reads one thing, and the rounds end where the row does. -/
theorem Faces.again {place : Nat} (hrow : Row r' f D xs w) (hw : w.1 ∈ (lookAll is).kinds)
    (h : Faces r fs (.again place [.call r'] :: is) cs (xs.flatMap f ++ w :: ws) p) :
    Reaches p fun q => ∃ ds, Nodes r' D xs ds ∧ Faces r fs is (cs ++ ds) (w :: ws) q := by
  have hlook : (lookAll (.again place [.call r'] :: is)).kinds = r'.opening ++ (lookAll is).kinds := rfl
  induction xs generalizing cs p with
  | nil =>
    refine (h.opens (hlook ▸ List.mem_append_right _ hw) (.enough hrow.behind)).then fun q hq => ?_
    exact reaches_here ⟨[], .nil, by rwa [List.append_nil]⟩
  | cons x xs ih =>
    obtain ⟨u, us, hu, hopen⟩ := hrow.opening x List.mem_cons_self
    have hround : Reaches p (Faces r fs (.call r' :: .again place [.call r'] :: is) cs
        (f x ++ (xs.flatMap f ++ w :: ws))) := by
      rw [List.flatMap_cons, List.append_assoc, hu] at h
      rw [hu]
      exact h.opens (hlook ▸ List.mem_append_left _ hopen) (.again hopen)
    refine hround.then fun q hq => ?_
    refine ((hrow.reads x List.mem_cons_self).call hq (hrow.tail.ends_next ws)).then ?_
    rintro q ⟨n, ds, hn, hds, hq⟩
    refine (ih hrow.tail hq).then ?_
    rintro q ⟨es, hes, hq⟩
    refine reaches_here ⟨.node n ds :: es, .cons ⟨beq_iff_eq.mpr hn, hds⟩ hes, ?_⟩
    rwa [List.append_assoc] at hq

/-- The first round of a repetition is like the others. -/
theorem Faces.round {x : α} {place : Nat} (hrow : Row r' f D (x :: xs) w) (hw : w.1 ∈ (lookAll is).kinds)
    (h : Faces r fs (.call r' :: .again place [.call r'] :: is) cs ((x :: xs).flatMap f ++ w :: ws) p) :
    Reaches p fun q => ∃ ds, Nodes r' D (x :: xs) ds ∧ Faces r fs is (cs ++ ds) (w :: ws) q := by
  rw [List.flatMap_cons, List.append_assoc] at h
  refine ((hrow.reads x List.mem_cons_self).call h (hrow.tail.ends_next ws)).then ?_
  rintro q ⟨n, ds, hn, hds, hq⟩
  refine (hq.again hrow.tail hw).then ?_
  rintro q ⟨es, hes, hq⟩
  refine reaches_here ⟨.node n ds :: es, .cons ⟨beq_iff_eq.mpr hn, hds⟩ hes, ?_⟩
  rwa [List.append_assoc] at hq

theorem Faces.many {place next : Nat} (hrow : Row r' f D xs w) (hw : w.1 ∈ (lookAll is).kinds)
    (h : Faces r fs (.many place next [.call r'] :: is) cs (xs.flatMap f ++ w :: ws) p) :
    Reaches p fun q => ∃ ds, Nodes r' D xs ds ∧ Faces r fs is (cs ++ ds) (w :: ws) q := by
  have hlook : (lookAll (.many place next [.call r'] :: is)).kinds = r'.opening ++ (lookAll is).kinds := rfl
  cases xs with
  | nil =>
    refine (h.opens (hlook ▸ List.mem_append_right _ hw) (.none hrow.behind)).then fun q hq => ?_
    exact reaches_here ⟨[], .nil, by rwa [List.append_nil]⟩
  | cons x xs =>
    obtain ⟨v, vs, hv, -, hopen⟩ := hrow.next ws
    have hopen := hopen (List.cons_ne_nil x xs)
    rw [hv] at h
    refine (h.opens (hlook ▸ List.mem_append_left _ hopen) (.many hopen)).then fun q hq => ?_
    rw [← hv] at hq
    exact hq.round hrow hw

theorem Faces.some {place next : Nat} (hrow : Row r' f D xs w) (hne : xs ≠ []) (hw : w.1 ∈ (lookAll is).kinds)
    (h : Faces r fs (.some place next [.call r'] :: is) cs (xs.flatMap f ++ w :: ws) p) :
    Reaches p fun q => ∃ ds, Nodes r' D xs ds ∧ Faces r fs is (cs ++ ds) (w :: ws) q := by
  have hlook : (lookAll (.some place next [.call r'] :: is)).kinds = r'.opening := rfl
  obtain ⟨v, vs, hv, -, hopen⟩ := hrow.next ws
  obtain ⟨x, xs, rfl⟩ := List.exists_cons_of_ne_nil hne
  rw [hv] at h
  refine (h.opens (hlook ▸ hopen hne) .some).then fun q hq => ?_
  rw [← hv] at hq
  exact hq.round hrow hw

end

end Parser

/-! ## Depictions -/

namespace Tree

variable {r s : Rule} {cs ds : List Tree} {ks : List Kind}

@[simp] theorem allOf_nil : allOf r [] = [] := rfl

@[simp] theorem tokensAmong_nil : tokensAmong ks [] = [] := rfl

@[simp] theorem allOf_append : allOf r (cs ++ ds) = allOf r cs ++ allOf r ds := List.filter_append cs ds

@[simp] theorem allOf_leaf (t : Token) : allOf r (.leaf t :: cs) = allOf r cs := rfl

@[simp] theorem tokensAmong_append : tokensAmong ks (cs ++ ds) = tokensAmong ks cs ++ tokensAmong ks ds := by
  simp [tokensAmong]

@[simp] theorem tokensAmong_cons_leaf (t : Token) :
    tokensAmong ks (.leaf t :: cs) = if t.kind ∈ ks then t :: tokensAmong ks cs else tokensAmong ks cs := by
  by_cases h : t.kind ∈ ks <;> simp [tokensAmong, token?, h]

@[simp] theorem tokensAmong_cons_node (n : Node) (ts : List Tree) :
    tokensAmong ks (.node n ts :: cs) = tokensAmong ks cs := rfl

@[simp] theorem allOf_node (n : Node) (ts : List Tree) :
    allOf r (.node n ts :: cs) = if n.rule = r then .node n ts :: allOf r cs else allOf r cs := by
  by_cases h : n.rule = r <;> simp [allOf, hasRule, h]

theorem nameOf?_eq (cs : List Tree) : nameOf? cs = (tokensAmong [.name] cs).head?.map (·.text) := by
  have hkind : (fun t : Token => t.kind == .name) = fun t => [Kind.name].contains t.kind := by
    funext t
    rw [Bool.eq_iff_iff]
    simp
  rw [nameOf?, tokenOf?, tokensAmong, List.head?_filter, hkind]

end Tree

namespace Parser

variable {α : Type} {r s : Rule} {D : α → List Tree → Prop} {xs : List α} {cs : List Tree} {ks : List Kind}

theorem Nodes.allOf_self (h : Nodes r D xs cs) : Tree.allOf r cs = cs := by
  refine List.filter_eq_self.mpr fun c hc => ?_
  obtain ⟨x, -, hx⟩ := exists_of_forall₂ h c hc
  exact hx.1

theorem Nodes.allOf_other (h : Nodes r D xs cs) (hs : r ≠ s) : Tree.allOf s cs = [] := by
  refine List.filter_eq_nil_iff.mpr fun c hc hrule => ?_
  obtain ⟨x, -, hx, -⟩ := exists_of_forall₂ h c hc
  rw [Tree.hasRule_iff] at hx hrule
  exact hs (Symbol.rule.inj (hx.symm.trans hrule))

theorem Nodes.tokensAmong_eq (h : Nodes r D xs cs) : Tree.tokensAmong ks cs = [] := by
  induction h with
  | nil => rfl
  | @cons x c xs cs hc _ ih =>
    cases c with
    | node n ts => exact ih
    | leaf t => cases hc.1
    | fault t => cases hc.1

end Parser

open Statechart.Parser (Reads Faces Nodes Row Reaches reaches_here ends_cons)

/-- The children of a guard say so. -/
structure Condition.Depicted (c : Condition) (cs : List Tree) : Prop where
  name : (Tree.firstOf? .variable cs).map Tree.text = some c.name
  expression : ∃ n ds, Tree.firstOf? .expression cs = some (.node n ds) ∧ Stands c.expression ds
  comparison : comparisonOf? cs = some c.comparison

/-- The children of an assignment say so. -/
structure AssignmentDepicted (a : String × Expr String) (cs : List Tree) : Prop where
  name : (Tree.firstOf? .variable cs).map Tree.text = some a.1
  expression : ∃ n ds, Tree.firstOf? .expression cs = some (.node n ds) ∧ Stands a.2 ds

/-- The children of a transition say so. -/
structure Arrow.Depicted (a : Arrow) (cs : List Tree) : Prop where
  target : (Tree.tokensAmong Slot.target.kinds cs).map Token.word = [Lexer.wordOf a.head]
  trigger : (Tree.tokensAmong Slot.trigger.kinds cs).map Token.word = [(.text, Kind.quoted a.trigger)]
  guard : Nodes .guard Condition.Depicted a.guard.toList (Tree.allOf .guard cs)
  assignments : Nodes .separated (fun x ds => ∃ n es, Tree.firstOf? .assignment ds = some (.node n es) ∧
    AssignmentDepicted x es) a.assignments (Tree.allOf .separated cs)

/-- Among the children is one initial section, which leads to this state. -/
def StartDepicted (x : String) (cs : List Tree) : Prop :=
  Nodes .initial (fun x ds => (Tree.tokensAmong Slot.target.kinds ds).map Token.word = [(.name, x)]) [x]
    (Tree.allOf .initial cs)

/-- The tree of a state says so. -/
inductive Draft.Depicted : Draft → Tree → Prop
  | simple {x : String} {as : List Arrow} {m n : Node} {cs : List Tree} : m.rule = .state → n.rule = .simple →
      Tree.nameOf? cs = some x → Nodes .transition Arrow.Depicted as (Tree.allOf .transition cs) →
      Depicted (.simple x as) (.node m [.node n cs])
  | composite {x i : String} {as : List Arrow} {ds : List Draft} {m n : Node} {cs : List Tree} : m.rule = .state →
      n.rule = .composite → Tree.nameOf? cs = some x → Nodes .transition Arrow.Depicted as (Tree.allOf .transition cs) →
      StartDepicted i cs → List.Forall₂ Depicted ds (Tree.allOf .state cs) →
      Depicted (.composite x as i ds) (.node m [.node n cs])

/-- The children of a machine's node say so. -/
structure Chart.Depicted (c : Chart) (cs : List Tree) : Prop where
  name : Tree.nameOf? cs = some c.name
  initial : StartDepicted c.initial cs
  states : List.Forall₂ Draft.Depicted c.states (Tree.allOf .state cs)

/-! ## Rules -/

variable {t : Token} {k : Kind}

theorem kind_of_word {w : Kind × String} (h : t.word = w) : t.kind = w.1 := congrArg Prod.fst h

theorem reads_variable (x : String) :
    Reads .variable [(.variable, x)] fun cs => ∃ t : Token, cs = [.leaf t] ∧ t.text = x := by
  intro fs ws p _ h
  refine (h.token List.mem_cons_self).then ?_
  rintro q ⟨t, ht, h⟩
  exact reaches_here ⟨_, ⟨t, rfl, (Parser.word_eq ht rfl).2⟩, h⟩

theorem text_variable (n : Node) (t : Token) : (Tree.node n [.leaf t]).text = t.text := by
  simp [Tree.text, Tree.tokens, Tree.tokensOf, String.join]

theorem comparisonOf?_leaf (c : Comparison) {m n : Node} {cs ds : List Tree} (ht : t.kind = c.kind) :
    comparisonOf? [.node m cs, .leaf t, .node n ds] = some c := by
  have hseen (k : Kind) : (Tree.tokenOf? k [.node m cs, .leaf t, .node n ds]).isSome = (c.kind == k) :=
    ht ▸ isSome_find_one t k
  simp only [comparisonOf?, hseen]
  cases c <;> rfl

/-- The words of a guard. -/
def Condition.words (c : Condition) : List (Kind × String) :=
  (.variable, c.name) :: (c.comparison.kind, c.comparison.kind.spelling) :: c.expression.spelling

theorem reads_guard {c : Condition} (hc : c.expression.canonical = true) : Reads .guard c.words c.Depicted := by
  intro fs ws p hws h
  have hkind : c.comparison.kind ∈ comparisons := by cases c.comparison <;> decide
  refine ((reads_variable c.name).call h (ends_cons ?_)).then ?_
  · cases c.comparison <;> rfl
  rintro q ⟨m, _, hm, ⟨s, rfl, hs⟩, h⟩
  refine (h.token hkind).then ?_
  rintro q ⟨t, ht, h⟩
  refine (h.expression hc hws).then ?_
  rintro q ⟨n, ds, hn, hds, h⟩
  refine reaches_here ⟨_, ⟨?_, ⟨n, ds, ?_, hds⟩, comparisonOf?_leaf _ (kind_of_word ht)⟩, h⟩
  · simp [Tree.firstOf?, Tree.hasRule, hm, text_variable, hs]
  · simp [Tree.firstOf?, Tree.hasRule, hm, hn]

/-- The words of an assignment. -/
def assignmentWords (a : String × Expr String) : List (Kind × String) :=
  (.variable, a.1) :: (.equal, Kind.equal.spelling) :: a.2.spelling

theorem reads_assignment {a : String × Expr String} (ha : a.2.canonical = true) :
    Reads .assignment (assignmentWords a) (AssignmentDepicted a) := by
  intro fs ws p hws h
  refine ((reads_variable a.1).call h (ends_cons rfl)).then ?_
  rintro q ⟨m, _, hm, ⟨s, rfl, hs⟩, h⟩
  refine (h.token List.mem_cons_self).then ?_
  rintro q ⟨t, ht, h⟩
  refine (h.expression ha hws).then ?_
  rintro q ⟨n, ds, hn, hds, h⟩
  refine reaches_here ⟨_, ⟨?_, ⟨n, ds, ?_, hds⟩⟩, h⟩
  · simp [Tree.firstOf?, Tree.hasRule, hm, text_variable, hs]
  · simp [Tree.firstOf?, Tree.hasRule, hm, hn]

/-! ## Transitions -/

theorem Condition.said_layout (c : Condition) : said c.layout =
    (.openBracket, Kind.openBracket.spelling) :: (c.words ++ [(.closeBracket, Kind.closeBracket.spelling)]) := by
  have hne : c.comparison.kind ≠ .blank := by cases c.comparison <;> decide
  simp [layout, words, hne, c.expression.said_layout]

theorem said_assignmentLayout (a : String × Expr String) :
    said (assignmentLayout a) = assignmentWords a ++ [(.semicolon, Kind.semicolon.spelling)] := by
  simp [assignmentLayout, assignmentWords, a.2.said_layout]

theorem said_assignmentsLayout (a : String × Expr String) (as : List (String × Expr String)) :
    said (assignmentsLayout (a :: as)) = (.divide, Kind.divide.spelling) :: (.openBrace, Kind.openBrace.spelling) ::
      ((a :: as).flatMap (fun a => said (assignmentLayout a)) ++ [(.closeBrace, Kind.closeBrace.spelling)]) := by
  simp [assignmentsLayout, said_flatMap]

theorem Arrow.said_layout (a : Arrow) : said a.layout = (.arrow, Kind.arrow.spelling) :: Lexer.wordOf a.head ::
    (.colon, Kind.colon.spelling) :: (.text, Kind.quoted a.trigger) ::
    (said (a.guard.toList.flatMap Condition.layout) ++
      (said (assignmentsLayout a.assignments) ++ [(.semicolon, Kind.semicolon.spelling)])) := by
  have hhead : a.head.1 ≠ .blank := by
    unfold Arrow.head
    cases a.target <;> exact Kind.noConfusion
  simp [layout, said_cons hhead]

theorem reads_separated {a : String × Expr String} (ha : a.2.canonical = true) :
    Reads .separated (said (assignmentLayout a)) fun cs => ∃ n ds, Tree.firstOf? .assignment cs = some (.node n ds) ∧
      AssignmentDepicted a ds := by
  intro fs ws p hws h
  rw [said_assignmentLayout, List.append_assoc] at h
  refine ((reads_assignment ha).call h (ends_cons rfl)).then ?_
  rintro q ⟨n, ds, hn, hds, h⟩
  refine (h.token List.mem_cons_self).then ?_
  rintro q ⟨t, -, h⟩
  exact reaches_here ⟨_, ⟨n, ds, by simp [Tree.firstOf?, Tree.hasRule, hn], hds⟩, h⟩

section

variable {fs : List Frame} {is : List Item} {cs : List Tree} {p : Parser} {w : Kind × String}
  {ws : List (Kind × String)}

/-- A guard or nothing is read, and no token that a transition remembers. -/
theorem reads_guards {g : Option Condition} (hg : ∀ c, g = some c → c.expression.canonical = true)
    (hw : w.1 ∈ (lookAll is).kinds) (hne : w.1 ≠ .openBracket)
    (h : Faces .transition fs (.option 54 [tok 55 .openBracket, .call .guard, tok 56 .closeBracket] :: is) cs
      (said (g.toList.flatMap Condition.layout) ++ w :: ws) p) :
    Reaches p fun q => ∃ ds, Nodes .guard Condition.Depicted g.toList (Tree.allOf .guard ds) ∧
      Tree.allOf .separated ds = [] ∧ (∀ s : Slot, Tree.tokensAmong s.kinds ds = []) ∧
      Faces .transition fs is (cs ++ ds) (w :: ws) q := by
  cases g with
  | none =>
    have hlook : w.1 ∈ [Kind.openBracket] ++ (lookAll is).kinds := List.mem_append_right _ hw
    have habsent : w.1 ∉ [Kind.openBracket] := fun hmem => hne (List.mem_singleton.mp hmem)
    refine (h.opens hlook (.absent habsent)).then fun q h => ?_
    exact reaches_here ⟨[], .nil, rfl, fun _ => rfl, by rwa [List.append_nil]⟩
  | some c =>
    rw [Option.toList_some, List.flatMap_singleton, c.said_layout, List.cons_append, List.append_assoc] at h
    refine (h.opens List.mem_cons_self (.present List.mem_cons_self)).then fun q h => ?_
    refine (h.token List.mem_cons_self).then ?_
    rintro q ⟨t, ht, h⟩
    refine ((reads_guard (hg c rfl)).call h (ends_cons rfl)).then ?_
    rintro q ⟨n, ds, hn, hds, h⟩
    refine (h.token List.mem_cons_self).then ?_
    rintro q ⟨s, hs, h⟩
    have ht := kind_of_word ht
    have hs := kind_of_word hs
    refine reaches_here ⟨[.leaf t, .node n ds, .leaf s], ?_, ?_, fun slot => ?_, by simpa using h⟩
    · have hguard : Tree.allOf .guard [.leaf t, .node n ds, .leaf s] = [.node n ds] := by simp [hn]
      rw [hguard]
      exact .cons ⟨beq_iff_eq.mpr hn, hds⟩ .nil
    · simp [hn]
    · cases slot <;> simp [Slot.kinds, ht, hs]

/-- Assignments or nothing are read, and no token that a transition remembers. -/
theorem reads_assignments {as : List (String × Expr String)} (has : ∀ a ∈ as, a.2.canonical = true)
    (hw : w.1 ∈ (lookAll is).kinds) (hne : w.1 ≠ .divide)
    (h : Faces .transition fs (.option 57 [tok 58 .divide, tok 59 .openBrace, .many 60 61 [.call .separated],
      tok 62 .closeBrace] :: is) cs (said (assignmentsLayout as) ++ w :: ws) p) :
    Reaches p fun q => ∃ ds, Nodes .separated (fun x ds => ∃ n es, Tree.firstOf? .assignment ds = some (.node n es) ∧
      AssignmentDepicted x es) as (Tree.allOf .separated ds) ∧
      Tree.allOf .guard ds = [] ∧ (∀ s : Slot, Tree.tokensAmong s.kinds ds = []) ∧
      Faces .transition fs is (cs ++ ds) (w :: ws) q := by
  cases as with
  | nil =>
    have hlook : w.1 ∈ [Kind.divide] ++ (lookAll is).kinds := List.mem_append_right _ hw
    have habsent : w.1 ∉ [Kind.divide] := fun hmem => hne (List.mem_singleton.mp hmem)
    refine (h.opens hlook (.absent habsent)).then fun q h => ?_
    exact reaches_here ⟨[], .nil, rfl, fun _ => rfl, by rwa [List.append_nil]⟩
  | cons a as =>
    rw [said_assignmentsLayout] at h
    simp only [List.cons_append, List.append_assoc] at h
    refine (h.opens List.mem_cons_self (.present List.mem_cons_self)).then fun q h => ?_
    refine (h.token List.mem_cons_self).then ?_
    rintro q ⟨t, ht, h⟩
    refine (h.token List.mem_cons_self).then ?_
    rintro q ⟨s, hs, h⟩
    have hrow : Row .separated (fun a => said (assignmentLayout a)) (fun x ds => ∃ n es,
        Tree.firstOf? .assignment ds = some (.node n es) ∧ AssignmentDepicted x es) (a :: as)
        (.closeBrace, Kind.closeBrace.spelling) := by
      refine ⟨fun x hx => reads_separated (has x hx), fun x _ => ⟨(.variable, x.1), _, said_assignmentLayout x, ?_⟩,
        by decide, rfl, by decide⟩
      exact List.mem_cons_self
    refine (h.many hrow List.mem_cons_self).then ?_
    rintro q ⟨ds, hds, h⟩
    refine (h.token List.mem_cons_self).then ?_
    rintro q ⟨u, hu, h⟩
    have ht := kind_of_word ht
    have hs := kind_of_word hs
    have hu := kind_of_word hu
    refine reaches_here ⟨.leaf t :: .leaf s :: (ds ++ [.leaf u]), ?_, ?_, fun slot => ?_, by simpa using h⟩
    · simpa [hds.allOf_self] using hds
    · simp [hds.allOf_other]
    · cases slot <;> simp [Slot.kinds, ht, hs, hu, hds.tokensAmong_eq]

end

theorem Arrow.kind_head (a : Arrow) : (Lexer.wordOf a.head).1 ∈ Slot.target.kinds := by
  unfold Arrow.head
  cases a.target with
  | none => exact List.mem_cons_self
  | some x => exact List.mem_cons_of_mem _ List.mem_cons_self

theorem reads_transition {a : Arrow} (ha : a.Writable) : Reads .transition (said a.layout) a.Depicted := by
  intro fs ws p hws h
  rw [a.said_layout] at h
  simp only [List.cons_append, List.append_assoc] at h
  refine (h.token List.mem_cons_self).then ?_
  rintro q ⟨t, ht, h⟩
  refine (h.token a.kind_head).then ?_
  rintro q ⟨s, hs, h⟩
  refine (h.token List.mem_cons_self).then ?_
  rintro q ⟨u, hu, h⟩
  refine (h.token List.mem_cons_self).then ?_
  rintro q ⟨v, hv, h⟩
  -- what is behind the guard: the assignments or the end
  obtain ⟨w, vs, hw, hin, hout⟩ : ∃ w vs, said (assignmentsLayout a.assignments) ++
      ((.semicolon, Kind.semicolon.spelling) :: ([] ++ ws)) = w :: vs ∧ w.1 ∈ [Kind.divide, .semicolon] ∧
      w.1 ≠ .openBracket := by
    cases has : a.assignments with
    | nil => exact ⟨_, _, rfl, by decide, by decide⟩
    | cons b bs =>
      rw [said_assignmentsLayout]
      exact ⟨_, _, rfl, by decide, by decide⟩
  rw [hw] at h
  refine (reads_guards (fun c hc => (ha.guard c hc).expression.canonical) hin hout h).then ?_
  rintro q ⟨gs, hgs, hgs', hgs'', h⟩
  rw [← hw] at h
  refine (reads_assignments (fun x hx => (ha.assignments x hx).2.canonical) List.mem_cons_self (by decide) h).then ?_
  rintro q ⟨as, has, has', has'', h⟩
  refine (h.token List.mem_cons_self).then ?_
  rintro q ⟨e, he, h⟩
  have hkinds : ∀ k ∈ [Kind.arrow, .colon, .semicolon], k ∉ Slot.target.kinds ∧ k ∉ Slot.trigger.kinds := by decide
  have hapart : ∀ k ∈ Slot.target.kinds, k ∉ Slot.trigger.kinds := by decide
  have htext : Kind.text ∉ Slot.target.kinds ∧ Kind.text ∈ Slot.trigger.kinds := by decide
  have hhead : s.kind ∈ Slot.target.kinds := kind_of_word hs ▸ a.kind_head
  refine reaches_here ⟨_, ⟨?_, ?_, ?_, ?_⟩, h⟩
  · simp [hs, hhead, kind_of_word ht, kind_of_word hu, kind_of_word hv, kind_of_word he, hkinds, htext, hgs'', has'']
  · simp [hv, hapart _ hhead, kind_of_word ht, kind_of_word hu, kind_of_word hv, kind_of_word he, hkinds, htext, hgs'',
      has'']
  · simpa [has'] using hgs
  · simpa [hgs'] using has

/-! ## States -/

/-- The words of an initial section. -/
def initialWords (x : String) : List (Kind × String) := [(.initial, Kind.initial.spelling),
  (.arrow, Kind.arrow.spelling), (.name, x), (.semicolon, Kind.semicolon.spelling)]

theorem said_initialLayout (x : String) : said (initialLayout x) = initialWords x := by
  simp [initialLayout, initialWords]

theorem said_headLayout {k : Kind} (hk : k ≠ .blank) (x : String) : said (headLayout k x) =
    [(k, k.spelling), (.name, x), (.openBrace, Kind.openBrace.spelling)] := by simp [headLayout, hk]

theorem said_arrowsLayout (depth : Nat) (as : List Arrow) :
    said (arrowsLayout depth as) = as.flatMap fun a => said a.layout := by
  rw [arrowsLayout, said_flatMap]
  simp

theorem Draft.said_layoutOf (depth : Nat) (ds : List Draft) :
    said (layoutOf depth ds) = ds.flatMap fun d => said (d.layout depth) := by
  induction ds with
  | nil => rfl
  | cons d ds ih => rw [layoutOf, said_append, ih, List.flatMap_cons]

theorem Draft.said_simple (depth : Nat) (x : String) (as : List Arrow) : said ((Draft.simple x as).layout depth) =
    (.state, Kind.state.spelling) :: (.name, x) :: (.openBrace, Kind.openBrace.spelling) ::
      (as.flatMap (fun a => said a.layout) ++ [(.closeBrace, Kind.closeBrace.spelling)]) := by
  simp [layout, said_headLayout, said_arrowsLayout]

theorem Draft.said_composite (depth : Nat) (x i : String) (as : List Arrow) (ds : List Draft) :
    said ((Draft.composite x as i ds).layout depth) =
    (.composite, Kind.composite.spelling) :: (.name, x) :: (.openBrace, Kind.openBrace.spelling) ::
      (as.flatMap (fun a => said a.layout) ++ (initialWords i ++
        (ds.flatMap (fun d => said (d.layout (depth + 1))) ++ [(.closeBrace, Kind.closeBrace.spelling)]))) := by
  simp [layout, said_headLayout, said_arrowsLayout, said_initialLayout, said_layoutOf]

theorem reads_initial (x : String) : Reads .initial (initialWords x) fun cs =>
    (Tree.tokensAmong Slot.target.kinds cs).map Token.word = [(.name, x)] := by
  intro fs ws p _ h
  refine (h.token List.mem_cons_self).then ?_
  rintro q ⟨t, ht, h⟩
  refine (h.token List.mem_cons_self).then ?_
  rintro q ⟨s, hs, h⟩
  refine (h.token List.mem_cons_self).then ?_
  rintro q ⟨u, hu, h⟩
  refine (h.token List.mem_cons_self).then ?_
  rintro q ⟨v, hv, h⟩
  refine reaches_here ⟨_, ?_, h⟩
  simp [Slot.kinds, hu, kind_of_word ht, kind_of_word hs, kind_of_word hu, kind_of_word hv]

theorem row_transitions {as : List Arrow} {w : Kind × String} (has : ∀ a ∈ as, a.Writable) (hlevel : w.1.level? = none)
    (hne : w.1 ≠ .arrow) : Row .transition (fun a : Arrow => said a.layout) Arrow.Depicted as w :=
  ⟨fun a ha => reads_transition (has a ha), fun a _ => ⟨_, _, a.said_layout, List.mem_cons_self⟩, by decide, hlevel,
    fun hmem => hne (List.mem_singleton.mp hmem)⟩

theorem reads_simple {x : String} {as : List Arrow} (has : ∀ a ∈ as, a.Writable) (depth : Nat) :
    Reads .simple (said ((Draft.simple x as).layout depth)) fun cs =>
      Tree.nameOf? cs = some x ∧ Nodes .transition Arrow.Depicted as (Tree.allOf .transition cs) := by
  intro fs ws p _ h
  rw [Draft.said_simple] at h
  simp only [List.cons_append, List.append_assoc] at h
  refine (h.token List.mem_cons_self).then ?_
  rintro q ⟨t, ht, h⟩
  refine (h.token List.mem_cons_self).then ?_
  rintro q ⟨s, hs, h⟩
  refine (h.token List.mem_cons_self).then ?_
  rintro q ⟨u, hu, h⟩
  refine (h.many (row_transitions has rfl (by decide)) List.mem_cons_self).then ?_
  rintro q ⟨ds, hds, h⟩
  refine (h.token List.mem_cons_self).then ?_
  rintro q ⟨v, hv, h⟩
  refine reaches_here ⟨_, ⟨?_, ?_⟩, h⟩
  · simp [Tree.nameOf?_eq, kind_of_word ht, (Parser.word_eq hs rfl).1, (Parser.word_eq hs rfl).2]
  · simpa [hds.allOf_self] using hds

/-- A node of a state with these children depicts it. -/
def Draft.DepictedBelow (d : Draft) (cs : List Tree) : Prop := ∀ m : Node, m.rule = .state → d.Depicted (.node m cs)

theorem depicted_of_nodes {ds : List Draft} {ts : List Tree} (h : Nodes .state Draft.DepictedBelow ds ts) :
    List.Forall₂ Draft.Depicted ds ts := by
  refine h.imp fun d t hdt => ?_
  cases t with
  | node m cs => exact hdt.2 m (beq_iff_eq.mp hdt.1)
  | leaf t => cases hdt.1
  | fault t => cases hdt.1

/-- What a composite state and a machine have in common: an initial section, and states behind it. -/
theorem reads_inside {r : Rule} {fs : List Frame} {is : List Item} {cs : List Tree} {p : Parser} {w : Kind × String}
    {ws : List (Kind × String)} {place next depth : Nat} {i : String} {ds : List Draft} (hne : ds ≠ [])
    (hds : ∀ d ∈ ds, Reads .state (said (d.layout depth)) d.DepictedBelow)
    (hw : w.1 ∈ (lookAll is).kinds) (hlevel : w.1.level? = none) (hout : w.1 ∉ Rule.state.opening)
    (h : Faces r fs (.call .initial :: .some place next [.call .state] :: is) cs
      (initialWords i ++ (ds.flatMap (fun d => said (d.layout depth)) ++ w :: ws)) p) :
    Reaches p fun q => ∃ m es ts, m.rule = .initial ∧
      (Tree.tokensAmong Slot.target.kinds es).map Token.word = [(.name, i)] ∧ Nodes .state Draft.DepictedBelow ds ts ∧
      Faces r fs is (cs ++ .node m es :: ts) (w :: ws) q := by
  have hopening (d : Draft) : ∃ u us, said (d.layout depth) = u :: us ∧ u.1 ∈ Rule.state.opening := by
    cases d with
    | simple x as => exact ⟨_, _, Draft.said_simple .., List.mem_cons_self⟩
    | composite x as i ds => exact ⟨_, _, Draft.said_composite .., List.mem_cons_of_mem _ List.mem_cons_self⟩
  have hrow : Row .state (fun d : Draft => said (d.layout depth)) Draft.DepictedBelow ds w :=
    ⟨hds, fun d _ => hopening d, by decide, hlevel, hout⟩
  refine ((reads_initial i).call h (hrow.ends_next ws)).then ?_
  rintro q ⟨m, es, hm, hes, h⟩
  refine (h.some hrow hne hw).then ?_
  rintro q ⟨ts, hts, h⟩
  refine reaches_here ⟨m, es, ts, hm, hes, hts, ?_⟩
  rwa [List.append_assoc] at h

theorem startDepicted_of {i : String} {m : Node} {es cs : List Tree} (hm : m.rule = .initial)
    (hes : (Tree.tokensAmong Slot.target.kinds es).map Token.word = [(.name, i)])
    (hcs : Tree.allOf .initial cs = [.node m es]) : StartDepicted i cs := by
  rw [StartDepicted, hcs]
  exact .cons ⟨beq_iff_eq.mpr hm, hes⟩ .nil

theorem reads_composite {x i : String} {as : List Arrow} {ds : List Draft} {depth : Nat} (has : ∀ a ∈ as, a.Writable)
    (hne : ds ≠ []) (hds : ∀ d ∈ ds, Reads .state (said (d.layout (depth + 1))) d.DepictedBelow) :
    Reads .composite (said ((Draft.composite x as i ds).layout depth)) fun cs =>
      Tree.nameOf? cs = some x ∧ Nodes .transition Arrow.Depicted as (Tree.allOf .transition cs) ∧
        StartDepicted i cs ∧ List.Forall₂ Draft.Depicted ds (Tree.allOf .state cs) := by
  intro fs ws p _ h
  rw [Draft.said_composite] at h
  simp only [List.cons_append, List.append_assoc] at h
  refine (h.token List.mem_cons_self).then ?_
  rintro q ⟨t, ht, h⟩
  refine (h.token List.mem_cons_self).then ?_
  rintro q ⟨s, hs, h⟩
  refine (h.token List.mem_cons_self).then ?_
  rintro q ⟨u, hu, h⟩
  refine (h.many (row_transitions has rfl (by decide)) List.mem_cons_self).then ?_
  rintro q ⟨ts, hts, h⟩
  refine (h.opens List.mem_cons_self (.present List.mem_cons_self)).then fun q h => ?_
  refine (reads_inside hne hds List.mem_cons_self rfl (by decide) h).then ?_
  rintro q ⟨m, es, ss, hm, hes, hss, h⟩
  refine (h.token List.mem_cons_self).then ?_
  rintro q ⟨v, hv, h⟩
  refine reaches_here ⟨_, ⟨?_, ?_, startDepicted_of hm hes ?_, ?_⟩, h⟩
  · simp [Tree.nameOf?_eq, kind_of_word ht, (Parser.word_eq hs rfl).1, (Parser.word_eq hs rfl).2]
  · simpa [hts.allOf_self, hm, hss.allOf_other] using hts
  · simp [hts.allOf_other, hss.allOf_other, hm]
  · simpa [hts.allOf_other, hss.allOf_self, hm] using depicted_of_nodes hss

theorem Draft.Writable.reads {d : Draft} (hd : d.Writable) (depth : Nat) :
    Reads .state (said (d.layout depth)) d.DepictedBelow := by
  induction d using Draft.induct generalizing depth with
  | simple x as =>
    intro fs ws p hws h
    cases hd with
    | simple hx has =>
      have hopen : Reaches p (Faces .state fs [.call .simple] [] (said ((Draft.simple x as).layout depth) ++ ws)) := by
        rw [Draft.said_simple] at h ⊢
        exact h.opens List.mem_cons_self (.left List.mem_cons_self)
      refine hopen.then fun q h => ?_
      refine ((reads_simple has depth).call h hws).then ?_
      rintro q ⟨n, cs, hn, ⟨hname, hcs⟩, h⟩
      exact reaches_here ⟨_, fun m hm => .simple hm hn hname hcs, h⟩
  | composite x as i ds ih =>
    intro fs ws p hws h
    cases hd with
    | composite hx has hi hne hds =>
      have hopen : Reaches p (Faces .state fs [.call .composite] []
          (said ((Draft.composite x as i ds).layout depth) ++ ws)) := by
        rw [Draft.said_composite] at h ⊢
        exact h.opens (List.mem_cons_of_mem _ List.mem_cons_self) (.right (by decide) List.mem_cons_self)
      refine hopen.then fun q h => ?_
      refine ((reads_composite has hne fun d hd => ih d hd (hds d hd) (depth + 1)).call h hws).then ?_
      rintro q ⟨n, cs, hn, ⟨hname, hcs, hstart, hinside⟩, h⟩
      exact reaches_here ⟨_, fun m hm => .composite hm hn hname hcs hstart hinside, h⟩

/-! ## Machines -/

theorem Chart.said_layout (c : Chart) : said c.layout = (.machine, Kind.machine.spelling) :: (.name, c.name) ::
    (.openBrace, Kind.openBrace.spelling) :: (initialWords c.initial ++
      (c.states.flatMap (fun d => said (d.layout 1)) ++ [(.closeBrace, Kind.closeBrace.spelling)])) := by
  simp [layout, said_headLayout, said_initialLayout, Draft.said_layoutOf]

/-- The text of a chart is read into a tree that depicts it. -/
theorem Chart.Writable.depicted {c : Chart} (hc : c.Writable) :
    (Parser.outcome .machine (lex c.text)).complaints = [] ∧
      ∃ n cs, (Parser.outcome .machine (lex c.text)).close = .node n cs ∧ n.rule = .machine ∧ c.Depicted cs := by
  have hstart : Faces .machine [] Rule.machine.body [] (said c.layout) (Parser.start .machine (lex c.text)) :=
    ⟨(lex c.text).tokens, (Chart.lex_text hc).2, ⟨rfl, rfl, rfl, rfl, rfl, rfl, rfl⟩⟩
  have hread : Reaches (Parser.start .machine (lex c.text)) fun q =>
      ∃ cs, c.Depicted cs ∧ Faces .machine [] [] cs [] q := by
    rw [c.said_layout] at hstart
    refine (hstart.token List.mem_cons_self).then ?_
    rintro q ⟨t, ht, h⟩
    refine (h.token List.mem_cons_self).then ?_
    rintro q ⟨s, hs, h⟩
    refine (h.token List.mem_cons_self).then ?_
    rintro q ⟨u, hu, h⟩
    refine (reads_inside hc.nonempty (fun d hd => (hc.states d hd).reads 1) List.mem_cons_self rfl
      (by decide) h).then ?_
    rintro q ⟨m, es, ss, hm, hes, hss, h⟩
    refine (h.token List.mem_cons_self).then ?_
    rintro q ⟨v, hv, h⟩
    refine h.ending.then ?_
    rintro q ⟨e, he, h⟩
    refine reaches_here ⟨_, ⟨?_, startDepicted_of hm hes ?_, ?_⟩, h⟩
    · simp [Tree.nameOf?_eq, kind_of_word ht, (Parser.word_eq hs rfl).1, (Parser.word_eq hs rfl).2]
    · simp [hss.allOf_other, hm]
    · simpa [hss.allOf_self, hm] using depicted_of_nodes hss
  refine Parser.outcome_of_reaches (A := fun q => q.complaints = [] ∧ ∃ n cs, q.close = .node n cs ∧ n.rule = .machine ∧
    c.Depicted cs) rfl (hread.then ?_)
  rintro q ⟨cs, hcs, _, -, hq⟩
  refine reaches_here ⟨by simp [Parser.finished, hq.callers, hq.todo], hq.complaints,
    ⟨q.frame.rule, q.frame.start, q.behind, q.frame.target, q.frame.trigger⟩, cs, ?_, hq.rule, hcs⟩
  rw [Parser.close, hq.children]

end Statechart
