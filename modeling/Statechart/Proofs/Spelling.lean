/-
  Statechart.Proofs.Spelling — expressions are read as they are spelled.

  The number type is that of texts here, so that a number is what is written. An
  expression is `canonical` if it could have been read: parentheses have no sign, and no
  operand binds less tightly than its place allows. `Expr.spelling` are the words of an
  expression, and every sentence of the grammar is the spelling of a canonical one:
  operands are taken in from the left, each at the place in the right flank where its
  operator belongs (`Expr.extend`).

  The other direction follows the parser. `At` says where it stands, and `Reaches` that
  it comes to stand somewhere. At each level the words of a canonical expression lead it
  to the operators behind the expression (`At.reads_spelling`, by induction on the
  expression): the left operand is read at the same level and then put below a node, the
  right operand one level above that of the operator.

  Proved (`expressions_read_as_spelled`): words that spell a canonical expression are read
  into it, up to the token behind them; and what is read up to such a token is a canonical
  expression that these tokens spell.
-/

import Statechart.Expr.OfTree
import Statechart.Proofs.Acceptance

namespace Statechart

/-! ## Canonical expressions -/

def Operator.kind : Operator → Kind
  | .power => .power
  | .times => .times
  | .divide => .divide
  | .plus => .plus
  | .minus => .minus

def Operator.level : Operator → Nat
  | .power => 5
  | .times | .divide => 4
  | .plus | .minus => 3

theorem Operator.level_kind (op : Operator) : op.kind.level? = some op.level := by cases op <;> rfl

theorem Operator.literal_kind (op : Operator) : op.kind.literal? = some op.text := by cases op <;> rfl

theorem exists_operator {k : Kind} (hk : k ∈ operators) : ∃ op : Operator, k = op.kind := by
  simp only [operators, List.mem_cons, List.not_mem_nil, or_false] at hk
  rcases hk with rfl | rfl | rfl | rfl | rfl
  · exact ⟨.plus, rfl⟩
  · exact ⟨.minus, rfl⟩
  · exact ⟨.times, rfl⟩
  · exact ⟨.divide, rfl⟩
  · exact ⟨.power, rfl⟩

/-- A word: the kind of a token and its text, which many kinds fix. -/
def Token.word (t : Token) : Kind × String := (t.kind, t.kind.literal?.getD t.text)

def Sign.word : Sign → Kind × String
  | .plus => (.plus, "+")
  | .minus => (.minus, "-")

namespace Expr

variable {ν : Type}

/-- How tightly an expression binds; what is no operation binds more tightly than any. -/
def rank : Expr ν → Nat
  | .binary op _ _ => op.level
  | _ => 6

/-- Parentheses have no sign. The left operand of an operation binds at least as tightly as its operator, the right
    one more tightly. -/
def canonical : Expr ν → Bool
  | .binary op l r => l.canonical && r.canonical && op.level ≤ l.rank && op.level < r.rank
  | .paren s e => s == none && e.canonical
  | .number _ _ => true
  | .variable _ _ => true

def spelling : Expr String → List (Kind × String)
  | .binary op l r => l.spelling ++ (op.kind, op.text) :: r.spelling
  | .paren s e => (s.map Sign.word).toList ++ (.openParen, "(") :: (e.spelling ++ [(.closeParen, ")")])
  | .number s x => (s.map Sign.word).toList ++ [(.number, x)]
  | .variable s x => (s.map Sign.word).toList ++ [(.variable, x)]

/-- Put an operator and its right operand behind an expression. -/
def extend (op : Operator) (x : Expr ν) : Expr ν → Expr ν
  | .binary o l r => if o.level < op.level then .binary o l (extend op x r) else .binary op (.binary o l r) x
  | e => .binary op e x

theorem rank_extend (op : Operator) (x e : Expr ν) :
    (extend op x e).rank = op.level ∨ (extend op x e).rank = e.rank := by
  cases e with
  | binary o l r =>
    rw [extend]
    split
    · exact Or.inr rfl
    · exact Or.inl rfl
  | _ => exact Or.inl rfl

theorem level_lt_six (op : Operator) : op.level < 6 := by cases op <;> decide

theorem canonical_binary {op : Operator} {l r : Expr ν} : (binary op l r).canonical = true ↔
    l.canonical = true ∧ r.canonical = true ∧ op.level ≤ l.rank ∧ op.level < r.rank := by
  simp [canonical, and_assoc]

theorem canonical_extend {op : Operator} {x e : Expr ν} (he : e.canonical = true) (hx : x.canonical = true)
    (hrank : x.rank = 6) : (extend op x e).canonical = true := by
  have hsix : op.level < x.rank := hrank ▸ level_lt_six op
  induction e with
  | binary o l r _ ih =>
    obtain ⟨hl, hr, hleft, hright⟩ := canonical_binary.mp he
    rw [extend]
    split
    · refine canonical_binary.mpr ⟨hl, ih hr, hleft, ?_⟩
      rcases rank_extend op x r with h | h <;> omega
    · exact canonical_binary.mpr ⟨he, hx, Nat.not_lt.mp ‹_›, hsix⟩
  | _ => exact canonical_binary.mpr ⟨he, hx, Nat.le_of_lt (level_lt_six op), hsix⟩

theorem spelling_extend (op : Operator) (x e : Expr String) :
    (extend op x e).spelling = e.spelling ++ (op.kind, op.text) :: x.spelling := by
  induction e with
  | binary o l r _ ih =>
    rw [extend]
    split
    · rw [spelling, ih, spelling, List.append_assoc, List.cons_append]
    · rw [spelling]
  | _ => rw [extend, spelling]; nofun

end Expr

/-! ## Sentences are spelled -/

/-- The tokens spell a canonical expression. -/
structure Spells (w : List Token) (e : Expr String) : Prop where
  canonical : e.canonical = true
  words : w.map Token.word = e.spelling

namespace Phrase

variable {u v w : List Token} {t : Token}

theorem word_of_operator (h : t.kind ∈ operatorsFrom 0) : ∃ op : Operator, t.word = (op.kind, op.text) := by
  obtain ⟨op, hop⟩ := exists_operator (List.mem_filter.mp h).1
  exact ⟨op, by rw [Token.word, hop, op.literal_kind, Option.getD_some]⟩

theorem Derives.atom (h : Derives (.rule .atom) w) : ∃ t, w = [t] ∧ (t.kind = .number ∨ t.kind = .variable) := by
  have hone {k : Kind} {w : List Token} (h : Derives (.seq [.token [k]]) w) : ∃ t, w = [t] ∧ t.kind = k := by
    cases derives_one.mp h with
    | token ht => exact ⟨_, rfl, List.mem_singleton.mp ht⟩
  cases h with
  | rule h =>
    cases derives_one.mp h with
    | left h =>
      cases derives_one.mp h with
      | rule h =>
        obtain ⟨t, rfl, ht⟩ := hone h
        exact ⟨t, rfl, Or.inl ht⟩
    | right h =>
      cases derives_one.mp h with
      | rule h =>
        obtain ⟨t, rfl, ht⟩ := hone h
        exact ⟨t, rfl, Or.inr ht⟩

theorem Derives.sign (h : Derives (.option [.token [.plus, .minus]]) w) :
    ∃ s : Option Sign, w.map Token.word = (s.map Sign.word).toList := by
  cases h with
  | absent => exact ⟨.none, rfl⟩
  | present h =>
    cases derives_one.mp h with
    | @token _ t ht =>
      simp only [List.mem_cons, List.not_mem_nil, or_false] at ht
      rcases ht with ht | ht
      · exact ⟨.some .plus, by simp [Token.word, ht]; rfl⟩
      · exact ⟨.some .minus, by simp [Token.word, ht]; rfl⟩

/-- An operand is spelled, if what is in its parentheses is. -/
theorem Derives.spelled_operand (h : Derives .operand w)
    (hin : ∀ v, v.length < w.length → Derives (.rule .expression) v → ∃ e, Spells v e) :
    ∃ e, Spells w e ∧ e.rank = 6 := by
  cases h with
  | left h =>
    cases h with
    | cons hopen h =>
      cases h with
      | @cons _ _ u _ hu h =>
        cases hopen with
        | token hopen =>
          cases derives_one.mp h with
          | token hclose =>
            obtain ⟨e, he⟩ := hin u (by simp only [List.length_append, List.length_cons, List.length_nil]; omega) hu
            refine ⟨.paren .none e, ⟨he.canonical, ?_⟩, rfl⟩
            have hopen := List.mem_singleton.mp hopen
            have hclose := List.mem_singleton.mp hclose
            simp [Token.word, Expr.spelling, ← he.words, hopen, hclose, Kind.literal?]
  | right h =>
    cases h with
    | cons hsign hatom =>
      obtain ⟨s, hs⟩ := hsign.sign
      obtain ⟨t, rfl, ht⟩ := (derives_one.mp hatom).atom
      rcases ht with ht | ht
      · exact ⟨.number s t.text, ⟨rfl, by simp [Expr.spelling, hs, Token.word, ht, Kind.literal?]⟩, rfl⟩
      · exact ⟨.variable s t.text, ⟨rfl, by simp [Expr.spelling, hs, Token.word, ht, Kind.literal?]⟩, rfl⟩

/-- Operators with their operands are taken in one after the other. -/
theorem Derives.spelled_operations {e : Expr String} (h : Derives (.operations 0) v) (he : Spells u e)
    (hin : ∀ w, w.length ≤ v.length → Derives .operand w → ∃ x, Spells w x ∧ x.rank = 6) :
    ∃ e, Spells (u ++ v) e := by
  generalize hp : Phrase.operations 0 = p at h
  induction h generalizing u e with
  | enough => exact ⟨e, by rwa [List.append_nil]⟩
  | @again b a v hb _ _ ih =>
    cases hp
    cases hb with
    | @cons _ _ _ w htoken hoperand =>
      cases htoken with
      | @token _ t ht =>
        obtain ⟨op, hop⟩ := word_of_operator ht
        obtain ⟨x, hx, hrank⟩ := hin w (by simp; omega) (derives_one.mp hoperand)
        have hextend : Spells (u ++ t :: w) (.extend op x e) :=
          ⟨Expr.canonical_extend he.canonical hx.canonical hrank,
            by rw [Expr.spelling_extend, List.map_append, List.map_cons, he.words, hop, hx.words]⟩
        obtain ⟨e', he'⟩ := ih hextend (fun w hw => hin w (by simp; omega)) rfl
        exact ⟨e', by simpa using he'⟩
  | _ => cases hp

theorem Derives.spelled (h : Derives (.rule .expression) w) : ∃ e, Spells w e := by
  generalize hn : w.length = n
  induction n using Nat.strongRecOn generalizing w with
  | ind n ih =>
    have hoperand {v : List Token} (hv : v.length ≤ n) (h : Derives .operand v) : ∃ e, Spells v e ∧ e.rank = 6 :=
      h.spelled_operand fun u hu hd => ih u.length (by omega) hd rfl
    cases h with
    | rule h =>
      cases h.flat with
      | @cons _ _ u v hfirst hmore =>
        rw [List.length_append] at hn
        obtain ⟨e, he, -⟩ := hoperand (by omega) hfirst
        exact (derives_one.mp hmore).spelled_operations he fun w hw => hoperand (by omega)

end Phrase

/-! ## What the children of a node stand for -/

/-- Numbers are read by their text. -/
def literal (s : String) : Except Defect String := .ok s

/-- A node of an expression with these children stands for `e`. -/
def Stands (e : Expr String) (cs : List Tree) : Prop := Expr.assemble literal cs (Expr.ofTrees literal cs) = .ok e

variable {m n : Node} {t s : Token} {cs ds : List Tree}

theorem isSome_find_one (t : Token) (k : Kind) : ([t].find? fun t => t.kind == k).isSome = (t.kind == k) := by
  rw [List.find?_singleton]
  cases t.kind == k <;> rfl

theorem operatorOf_leaf {op : Operator} (ht : t.kind = op.kind) :
    Expr.operatorOf? [.node n cs, .leaf t, .node m ds] = some op := by
  have hseen (k : Kind) : (Tree.tokenOf? k [.node n cs, .leaf t, .node m ds]).isSome = (op.kind == k) :=
    ht ▸ isSome_find_one t k
  simp only [Expr.operatorOf?, hseen]
  cases op <;> rfl

theorem Stands.ofTree {e : Expr String} (h : Stands e cs) (n : Node) : Expr.ofTree literal (.node n cs) = .ok e := by
  rw [Expr.ofTree]
  exact h

section

variable {ν : Type} {number : String → Except Defect ν} {x y : Expr ν}

theorem assemble_binary {op : Operator} (hn : n.rule = .expression) (hm : m.rule = .expression) (ht : t.kind = op.kind)
    (hx : Expr.ofTree number (.node n cs) = .ok x) (hy : Expr.ofTree number (.node m ds) = .ok y) :
    Expr.assemble number [.node n cs, .leaf t, .node m ds] (Expr.ofTrees number [.node n cs, .leaf t, .node m ds]) =
      .ok (.binary op x y) := by
  have hinner : Expr.ofTrees number [.node n cs, .leaf t, .node m ds] = [.ok x, .ok y] := by
    simp only [Expr.ofTrees, Tree.hasRule, hn, hm, hx, hy, beq_self_eq_true, if_true]
    rfl
  have hatom : Tree.firstOf? .atom [.node n cs, .leaf t, .node m ds] = none := by
    simp [Tree.firstOf?, Tree.hasRule, hn, hm]
  unfold Expr.assemble
  rw [hinner, hatom, operatorOf_leaf ht]
  rfl

theorem assemble_paren (hn : n.rule = .expression) (hx : Expr.ofTree number (.node n cs) = .ok x) :
    Expr.assemble number [.leaf t, .node n cs, .leaf s] (Expr.ofTrees number [.leaf t, .node n cs, .leaf s]) =
      .ok (.paren none x) := by
  have hinner : Expr.ofTrees number [.leaf t, .node n cs, .leaf s] = [.ok x] := by
    simp only [Expr.ofTrees, Tree.hasRule, hn, hx, beq_self_eq_true, if_true]
    rfl
  have hatom : Tree.firstOf? .atom [.leaf t, .node n cs, .leaf s] = none := by
    simp [Tree.firstOf?, Tree.hasRule, hn]
  unfold Expr.assemble
  rw [hinner, hatom]
  rfl

end

theorem stands_binary {op : Operator} {l r : Expr String} (hn : n.rule = .expression) (hm : m.rule = .expression)
    (ht : t.kind = op.kind) (hl : Stands l cs) (hr : Stands r ds) :
    Stands (.binary op l r) [.node n cs, .leaf t, .node m ds] :=
  assemble_binary hn hm ht (hl.ofTree n) (hr.ofTree m)

theorem stands_paren {e : Expr String} (hn : n.rule = .expression) (he : Stands e cs) :
    Stands (.paren none e) [.leaf t, .node n cs, .leaf s] := assemble_paren hn (he.ofTree n)

section

variable {ss : List Token} {sign : Option Sign}

theorem sign_cases (h : ss.map Token.word = (sign.map Sign.word).toList) :
    ss = [] ∧ sign = none ∨ ∃ t g, ss = [t] ∧ sign = some g ∧ t.kind = g.word.1 := by
  cases sign with
  | none => exact Or.inl ⟨List.map_eq_nil_iff.mp h, rfl⟩
  | some g =>
    obtain ⟨t, rfl, ht⟩ := List.map_eq_singleton_iff.mp h
    exact Or.inr ⟨t, g, rfl, rfl, congrArg Prod.fst ht⟩

theorem signOf_leaves (h : ss.map Token.word = (sign.map Sign.word).toList) :
    Expr.signOf (ss.map .leaf ++ [.node n ds]) = sign := by
  rcases sign_cases h with ⟨rfl, rfl⟩ | ⟨t, g, rfl, rfl, ht⟩
  · rfl
  · have hseen (k : Kind) : (Tree.tokenOf? k ([t].map .leaf ++ [.node n ds])).isSome = (g.word.1 == k) :=
      ht ▸ isSome_find_one t k
    simp only [Expr.signOf, hseen]
    cases g <;> rfl

theorem assemble_atom {ν : Type} {number : String → Except Defect ν}
    (h : ss.map Token.word = (sign.map Sign.word).toList) (hn : n.rule = .atom)
    (inner : List (Except Defect (Expr ν))) :
    Expr.assemble number (ss.map .leaf ++ [.node n ds]) inner = Expr.ofAtom number sign (.node n ds) := by
  have hatom : Tree.firstOf? .atom (ss.map .leaf ++ [.node n ds]) = some (.node n ds) := by
    rcases sign_cases h with ⟨rfl, -⟩ | ⟨s, g, rfl, -, -⟩ <;> simp [Tree.firstOf?, Tree.hasRule, hn]
  unfold Expr.assemble
  rw [hatom]
  exact congrArg (Expr.ofAtom number · _) (signOf_leaves h)

theorem text_atom : (Tree.node n [.node m [.leaf t]]).text = t.text := by
  simp [Tree.text, Tree.tokens, Tree.tokensOf, String.join]

theorem stands_number (h : ss.map Token.word = (sign.map Sign.word).toList) (hn : n.rule = .atom)
    (hm : m.rule = .number) :
    Stands (.number sign t.text) (ss.map .leaf ++ [.node n [.node m [.leaf t]]]) := by
  rw [Stands, assemble_atom h hn, Expr.ofAtom, text_atom]
  simp [Tree.firstOf?, Tree.children, Tree.hasRule, hm]
  rfl

theorem stands_variable (h : ss.map Token.word = (sign.map Sign.word).toList) (hn : n.rule = .atom)
    (hm : m.rule = .variable) : Stands (.variable sign t.text) (ss.map .leaf ++ [.node n [.node m [.leaf t]]]) := by
  rw [Stands, assemble_atom h hn, Expr.ofAtom, text_atom]
  simp [Tree.firstOf?, Tree.children, Tree.hasRule, hm]

end

namespace Parser

/-! ## Where the parser stands -/

variable {p q : Parser} {A B : Parser → Prop}

/-- After some steps the parser is as described. -/
def Reaches (p : Parser) (A : Parser → Prop) : Prop := ∃ n, A (run n p)

theorem Reaches.then (h : Reaches p A) (hab : ∀ q, A q → Reaches q B) : Reaches p B := by
  obtain ⟨n, hn⟩ := h
  obtain ⟨m, hm⟩ := hab _ hn
  exact ⟨n + m, by rwa [run_add]⟩

theorem reaches_here (h : A p) : Reaches p A := ⟨0, h⟩

theorem reaches_step {i : Item} {rest : List Item} (ht : p.frame.todo = i :: rest) (h : A p.step) : Reaches p A :=
  ⟨1, by rw [run, if_neg (by simp [finished, ht])]; exact h⟩

/-- The parser stands in a rule, called by these, with these items left, these children read and these tokens
    ahead, and has not complained. -/
structure At (r : Rule) (callers : List Frame) (todo : List Item) (children : List Tree) (ahead : List Token)
    (p : Parser) : Prop where
  rule : p.frame.rule = r
  callers : p.callers = callers
  todo : p.frame.todo = todo
  children : p.frame.children = children
  ahead : p.ahead = ahead
  complaints : p.complaints = []
  ending : p.ending.kind = .endOfText

section

variable {r : Rule} {fs : List Frame} {is items : List Item} {i : Item} {cs : List Tree} {t : Token} {ts : List Token}

theorem At.view (h : At r fs is cs (t :: ts) p) : p.view = t := by rw [Parser.view, h.ahead, List.headD_cons]

theorem At.token {place : Nat} {ks : List Kind} {slot : Slot} (h : At r fs (.token place ks slot :: is) cs (t :: ts) p)
    (hk : t.kind ∈ ks) : Reaches p (At r fs is (cs ++ [.leaf t]) ts) := by
  have hstep : p.step = p.take slot is := by
    unfold step
    rw [h.todo]
    exact if_pos (sees_iff.mpr (h.view ▸ hk))
  refine reaches_step h.todo ?_
  obtain ⟨hrule, htodo, hchildren, hcallers, -⟩ := p.frame_take slot is
  obtain ⟨-, -, hahead, hending⟩ := p.take_keeps slot is
  rw [hstep]
  exact ⟨hrule.trans h.rule, hcallers.trans h.callers, htodo, by rw [hchildren, h.children, h.view],
    by rw [hahead, h.ahead, List.tail_cons], by rw [complaints_take, h.complaints], by rw [hending, h.ending]⟩

/-- Where the token in view fits, an item is opened as it says. -/
theorem step_opens (ht : p.frame.todo = i :: is) (hfit : p.view.kind ∈ (lookAll (i :: is)).kinds)
    (ho : Opens p.view.kind is i items) : p.step = p.goOn items := by
  have hsync (afterRound : Bool) : p.sync afterRound = some p := by simp [sync, ht, hfit]
  unfold step
  rw [ht]
  cases ho with
  | present hk => simp [hsync, sees_iff.mpr hk]
  | absent hk => simp [hsync, mt sees_iff.mp hk]
  | many hk => simp [hsync, round, sees_iff.mpr hk]
  | none hk => simp [hsync, round, mt sees_iff.mp hk]
  | some => simp [hsync]
  | again hk => simp [hsync, round, sees_iff.mpr hk]
  | enough hk => simp [hsync, round, mt sees_iff.mp hk]
  | left hk => simp [hsync, sees_iff.mpr hk]
  | right hl hr => simp [hsync, mt sees_iff.mp hl, sees_iff.mpr hr]
  | operand hk =>
    dsimp only
    split
    · rfl
    · exact if_neg (Nat.not_le.mpr (hk _ ‹_›))

theorem At.goOn (h : At r fs is cs ts p) (items : List Item) : At r fs items cs ts (p.goOn items) :=
  ⟨h.rule, h.callers, rfl, h.children, h.ahead, h.complaints, h.ending⟩

theorem At.opens (h : At r fs (i :: is) cs (t :: ts) p) (hfit : t.kind ∈ (lookAll (i :: is)).kinds)
    (ho : Opens t.kind is i items) : Reaches p (At r fs items cs (t :: ts)) := by
  rw [← h.view] at hfit ho
  exact reaches_step h.todo (step_opens h.todo hfit ho ▸ h.goOn items)

/-- A rule is entered, read and left. -/
theorem At.visit {r' : Rule} {body : List Item} (h : At r fs (i :: is) cs ts p) (E : List Tree → List Token → Prop)
    (hc : Calls i r' body) (hbody : ∀ f q, At r' (f :: fs) body [] ts q →
      Reaches q fun q => ∃ ds rest, E ds rest ∧ At r' (f :: fs) [] ds rest q) :
    Reaches p fun q => ∃ n ds rest, n.rule = r' ∧ E ds rest ∧ At r fs is (cs ++ [.node n ds]) rest q := by
  have henter : p.step = p.enter r' body is := by
    unfold step
    rw [h.todo]
    cases hc <;> rfl
  have hin : Reaches p (At r' ((p.goOn is).frame :: fs) body [] ts) :=
    reaches_step h.todo (henter ▸ ⟨rfl, by rw [← h.callers]; rfl, rfl, rfl, h.ahead, h.complaints, h.ending⟩)
  refine (hin.then fun q hq => hbody _ q hq).then ?_
  rintro q ⟨ds, rest, hds, hq⟩
  have hleave : q.step = add { q with frame := (p.goOn is).frame, callers := fs } q.close := by
    unfold step
    rw [hq.todo, hq.callers]
  refine ⟨1, ⟨r', q.frame.start, q.behind, q.frame.target, q.frame.trigger⟩, ds, rest, rfl, hds, ?_⟩
  rw [run, if_neg (by simp [finished, hq.callers]), run, hleave]
  refine ⟨h.rule, rfl, rfl, ?_, hq.ahead, hq.complaints, hq.ending⟩
  show p.frame.children ++ [q.close] = _
  rw [h.children, Parser.close, hq.rule, hq.children]

/-- A rule is read up to these tokens. -/
theorem At.call {r' : Rule} {body : List Item} (h : At r fs (i :: is) cs ts p) (D : List Tree → Prop)
    (rest : List Token) (hc : Calls i r' body)
    (hbody : ∀ f q, At r' (f :: fs) body [] ts q → Reaches q fun q => ∃ ds, D ds ∧ At r' (f :: fs) [] ds rest q) :
    Reaches p fun q => ∃ n ds, n.rule = r' ∧ D ds ∧ At r fs is (cs ++ [.node n ds]) rest q := by
  have hvisit := h.visit (fun ds us => D ds ∧ us = rest) hc fun f q hq => (hbody f q hq).then fun q hq => by
    obtain ⟨ds, hds, hq⟩ := hq
    exact reaches_here ⟨ds, rest, ⟨hds, rfl⟩, hq⟩
  refine hvisit.then ?_
  rintro q ⟨n, ds, _, hn, ⟨hds, rfl⟩, hq⟩
  exact reaches_here ⟨n, ds, hn, hds, hq⟩

/-- The next token is no operator of this level on. -/
def Below (level : Nat) (ts : List Token) : Prop := ∀ t ∈ ts.head?, ∀ bound, t.kind.level? = some bound → bound < level

theorem Below.mono {level level' : Nat} (h : Below level ts) (hl : level ≤ level') : Below level' ts :=
  fun t ht bound hb => Nat.lt_of_lt_of_le (h t ht bound hb) hl

theorem At.operand {level : Nat} (h : At r fs (.operators level :: is) cs ts p) (hts : Below level ts) :
    Reaches p (At r fs is cs ts) := by
  have hview (bound : Nat) (hb : p.view.kind.level? = some bound) : bound < level := by
    cases ts with
    | nil =>
      rw [Parser.view, h.ahead, List.headD_nil, h.ending] at hb
      cases hb
    | cons t ts => exact hts t rfl bound (h.view ▸ hb)
  have hstep : p.step = p.goOn is := by
    unfold step
    rw [h.todo]
    dsimp only
    split
    · rfl
    · exact if_neg (Nat.not_le.mpr (hview _ ‹_›))
  exact reaches_step h.todo (hstep ▸ h.goOn is)

theorem At.wrap {level bound : Nat} (h : At r fs (.operators level :: is) cs (t :: ts) p)
    (ht : t.kind.level? = some bound) (hl : level ≤ bound) : Reaches p fun q => ∃ n : Node, n.rule = r ∧
      At r fs (operatorBody level bound ++ is) [.node n cs] (t :: ts) q := by
  have hstep : p.step = p.wrap (operatorBody level bound ++ is) := by
    unfold step
    rw [h.todo]
    dsimp only
    rw [h.view, ht]
    exact if_pos hl
  refine reaches_step h.todo ⟨⟨r, p.frame.start, p.behind, p.frame.target, p.frame.trigger⟩, rfl, hstep ▸ ?_⟩
  refine ⟨h.rule, h.callers, rfl, ?_, h.ahead, h.complaints, h.ending⟩
  show [p.close] = _
  rw [close, h.rule, h.children]

end

/-! ## Words lead to the expression they spell -/

section

variable {fs : List Frame} {level : Nat} {ts rest : List Token} {t : Token} {is : List Item} {cs : List Tree} {r : Rule}

/-- A rule of one token. -/
theorem At.single {r' : Rule} {place : Nat} {ks : List Kind} {slot : Slot}
    (h : At r fs (.call r' :: is) cs (t :: rest) p) (hb : r'.body = [.token place ks slot]) (hk : t.kind ∈ ks) :
    Reaches p fun q => ∃ m : Node, m.rule = r' ∧ At r fs is (cs ++ [.node m [.leaf t]]) rest q := by
  have hbody (f : Frame) (q : Parser) (hq : At r' (f :: fs) r'.body [] (t :: rest) q) :
      Reaches q fun q => ∃ ds, ds = [.leaf t] ∧ At r' (f :: fs) [] ds rest q := by
    rw [hb] at hq
    exact (hq.token hk).then fun q hq => reaches_here ⟨_, rfl, hq⟩
  refine (h.call _ _ (.rule r') hbody).then ?_
  rintro q ⟨m, ds, hm, rfl, hq⟩
  exact reaches_here ⟨m, hm, hq⟩

/-- An atom is a number or a variable, whichever its token is. -/
theorem At.atom {r' : Rule} (h : At r fs (.call .atom :: is) cs (t :: rest) p)
    (ht : t.kind = .number ∧ r' = .number ∨ t.kind = .variable ∧ r' = .variable) : Reaches p fun q => ∃ n m : Node,
    n.rule = .atom ∧ m.rule = r' ∧ At r fs is (cs ++ [.node n [.node m [.leaf t]]]) rest q := by
  have hbody (f : Frame) (q : Parser) (hq : At .atom (f :: fs) Rule.atom.body [] (t :: rest) q) :
      Reaches q fun q => ∃ ds, (∃ m : Node, m.rule = r' ∧ ds = [.node m [.leaf t]]) ∧
        At .atom (f :: fs) [] ds rest q := by
    rcases ht with ⟨ht, rfl⟩ | ⟨ht, rfl⟩
    · refine (hq.opens (ht ▸ by decide) (.left (ht ▸ by decide))).then fun q hq => ?_
      refine (hq.single rfl (List.mem_singleton.mpr ht)).then fun q ⟨m, hm, hq⟩ => ?_
      exact reaches_here ⟨_, ⟨m, hm, rfl⟩, hq⟩
    · refine (hq.opens (ht ▸ by decide) (.right (ht ▸ by decide) (ht ▸ by decide))).then fun q hq => ?_
      refine (hq.single rfl (List.mem_singleton.mpr ht)).then fun q ⟨m, hm, hq⟩ => ?_
      exact reaches_here ⟨_, ⟨m, hm, rfl⟩, hq⟩
  refine (h.call _ _ (.rule .atom) hbody).then ?_
  rintro q ⟨n, ds, hn, ⟨m, hm, rfl⟩, hq⟩
  exact reaches_here ⟨n, m, hn, hm, hq⟩

/-- A sign or an atom in view is no parenthesis. -/
theorem At.unparenthesized (h : At .expression fs (expressionBody level) [] (t :: ts) p)
    (ht : t.kind ∈ [.plus, .minus, .number, .variable]) :
    Reaches p (At .expression fs [.option 113 [.token 114 [.plus, .minus] .none], .call .atom, .operators level] []
      (t :: ts)) := by
  have hfit : ∀ k ∈ [Kind.plus, .minus, .number, .variable],
      k ∈ Rule.expression.opening ∧ k ∉ [Kind.openParen] ∧ k ∈ [Kind.plus, .minus] ++ Rule.atom.opening := by decide
  obtain ⟨hopening, hleft, hright⟩ := hfit t.kind ht
  exact h.opens hopening (.right hleft hright)

/-- A signed atom is read, whatever comes behind it. -/
theorem At.signed {ss : List Token} {sign : Option Sign} {r' : Rule}
    (h : At .expression fs (expressionBody level) [] (ss ++ t :: rest) p)
    (hs : ss.map Token.word = (sign.map Sign.word).toList)
    (ht : t.kind = .number ∧ r' = .number ∨ t.kind = .variable ∧ r' = .variable) : Reaches p fun q => ∃ n m : Node,
    n.rule = .atom ∧ m.rule = r' ∧
      At .expression fs [.operators level] (ss.map .leaf ++ [.node n [.node m [.leaf t]]]) rest q := by
  have hatom : t.kind ∈ Rule.atom.opening := by
    rcases ht with ⟨ht, -⟩ | ⟨ht, -⟩ <;> rw [ht] <;> decide
  rcases sign_cases hs with ⟨rfl, -⟩ | ⟨s, g, rfl, -, hg⟩
  · have hfit : ∀ k ∈ Rule.atom.opening,
        k ∈ [Kind.plus, .minus, .number, .variable] ∧ k ∉ [Kind.plus, .minus] := by decide
    obtain ⟨hin, hout⟩ := hfit t.kind hatom
    refine (h.unparenthesized hin).then fun q hq => ?_
    refine (hq.opens hin (.absent hout)).then fun q hq => ?_
    exact hq.atom ht
  · have hsign : s.kind ∈ [Kind.plus, .minus] := by rw [hg]; cases g <;> decide
    have hin : s.kind ∈ [Kind.plus, .minus] ++ Rule.atom.opening := List.mem_append_left _ hsign
    refine (h.unparenthesized hin).then fun q hq => ?_
    refine (hq.opens hin (.present hsign)).then fun q hq => ?_
    refine (hq.token hsign).then fun q hq => ?_
    exact hq.atom ht

theorem below_of_kind {k : Kind} (hk : k.level? = none) (ht : t.kind = k) (level : Nat) : Below level (t :: rest) := by
  intro s hs bound hb
  cases hs
  rw [ht, hk] at hb
  cases hb

theorem word_eq {k : Kind} {x : String} (h : t.word = (k, x)) (hk : k.literal? = none) : t.kind = k ∧ t.text = x := by
  have hkind : t.kind = k := congrArg Prod.fst h
  refine ⟨hkind, ?_⟩
  have htext := congrArg Prod.snd h
  rwa [Token.word, hkind, hk, Option.getD_none] at htext

/-- The words of a canonical expression lead to the operators behind it. -/
theorem At.reads_spelling {e : Expr String} (he : e.canonical = true) (hts : ts.map Token.word = e.spelling)
    (hrank : level ≤ e.rank) (hrest : Below (e.rank + 1) rest)
    (h : At .expression fs (expressionBody level) [] (ts ++ rest) p) :
    Reaches p fun q => ∃ cs, Stands e cs ∧ At .expression fs [.operators level] cs rest q := by
  induction e generalizing fs level ts rest p with
  | binary op l r ihl ihr =>
    obtain ⟨hl, hr, hleft, hright⟩ := Expr.canonical_binary.mp he
    obtain ⟨us, vs, rfl, hus, hvs⟩ := List.map_eq_append_iff.mp hts
    obtain ⟨t, vs, rfl, ht, hvs⟩ := List.map_eq_cons_iff.mp hvs
    have hkind : t.kind = op.kind := congrArg Prod.fst ht
    have hlevel : t.kind.level? = some op.level := hkind ▸ op.level_kind
    rw [List.append_assoc, List.cons_append] at h
    -- the left operand is read at the same level, up to the operator
    have hnext : Below (l.rank + 1) (t :: (vs ++ rest)) := by
      intro s hs bound hb
      cases hs
      rw [hlevel] at hb
      cases hb
      omega
    refine (ihl hl hus (Nat.le_trans hrank hleft) hnext h).then fun q ⟨cs, hcs, hq⟩ => ?_
    refine (hq.wrap hlevel hrank).then fun q ⟨n, hn, hq⟩ => ?_
    obtain ⟨place, ks, slot, hbody, hmem⟩ := operatorBody_eq hlevel level
    rw [hbody] at hq
    refine (hq.token hmem).then fun q hq => ?_
    -- the right operand is read one level higher, so the operators behind this one are left
    refine (hq.call (Stands r) rest (.expression (op.level + 1)) fun f q hq => ?_).then fun q ⟨m, ds, hm, hds, hq⟩ => ?_
    · refine (ihr hr hvs hright (hrest.mono (Nat.succ_le_succ (Nat.le_of_lt hright))) hq).then fun q ⟨ds, hds, hq⟩ => ?_
      exact (hq.operand hrest).then fun q hq => reaches_here ⟨ds, hds, hq⟩
    · exact reaches_here ⟨_, stands_binary hn hm hkind hcs hds, hq⟩
  | paren s e ih =>
    simp only [Expr.canonical, Bool.and_eq_true, beq_iff_eq] at he
    obtain ⟨rfl, he⟩ := he
    obtain ⟨t, ws, rfl, ht, hws⟩ := List.map_eq_cons_iff.mp hts
    obtain ⟨us, vs, rfl, hus, hvs⟩ := List.map_eq_append_iff.mp hws
    obtain ⟨t', rfl, ht'⟩ := List.map_eq_singleton_iff.mp hvs
    have hopen : t.kind = .openParen := congrArg Prod.fst ht
    have hclose : t'.kind = .closeParen := congrArg Prod.fst ht'
    rw [List.cons_append, List.append_assoc] at h
    have hopening : t.kind ∈ Rule.expression.opening := by rw [hopen]; decide
    refine (h.opens hopening (.left (List.mem_singleton.mpr hopen))).then fun q hq => ?_
    refine (hq.token (List.mem_singleton.mpr hopen)).then fun q hq => ?_
    refine (hq.call (Stands e) (t' :: rest) (.expression 0) fun f q hq => ?_).then fun q ⟨n, ds, hn, hds, hq⟩ => ?_
    · refine (ih he hus (Nat.zero_le _) (below_of_kind rfl hclose _) hq).then fun q ⟨ds, hds, hq⟩ => ?_
      exact (hq.operand (below_of_kind rfl hclose _)).then fun q hq => reaches_here ⟨ds, hds, hq⟩
    · refine (hq.token (List.mem_singleton.mpr hclose)).then fun q hq => ?_
      exact reaches_here ⟨_, stands_paren hn hds, hq⟩
  | number s x =>
    obtain ⟨us, vs, rfl, hus, hvs⟩ := List.map_eq_append_iff.mp hts
    obtain ⟨t, rfl, ht⟩ := List.map_eq_singleton_iff.mp hvs
    obtain ⟨hkind, rfl⟩ := word_eq ht rfl
    rw [List.append_assoc] at h
    refine (h.signed hus (Or.inl ⟨hkind, rfl⟩)).then fun q ⟨n, m, hn, hm, hq⟩ => ?_
    exact reaches_here ⟨_, stands_number hus hn hm, hq⟩
  | _ s x =>
    obtain ⟨us, vs, rfl, hus, hvs⟩ := List.map_eq_append_iff.mp hts
    obtain ⟨t, rfl, ht⟩ := List.map_eq_singleton_iff.mp hvs
    obtain ⟨hkind, rfl⟩ := word_eq ht rfl
    rw [List.append_assoc] at h
    refine (h.signed hus (Or.inr ⟨hkind, rfl⟩)).then fun q ⟨n, m, hn, hm, hq⟩ => ?_
    exact reaches_here ⟨_, stands_variable hus hn hm, hq⟩

end

/-- A run that comes to the end of the first rule is the outcome. -/
theorem outcome_of_reaches {r : Rule} {l : Lexed} {A : Parser → Prop} (hl : l.ending.kind = .endOfText)
    (h : Reaches (start r l) fun q => q.finished = true ∧ A q) : A (outcome r l) := by
  obtain ⟨n, hf, ha⟩ := h
  have hmax := run_eq_of_le hf (Nat.le_max_left n (bound l.tokens.length))
  have hout := run_eq_of_le (run_finished r hl (Nat.le_refl _)) (Nat.le_max_right n (bound l.tokens.length))
  rwa [outcome, ← hout, hmax]

end Parser

/-- The tokens that may stand behind an expression in a machine, and the end of the text. -/
def closers : List Kind := [.semicolon, .closeBracket, .endOfText]

theorem below_of_closers {l : Lexed} {rest : List Token} (h : (rest.headD l.ending).kind ∈ closers) (level : Nat) :
    Parser.Below level rest := by
  have hnone : ∀ k ∈ closers, k.level? = none := by decide
  intro t ht bound hb
  cases rest with
  | nil => cases ht
  | cons s rest => exact Parser.below_of_kind (hnone _ h) rfl level t ht bound hb

/-- Tokens that spell a canonical expression are read into it. -/
theorem Spells.read {l : Lexed} {ts rest : List Token} {e : Expr String} (h : Spells ts e)
    (hl : l.ending.kind = .endOfText) (htokens : l.tokens = ts ++ rest)
    (hrest : (rest.headD l.ending).kind ∈ closers) :
    (Parser.outcome .expression l).complaints = [] ∧ (Parser.outcome .expression l).ahead = rest ∧
      Expr.ofTree literal (Parser.outcome .expression l).close = .ok e := by
  have hstart : Parser.At .expression [] (expressionBody 0) [] (ts ++ rest) (Parser.start .expression l) :=
    ⟨rfl, rfl, rfl, rfl, htokens, rfl, hl⟩
  refine Parser.outcome_of_reaches
    (A := fun q => q.complaints = [] ∧ q.ahead = rest ∧ Expr.ofTree literal q.close = .ok e) hl ?_
  refine (hstart.reads_spelling h.canonical h.words (Nat.zero_le _) (below_of_closers hrest _)).then ?_
  rintro q ⟨cs, hcs, hq⟩
  refine (hq.operand (below_of_closers hrest _)).then fun q hq => Parser.reaches_here ⟨?_, hq.complaints, hq.ahead, ?_⟩
  · simp [Parser.finished, hq.callers, hq.todo]
  · rw [Parser.close, hq.children]
    exact hcs.ofTree _

/-- Tokens that spell a canonical expression, with a semicolon, a closing bracket or the end of the text behind them,
    are read into that expression, without complaint and up to the token behind them. And where an expression is read
    without complaint up to such a token, the tree stands for a canonical expression that the tokens read spell. -/
theorem expressions_read_as_spelled (l : Lexed) (hend : l.ending.kind = .endOfText) :
    (∀ (e : Expr String) (ts rest : List Token), e.canonical = true → ts.map Token.word = e.spelling →
      l.tokens = ts ++ rest → (rest.headD l.ending).kind ∈ closers →
      (Parser.outcome .expression l).complaints = [] ∧ (Parser.outcome .expression l).ahead = rest ∧
        Expr.ofTree literal (Parser.outcome .expression l).close = .ok e) ∧
    ((Parser.outcome .expression l).complaints = [] → (Parser.outcome .expression l).view.kind ∈ closers →
      ∃ (e : Expr String) (ts : List Token), l.tokens = ts ++ (Parser.outcome .expression l).ahead ∧
        Expr.ofTree literal (Parser.outcome .expression l).close = .ok e ∧ e.canonical = true ∧
        ts.map Token.word = e.spelling) := by
  refine ⟨fun e ts rest he hts htokens hrest => Spells.read ⟨he, hts⟩ hend htokens hrest, fun hc hview => ?_⟩
  obtain ⟨-, -, hderives⟩ := Parser.outcome_isDerivation hend hc
  obtain ⟨hending, m, hm, htokens⟩ := Parser.outcome_tokens hend hc
  -- an expression does not read the end of the text
  have hzero : m = 0 := by
    rcases Nat.eq_zero_or_pos m with h | hpos
    · exact h
    · rw [hm hpos, List.append_nil] at htokens
      have hmem : l.ending ∈ (Parser.outcome .expression l).close.tokens := by
        rw [htokens]
        exact List.mem_append_right _ (List.mem_replicate.mpr ⟨Nat.ne_of_gt hpos, rfl⟩)
      exact absurd hend (hderives.inner rfl _ hmem)
  rw [hzero, List.replicate_zero, List.append_nil] at htokens
  obtain ⟨e, he⟩ := hderives.spelled
  rw [Parser.view, hending] at hview
  exact ⟨e, _, htokens.symm, (he.read hend htokens.symm hview).2.2, he.canonical, he.words⟩

namespace Polynomial

def text : String := "-x^2^k*(y+1)-3/2;"

def expr : Expr String :=
  .binary .minus
    (.binary .times
      (.binary .power (.binary .power (.variable (some .minus) "x") (.number none "2")) (.variable none "k"))
      (.paren none (.binary .plus (.variable none "y") (.number none "1"))))
    (.binary .divide (.number none "3") (.number none "2"))

end Polynomial

theorem polynomial_read_as_spelled :
    Polynomial.expr.canonical = true ∧
      ((lex Polynomial.text).tokens.take 16).map Token.word = Polynomial.expr.spelling ∧
      (Parser.outcome .expression (lex Polynomial.text)).complaints = [] ∧
      (Parser.outcome .expression (lex Polynomial.text)).ahead.map Token.kind = [.semicolon] ∧
      Expr.ofTree literal (Parser.outcome .expression (lex Polynomial.text)).close = .ok Polynomial.expr := by
  have hcanonical : Polynomial.expr.canonical = true := by decide
  have hwords : ((lex Polynomial.text).tokens.take 16).map Token.word = Polynomial.expr.spelling := by decide +kernel
  have hbehind : ((lex Polynomial.text).tokens.drop 16).map Token.kind = [.semicolon] := by decide +kernel
  obtain ⟨t, ht, hkind⟩ := List.map_eq_singleton_iff.mp hbehind
  obtain ⟨hc, hahead, htree⟩ := (expressions_read_as_spelled (lex Polynomial.text) rfl).1 _ _ _ hcanonical hwords
    (List.take_append_drop 16 _).symm (by rw [ht, List.headD_cons, hkind]; decide)
  exact ⟨hcanonical, hwords, hc, by rw [hahead, hbehind], htree⟩

end Statechart
