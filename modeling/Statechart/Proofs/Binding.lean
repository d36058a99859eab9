/-
  Statechart.Proofs.Binding — operators bind by their levels, wherever an expression stands.

  A derivation does not say how operators bind. What the parser does says it: an
  expression asked for at a level ends only where no operator of that level comes next, so
  the operator behind a right operand never binds more tightly than the one before it.
  - `Midway`: the places at which the parser can be in an expression, with what it knows
    there of the operands and of the operator in view.
  - `Halted`: the places at which a rule waits for an expression or an atom inside it.
  - `Parser.Bound`: all rules begun are at such places. A move keeps this as long as there
    is no complaint (`Moves.bound`).

  Proved (`outcome_binds`): in a tree read without complaint the left operand of an operation
  binds at least as tightly as its operator and the right one more tightly. So every
  expression that such a tree stands for is canonical (`Yields.canonical`).
-/

import Statechart.Proofs.Anatomy

namespace Statechart

/-! ## Operands -/

/-- How tightly the expression with these children binds. -/
def grip : List Tree → Nat
  | [.node _ _, .leaf t, .node _ _] => t.kind.level?.getD 6
  | _ => 6

/-- If these are the children of an operation, its operands bind as tightly as their places ask for. -/
def Binds (cs : List Tree) : Prop :=
  ∀ l us t m vs bound, cs = [.node l us, .leaf t, .node m vs] → t.kind.level? = some bound →
    bound ≤ grip us ∧ bound < grip vs

/-- So it is with all expressions of a tree. -/
def Tree.Binds (t : Tree) : Prop := ∀ x ∈ t.nodes, x.1.rule = .expression → Statechart.Binds x.2

theorem level?_le {k : Kind} {bound : Nat} (h : k.level? = some bound) : bound ≤ 5 := by
  cases k <;> cases h <;> decide

theorem Tree.binds_leaf (t : Token) : (Tree.leaf t).Binds := fun _ hx => nomatch hx

section

variable {n m : Node} {us vs : List Tree} {s t : Token} {bound : Nat}

theorem grip_binary (h : t.kind.level? = some bound) : grip [.node n us, .leaf t, .node m vs] = bound := by
  rw [grip, h, Option.getD_some]

theorem grip_atom (ss : List Token) : grip (ss.map .leaf ++ [.node n us]) = 6 := by
  cases ss <;> rfl

theorem binds_binary (h : t.kind.level? = some bound) (hl : bound ≤ grip us) (hr : bound < grip vs) :
    Binds [.node n us, .leaf t, .node m vs] := by
  intro l us' t' m' vs' b heq hb
  cases heq
  cases h.symm.trans hb
  exact ⟨hl, hr⟩

theorem binds_paren : Binds [.leaf s, .node n us, .leaf t] := fun _ _ _ _ _ _ h => nomatch h

theorem binds_atom (ss : List Token) : Binds (ss.map .leaf ++ [.node n us]) := by
  intro l us' t' m' vs' b heq
  cases ss with
  | nil => cases heq
  | cons s ss => cases heq

end

/-! ## Places in an expression -/

/-- Where the parser can be in an expression asked for at a level, with a token of the kind `k` in view: the items left
    and the children there. -/
inductive Midway (k : Kind) (level : Nat) : List Item → List Tree → Prop
  | start : Midway k level (expressionBody level) []
  | opening : Midway k level [tok 111 .openParen, .expression 0, tok 112 .closeParen, .operators level] []
  | inner {t : Token} : Midway k level [.expression 0, tok 112 .closeParen, .operators level] [.leaf t]
  | closing {t : Token} {n : Node} {us : List Tree} :
      Midway k level [tok 112 .closeParen, .operators level] [.leaf t, .node n us]
  | sign : Midway k level [.option 113 [.token 114 [.plus, .minus] .none], .call .atom, .operators level] []
  | signed : Midway k level [.token 114 [.plus, .minus] .none, .call .atom, .operators level] []
  | atom (ss : List Token) : Midway k level [.call .atom, .operators level] (ss.map .leaf)
  /-- An operand is there: what comes next binds no more tightly. -/
  | whole {cs : List Tree} : Binds cs → min level 6 ≤ grip cs → (∀ bound, k.level? = some bound → bound ≤ grip cs) →
      Midway k level [.operators level] cs
  | operator {bound : Nat} {n : Node} {us : List Tree} : k.level? = some bound → level ≤ bound → bound ≤ grip us →
      Midway k level (operatorBody level bound) [.node n us]
  | right {bound : Nat} {n : Node} {us : List Tree} {t : Token} : t.kind.level? = some bound → level ≤ bound →
      bound ≤ grip us → Midway k level [.expression (bound + 1), .operators level] [.node n us, .leaf t]
  /-- The expression ends: what comes next binds less tightly than its level. -/
  | done {cs : List Tree} : Binds cs → min level 6 ≤ grip cs → (∀ bound, k.level? = some bound → bound < level) →
      Midway k level [] cs

/-- Where an expression asked for at the level `outer` waits for a rule, itself asked for at a level. -/
inductive Halted (outer : Nat) : Rule → Nat → List Item → List Tree → Prop
  | inner {t : Token} : Halted outer .expression 0 [tok 112 .closeParen, .operators outer] [.leaf t]
  | atom {level : Nat} (ss : List Token) : Halted outer .atom level [.operators outer] (ss.map .leaf)
  | right {bound : Nat} {n : Node} {us : List Tree} {t : Token} : t.kind.level? = some bound → outer ≤ bound →
      bound ≤ grip us → Halted outer .expression (bound + 1) [.operators outer] [.node n us, .leaf t]

section

variable {k : Kind} {level : Nat} {cs : List Tree} {i : Item} {rest items : List Item}

theorem Midway.ended (h : Midway k level [] cs) :
    Binds cs ∧ min level 6 ≤ grip cs ∧ ∀ bound, k.level? = some bound → bound < level := by
  generalize ht : ([] : List Item) = todo at h
  cases h with
  | done hb hg hk => exact ⟨hb, hg, hk⟩
  | _ => cases ht

theorem Midway.read {place : Nat} {ks : List Kind} {slot : Slot} {k' : Kind} {t : Token}
    (h : Midway k level (.token place ks slot :: rest) cs) (ht : t.kind = k) :
    Midway k' level rest (cs ++ [.leaf t]) := by
  generalize htodo : Item.token place ks slot :: rest = todo at h
  cases h with
  | opening => cases htodo; exact .inner
  | closing =>
    cases htodo
    exact .whole binds_paren (Nat.min_le_right _ _) fun bound hb => Nat.le_succ_of_le (level?_le hb)
  | signed => cases htodo; exact .atom [t]
  | operator hk hl hg =>
    obtain ⟨_, _, _, hbody, -⟩ := operatorBody_eq hk level
    rw [hbody] at htodo
    cases htodo
    exact .right (ht ▸ hk) hl hg
  | _ => cases htodo

theorem Midway.opens (h : Midway k level (i :: rest) cs) (ho : Parser.Opens k rest i items) :
    Midway k level items cs := by
  generalize htodo : i :: rest = todo at h
  cases h with
  | start =>
    cases htodo
    cases ho with
    | left => exact .opening
    | right => exact .sign
  | sign =>
    cases htodo
    cases ho with
    | present => exact .signed
    | absent => exact .atom []
  | whole hb hg _ =>
    cases htodo
    cases ho with
    | operand hk => exact .done hb hg hk
  | operator hk _ _ =>
    obtain ⟨_, _, _, hbody, -⟩ := operatorBody_eq hk level
    rw [hbody] at htodo
    cases htodo
    cases ho
  | done => cases htodo
  | _ => cases htodo; cases ho

theorem Midway.operators {level' : Nat} (h : Midway k level (.operators level' :: rest) cs) :
    level' = level ∧ rest = [] ∧ Binds cs ∧ ∀ bound, k.level? = some bound → bound ≤ grip cs := by
  generalize htodo : Item.operators level' :: rest = todo at h
  cases h with
  | whole hb _ hnext =>
    cases htodo
    exact ⟨rfl, rfl, hb, hnext⟩
  | operator hk _ _ =>
    obtain ⟨_, _, _, hbody, -⟩ := operatorBody_eq hk level
    rw [hbody] at htodo
    cases htodo
  | _ => cases htodo

/-- An expression that asks for a rule waits for it. -/
theorem Midway.enter {r : Rule} {body : List Item} (h : Midway k level (i :: rest) cs) (hc : Parser.Calls i r body) :
    ∃ inner, Halted level r inner rest cs ∧ (r = .expression → body = expressionBody inner) := by
  generalize htodo : i :: rest = todo at h
  cases h with
  | inner =>
    cases htodo
    cases hc
    exact ⟨0, .inner, fun _ => rfl⟩
  | atom ss =>
    cases htodo
    cases hc
    exact ⟨0, .atom ss, nofun⟩
  | right ht hl hg =>
    cases htodo
    cases hc
    exact ⟨_, .right ht hl hg, fun _ => rfl⟩
  | operator hk _ _ =>
    obtain ⟨_, _, _, hbody, -⟩ := operatorBody_eq hk level
    rw [hbody] at htodo
    cases htodo
    cases hc
  | done => cases htodo
  | _ => cases htodo; cases hc

/-- A rule that ends goes to the expression that waits for it. -/
theorem Halted.leave {outer : Nat} {r : Rule} {us : List Tree} {n : Node} (h : Halted outer r level rest cs)
    (hr : r = .expression → Midway k level [] us) : Midway k outer rest (cs ++ [.node n us]) := by
  cases h with
  | inner => exact .closing
  | atom ss =>
    refine .whole (binds_atom ss) ?_ fun bound hb => ?_
    · rw [grip_atom]
      exact Nat.min_le_right _ _
    · rw [grip_atom]
      exact Nat.le_succ_of_le (level?_le hb)
  | @right bound l vs t ht hl hg =>
    obtain ⟨-, hgrip, hnext⟩ := (hr rfl).ended
    have hfive := level?_le ht
    have hwhole : grip [.node l vs, .leaf t, .node n us] = bound := grip_binary ht
    exact .whole (binds_binary ht hg (by omega)) (show _ ≤ grip [_, _, _] by omega) fun b hb =>
      hwhole ▸ Nat.le_of_lt_succ (hnext b hb)

end

/-! ## Moves -/

/-- Each of some rules waits for the one before it, the first for a rule `r` asked for at a level. -/
def Lined (r : Rule) (level : Nat) : List Frame → Prop
  | [] => True
  | f :: fs => ∃ outer, (f.rule = .expression → Halted outer r level f.todo f.children) ∧ Lined f.rule outer fs

namespace Parser

variable {p q : Parser}

structure Bound (p : Parser) (level : Nat) : Prop where
  frame : p.frame.rule = .expression → Midway p.view.kind level p.frame.todo p.frame.children
  callers : Lined p.frame.rule level p.callers
  children : ∀ c ∈ p.frame.children, c.Binds
  passed : ∀ f ∈ p.callers, ∀ c ∈ f.children, c.Binds

variable {level : Nat}

theorem Bound.close (h : p.Bound level) (hb : p.frame.rule = .expression → Statechart.Binds p.frame.children) :
    p.close.Binds := Tree.forall_nodes.mpr ⟨hb, h.children⟩

theorem Bound.take {place : Nat} {ks : List Kind} {slot : Slot} {rest : List Item} (h : p.Bound level)
    (ht : p.frame.todo = .token place ks slot :: rest) : (p.take slot rest).Bound level := by
  obtain ⟨hrule, htodo, hchildren, hcallers, -⟩ := p.frame_take slot rest
  refine ⟨?_, ?_, ?_, hcallers ▸ h.passed⟩
  · rw [hrule, htodo, hchildren]
    intro hr
    have hm := h.frame hr
    rw [ht] at hm
    exact hm.read rfl
  · rw [hrule, hcallers]
    exact h.callers
  · rw [hchildren]
    intro c hc
    rcases List.mem_append.mp hc with hc | hc
    · exact h.children c hc
    · rw [List.mem_singleton.mp hc]
      exact Tree.binds_leaf _

theorem Bound.enter {i : Item} {r : Rule} {body rest : List Item} (h : p.Bound level) (ht : p.frame.todo = i :: rest)
    (hc : Calls i r body) : ∃ inner, (p.enter r body rest).Bound inner := by
  have hpassed : ∀ f ∈ (p.goOn rest).frame :: p.callers, ∀ c ∈ f.children, c.Binds := by
    intro f hf
    rcases List.mem_cons.mp hf with rfl | hf
    · exact h.children
    · exact h.passed f hf
  obtain ⟨inner, hhalted, hbody⟩ : ∃ inner, (p.frame.rule = .expression → Halted level r inner rest p.frame.children) ∧
      (r = .expression → body = expressionBody inner) := by
    by_cases hr : p.frame.rule = .expression
    · have hm := h.frame hr
      rw [ht] at hm
      obtain ⟨inner, hhalted, hbody⟩ := hm.enter hc
      exact ⟨inner, fun _ => hhalted, hbody⟩
    · cases hc with
      | rule r =>
        refine ⟨0, fun h => absurd h hr, fun h => ?_⟩
        rw [h]
        rfl
      | expression inner => exact ⟨inner, fun h => absurd h hr, fun _ => rfl⟩
  refine ⟨inner, fun hr => ?_, ⟨level, hhalted, h.callers⟩, fun c hc => (by cases hc), hpassed⟩
  show Midway _ _ body []
  rw [hbody hr]
  exact .start

theorem Bound.leave {c : Frame} {cs : List Frame} (h : p.Bound level) (ht : p.frame.todo = [])
    (hcs : p.callers = c :: cs) : ∃ outer, (add { p with frame := c, callers := cs } p.close).Bound outer := by
  have hframe := h.frame
  have hlined := h.callers
  have hpassed := h.passed
  rw [ht] at hframe
  rw [hcs] at hlined hpassed
  obtain ⟨outer, hhalted, hlined⟩ := hlined
  have hclose := h.close fun hr => (hframe hr).ended.1
  refine ⟨outer, fun hr => (hhalted hr).leave hframe, hlined, fun d hd => ?_,
    fun f hf => hpassed f (List.mem_cons_of_mem _ hf)⟩
  rcases List.mem_append.mp hd with hd | hd
  · exact hpassed c List.mem_cons_self d hd
  · rw [List.mem_singleton.mp hd]
    exact hclose

theorem Bound.wrap {level' bound : Nat} {rest : List Item} (h : p.Bound level)
    (ht : p.frame.todo = .operators level' :: rest) (hk : p.view.kind.level? = some bound) (hl : level' ≤ bound) :
    (p.wrap (operatorBody level' bound ++ rest)).Bound level := by
  have hframe := h.frame
  rw [ht] at hframe
  have hclose := h.close fun hr => (hframe hr).operators.2.2.1
  refine ⟨fun hr => ?_, h.callers, fun d hd => ?_, h.passed⟩
  · obtain ⟨rfl, rfl, -, hnext⟩ := (hframe hr).operators
    show Midway p.view.kind _ (operatorBody level' bound ++ []) [p.close]
    rw [List.append_nil]
    exact .operator hk hl (hnext bound hk)
  · rw [List.mem_singleton.mp hd]
    exact hclose

/-- A move that complains of nothing keeps the operands in order. -/
theorem Moves.bound (hm : Moves p q) (h : ∃ level, p.Bound level) (hp : p.Candid) (hq : q.complaints = []) :
    ∃ level, q.Bound level := by
  obtain ⟨level, h⟩ := h
  cases hm with
  | leave ht hc => exact h.leave ht hc
  | read ht _ => exact ⟨level, h.take ht⟩
  | mend _ _ hm => exact absurd hq (hm.complains hp)
  | enter ht hc => exact h.enter ht hc
  | opens ht hs ho =>
    rcases hs with rfl | ⟨-, hm⟩
    · have hframe := h.frame
      rw [ht] at hframe
      exact ⟨level, fun hr => (hframe hr).opens ho, h.callers, h.children, h.passed⟩
    · exact absurd hq (hm.complains hp)
  | giveUp _ _ hm => exact absurd hq (hm.complains hp)
  | wrap ht hk hl => exact ⟨level, h.wrap ht hk hl⟩

theorem start_bound (r : Rule) (l : Lexed) : (start r l).Bound 0 := by
  refine ⟨fun hr => ?_, trivial, fun c hc => (by cases hc), fun f hf => (by cases hf)⟩
  cases (hr : r = .expression)
  exact .start

/-- Where a rule is read without complaint, the operands of every operation bind as tightly as their places ask for. -/
theorem outcome_binds {r : Rule} {l : Lexed} (hl : l.ending.kind = .endOfText) (hc : (outcome r l).complaints = []) :
    (outcome r l).close.Binds := by
  obtain ⟨level, hrun⟩ : ∃ level, (outcome r l).Bound level :=
    (start_fair r l).run_quiet (fun p q hm hp hcandid hq => hm.bound hp hcandid hq) ⟨0, start_bound r l⟩ _ hc
  have hend := outcome_finished (r := r) hl
  simp only [finished, Bool.and_eq_true, List.isEmpty_iff] at hend
  refine hrun.close fun hr => ?_
  have hframe := hrun.frame hr
  rw [hend.2] at hframe
  exact hframe.ended.1

end Parser

/-! ## Expressions -/

/-- Its operands bind as they have to, so the expression is canonical. -/
theorem Yields.canonical {ν : Type} {number : String → Except Defect ν} {e : Expr ν} {n : Node} {cs : List Tree}
    (h : Yields number cs e) (hn : n.rule = .expression) (hb : (Tree.node n cs).Binds) :
    e.canonical = true ∧ e.rank = grip cs := by
  induction h generalizing n with
  | @binary op x y l m us vs t hl ht hm _ _ ihx ihy =>
    have hlevel : t.kind.level? = some op.level := ht ▸ op.level_kind
    obtain ⟨hself, hchildren⟩ := Tree.forall_nodes.mp hb
    obtain ⟨hleft, hright⟩ := hself hn l us t m vs op.level rfl hlevel
    obtain ⟨hx, hxrank⟩ := ihx hl (hchildren _ (by simp))
    obtain ⟨hy, hyrank⟩ := ihy hm (hchildren _ (by simp))
    exact ⟨Expr.canonical_binary.mpr ⟨hx, hy, hxrank ▸ hleft, hyrank ▸ hright⟩, (grip_binary hlevel).symm⟩
  | paren _ hrule _ _ ih =>
    obtain ⟨-, hchildren⟩ := Tree.forall_nodes.mp hb
    exact ⟨(ih hrule (hchildren _ (by simp))).1, rfl⟩
  | _ => exact ⟨rfl, (grip_atom _).symm⟩

end Statechart
