/-
  Statechart.Proofs.Evaluation — where the evaluation of an expression fails, and what it
  reads.

  The nodes of an expression are done with in a fixed order: the operands of an operation
  from left to right, then the operation (`postorder`). A node by itself can fail in three
  ways (`Fails`): it is a power, a variable that is not set, or a division by what comes
  to zero.

  Proved (`fails_at_first_node`): evaluation fails exactly if some node does, and then as
  the first of them does (`eval_eq_error_iff`, by induction on the expression: what fails
  on the left hides what fails on the right, and both hide the operation); and it depends
  on the variables that occur and on no others (`eval_congr`).
-/

import Statechart.Expr
import Statechart.Proofs.Built

namespace Statechart

namespace Expr

section

variable {ν : Type}

/-- The nodes of an expression in the order in which they are done with. -/
def postorder : Expr ν → List (Expr ν)
  | .binary op l r => l.postorder ++ r.postorder ++ [.binary op l r]
  | .paren s e => e.postorder ++ [.paren s e]
  | .number s x => [.number s x]
  | .variable s x => [.variable s x]

/-- The variables that occur in an expression. -/
def names : Expr ν → List String
  | .binary _ l r => l.names ++ r.names
  | .paren _ e => e.names
  | .number _ _ => []
  | .variable _ x => [x]

end

variable {v w : Env} {e : Expr Float} {err : EvalError}

/-- What a node fails with by itself. -/
inductive Fails (v : Env) : Expr Float → EvalError → Prop
  | power {l r : Expr Float} : Fails v (.binary .power l r) .powerOfFloats
  | unset {s : Option Sign} {x : String} : v.get? x = none → Fails v (.variable s x) (.unset x)
  | division {l r : Expr Float} {y : Float} : r.eval v = .ok y → y == 0.0 →
      Fails v (.binary .divide l r) .divisionByZero

/-- The same as a function. -/
def failure? (v : Env) : Expr Float → Option EvalError
  | .binary .power _ _ => some .powerOfFloats
  | .binary .divide _ r =>
    match r.eval v with
    | .ok y => if y == 0.0 then some .divisionByZero else none
    | .error _ => none
  | .variable _ x => if (v.get? x).isNone then some (.unset x) else none
  | _ => none

theorem failure?_eq_some : e.failure? v = some err ↔ Fails v e err := by
  constructor
  · intro h
    unfold failure? at h
    split at h
    · cases h
      exact .power
    · split at h
      · split at h
        · cases h
          exact .division ‹_› ‹_›
        · cases h
      · cases h
    · split at h
      · cases h
        exact .unset (Option.isNone_iff_eq_none.mp ‹_›)
      · cases h
    · cases h
  · rintro (_ | hx | ⟨hy, hz⟩)
    · rfl
    · simp [failure?, hx]
    · simp [failure?, hy, hz]

/-- An operation whose operands have values fails exactly if its node does. -/
theorem apply_eq_error_iff {op : Operator} {l r : Expr Float} {x y : Float} (hr : r.eval v = .ok y) :
    op.apply x y = .error err ↔ (binary op l r).failure? v = some err := by
  cases op with
  | divide =>
    by_cases hy : y == 0.0
    · simp [Operator.apply, failure?, hr, hy]
    · simp [Operator.apply, failure?, hr, hy]
  | power => simp [Operator.apply, failure?]
  | _ => simp [Operator.apply, failure?]

/-- Evaluation fails as the first node does that fails, if there is one. -/
theorem eval_eq_error_iff : e.eval v = .error err ↔ e.postorder.findSome? (failure? v) = some err := by
  induction e generalizing err with
  | binary op l r ihl ihr =>
    rw [eval, postorder, List.findSome?_append, List.findSome?_append]
    cases hl : l.eval v with
    | error el =>
      rw [ihl.mp hl]
      simp [bind, Except.bind]
    | ok x =>
      have hleft : l.postorder.findSome? (failure? v) = none := by
        refine Option.eq_none_iff_forall_ne_some.mpr fun e' he' => ?_
        rw [ihl.mpr he'] at hl
        cases hl
      rw [hleft]
      cases hr : r.eval v with
      | error er =>
        rw [ihr.mp hr]
        simp [bind, Except.bind]
      | ok y =>
        have hright : r.postorder.findSome? (failure? v) = none := by
          refine Option.eq_none_iff_forall_ne_some.mpr fun e' he' => ?_
          rw [ihr.mpr he'] at hr
          cases hr
        rw [hright]
        simpa [bind, Except.bind] using apply_eq_error_iff (l := l) hr
  | paren s e ih =>
    have hself : [paren s e].findSome? (failure? v) = none := rfl
    rw [postorder, List.findSome?_append, hself, Option.or_none, ← ih, eval]
    simp [bind_eq_error, pure, Except.pure]
  | number s x => simp [eval, postorder, failure?]
  | _ s x =>
    cases hx : v.get? x with
    | none => simp [eval, postorder, failure?, Env.read, hx, bind, Except.bind]
    | some y => simp [eval, postorder, failure?, Env.read, hx, bind, Except.bind, pure, Except.pure]

/-- Two environments that agree on the variables that occur give the same value, or fail alike. -/
theorem eval_congr (h : ∀ x ∈ e.names, v.get? x = w.get? x) : e.eval v = e.eval w := by
  induction e with
  | binary op l r ihl ihr =>
    rw [eval, eval, ihl fun x hx => h x (List.mem_append_left _ hx), ihr fun x hx => h x (List.mem_append_right _ hx)]
  | paren s e ih => rw [eval, eval, ih h]
  | number s x => rfl
  | _ s x => rw [eval, eval, Env.read, Env.read, h x (List.mem_singleton.mpr rfl)]

/-- An expression has no value exactly if it contains a power, a variable that is not set, or a division whose right
    operand comes to zero. The error is then that of the first such node, operands before operations and left before
    right. What variables outside of the expression are set to does not matter. -/
theorem fails_at_first_node (v : Env) (e : Expr Float) :
    ((∃ err, e.eval v = .error err) ↔ ∃ n ∈ e.postorder, ∃ err, Fails v n err) ∧
    (∀ err, e.eval v = .error err ↔ ∃ before n after, e.postorder = before ++ n :: after ∧
      (∀ k ∈ before, ∀ err', ¬ Fails v k err') ∧ Fails v n err) ∧
    ∀ w : Env, (∀ x ∈ e.names, v.get? x = w.get? x) → e.eval v = e.eval w := by
  refine ⟨?_, fun err => ?_, fun w h => eval_congr h⟩
  · simp only [eval_eq_error_iff, ← failure?_eq_some, ← Option.isSome_iff_exists]
    exact List.findSome?_isSome_iff
  · rw [eval_eq_error_iff, List.findSome?_eq_some_iff]
    simp only [← failure?_eq_some, ← Option.eq_none_iff_forall_ne_some]
    constructor
    · rintro ⟨before, n, after, hsplit, hn, hbefore⟩
      exact ⟨before, n, after, hsplit, hbefore, hn⟩
    · rintro ⟨before, n, after, hsplit, hbefore, hn⟩
      exact ⟨before, n, after, hsplit, hn, hbefore⟩

end Expr

/-! ## A share

  `a / (b - 2) + 2 ^ c`: three nodes can fail. -/

namespace Share

/-- What is divided by. -/
def divisor : Expr Float := .paren none (.binary .minus (.variable none "b") (.number none 2.0))

def expr : Expr Float :=
  .binary .plus (.binary .divide (.variable none "a") divisor)
    (.binary .power (.number none 2.0) (.variable none "c"))

def env : Env := ⟨[("a", 1.0), ("b", 2.0)], by decide⟩

/-- The same variables set in another order, with one that does not occur. -/
def env' : Env := ⟨[("b", 2.0), ("d", 3.0), ("a", 1.0)], by decide⟩

end Share

/-- The division by zero is found first: it hides that `c` is not set, and the power. Neither the order of the variables
    nor one more of them changes that. -/
theorem Expr.share_fails_at_division :
    (∀ x ∈ Share.expr.names, Share.env.get? x = Share.env'.get? x) ∧
      (∃ n ∈ Share.expr.postorder, Fails Share.env n (.unset "c")) ∧
      Share.expr.eval Share.env = .error .divisionByZero ∧ Share.expr.eval Share.env' = .error .divisionByZero := by
  obtain ⟨-, hfirst, hsame⟩ := fails_at_first_node Share.env Share.expr
  have hagree : ∀ x ∈ Share.expr.names, Share.env.get? x = Share.env'.get? x := by decide +kernel
  have hzero : Share.divisor.eval Share.env = .ok 0.0 := eq_ok_of_toOption (by decide +kernel)
  have hbefore : ∀ k ∈ Share.expr.postorder.take 5, k.failure? Share.env = none := by decide +kernel
  have hdivision : Share.expr.eval Share.env = .error .divisionByZero := by
    refine (hfirst _).mpr
      ⟨Share.expr.postorder.take 5, .binary .divide (.variable none "a") Share.divisor, _, rfl, ?_, ?_⟩
    · intro k hk err hf
      cases (hbefore k hk).symm.trans (failure?_eq_some.mpr hf)
    · exact .division hzero (by decide +kernel)
  refine ⟨hagree, ⟨.variable none "c", ?_, .unset rfl⟩, hdivision, (hsame Share.env' hagree).symm.trans hdivision⟩
  simp [Share.expr, postorder]

end Statechart
