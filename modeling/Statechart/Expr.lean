/-
  Statechart.Expr — arithmetic expressions and comparisons: their text and their value.

  An expression is over a type of numbers `ν`: floating point numbers when it is run,
  the digits themselves when only its form matters. Both sides of an operator are
  evaluated, left first, before the operator can fail; `^` has no meaning on floating
  point numbers and always fails.
-/

import Statechart.Decimal.Text

namespace Statechart

inductive Sign where
  | plus
  | minus
  deriving DecidableEq, Repr

/-- How a sign shows in the text of an expression. -/
def Sign.text : Sign → String
  | .plus => "Sign.PLUS"
  | .minus => "Sign.MINUS"

inductive Operator where
  | power
  | times
  | divide
  | plus
  | minus
  deriving DecidableEq, Repr

def Operator.text : Operator → String
  | .power => "^"
  | .times => "*"
  | .divide => "/"
  | .plus => "+"
  | .minus => "-"

inductive Expr (ν : Type) where
  | binary (op : Operator) (left right : Expr ν)
  | paren (sign : Option Sign) (inner : Expr ν)
  | number (sign : Option Sign) (x : ν)
  | variable (sign : Option Sign) (name : String)
  deriving DecidableEq, Repr

def signText : Option Sign → String
  | none => ""
  | some s => s.text

/-- The text of an expression. -/
def Expr.text : Expr Float → String
  | .binary op l r => l.text ++ " " ++ op.text ++ " " ++ r.text
  | .paren s e => signText s ++ "(" ++ e.text ++ ")"
  | .number s x => signText s ++ floatText x
  | .variable s x => signText s ++ x

/-- Why an expression has no value. -/
inductive EvalError where
  | unset (name : String)
  | divisionByZero
  /-- `^` was applied. -/
  | powerOfFloats
  deriving DecidableEq, Repr

/-- The variables in the order in which they were first set. -/
structure Env where
  entries : List (String × Float)
  /-- No variable is listed twice. -/
  distinct : (entries.map (·.1)).Nodup

namespace Env

def empty : Env := ⟨[], .nil⟩

def get? (v : Env) (name : String) : Option Float := (v.entries.find? fun e => e.1 == name).map (·.2)

/-- The entries with one for a name, in the place of the one that was there or else at the end. -/
def setEntry (name : String) (x : Float) : List (String × Float) → List (String × Float)
  | [] => [(name, x)]
  | e :: es => if e.1 = name then (name, x) :: es else e :: setEntry name x es

theorem names_setEntry (name : String) (x : Float) (es : List (String × Float)) :
    (setEntry name x es).map (·.1) = if name ∈ es.map (·.1) then es.map (·.1) else es.map (·.1) ++ [name] := by
  induction es with
  | nil => rfl
  | cons e es ih =>
    unfold setEntry
    by_cases he : e.1 = name
    · simp [he]
    · simp only [if_neg he, List.map_cons, ih, List.mem_cons, Ne.symm he, false_or]
      split <;> rfl

theorem distinct_setEntry (name : String) (x : Float) {es : List (String × Float)} (h : (es.map (·.1)).Nodup) :
    ((setEntry name x es).map (·.1)).Nodup := by
  rw [names_setEntry]
  split
  · exact h
  · rename_i hname
    refine List.nodup_append.mpr ⟨h, List.pairwise_singleton _ _, ?_⟩
    intro n hn k hk hnk
    rw [List.mem_singleton.mp hk] at hnk
    exact hname (hnk ▸ hn)

/-- A variable that was set before keeps its place. -/
def set (v : Env) (name : String) (x : Float) : Env :=
  ⟨setEntry name x v.entries, distinct_setEntry name x v.distinct⟩

def read (v : Env) (name : String) : Except EvalError Float :=
  match v.get? name with
  | some x => .ok x
  | none => .error (.unset name)

end Env

def Operator.apply (op : Operator) (x y : Float) : Except EvalError Float :=
  match op with
  | .power => .error .powerOfFloats
  | .times => .ok (x * y)
  | .divide => if y == 0.0 then .error .divisionByZero else .ok (x / y)
  | .plus => .ok (x + y)
  | .minus => .ok (x - y)

def applySign (s : Option Sign) (x : Float) : Float := if s = some .minus then -x else x

namespace Expr

def eval (v : Env) : Expr Float → Except EvalError Float
  | .binary op l r => do
    let x ← l.eval v
    let y ← r.eval v
    op.apply x y
  | .paren s e => do return applySign s (← e.eval v)
  | .number s x => .ok (applySign s x)
  | .variable s x => do return applySign s (← v.read x)

end Expr

inductive Comparison where
  | equal
  | notEqual
  | less
  | lessEqual
  | greater
  | greaterEqual
  deriving DecidableEq, Repr

namespace Comparison

def text : Comparison → String
  | .equal => "="
  | .notEqual => "!="
  | .less => "<"
  | .lessEqual => "<="
  | .greater => ">"
  | .greaterEqual => ">="

def holds (c : Comparison) (x y : Float) : Bool :=
  match c with
  | .equal => x == y
  | .notEqual => x != y
  | .less => x < y
  | .lessEqual => x ≤ y
  | .greater => y < x
  | .greaterEqual => y ≤ x

end Comparison

end Statechart
