/-
  Statechart.Expr.OfTree — the expression a tree stands for.

  A tree with an atom is a number or a variable with the sign found beside it; one with
  a single expression below it stands for parentheses, whatever surrounds that; one
  with two and an operator is an operation. All else is malformed. Repaired trees are
  taken as they are, so the text of an atom includes what was passed over in it.
-/

import Statechart.Expr
import Statechart.Tree
import Statechart.Tree.Defect

namespace Statechart

namespace Expr

def signOf (cs : List Tree) : Option Sign :=
  if (Tree.tokenOf? .plus cs).isSome then some .plus
  else if (Tree.tokenOf? .minus cs).isSome then some .minus
  else none

/-- Kinds and operators in the order in which they are looked for. -/
def operatorKinds : List (Kind × Operator) :=
  [(.plus, .plus), (.minus, .minus), (.times, .times), (.divide, .divide), (.power, .power)]

def operatorOf? (cs : List Tree) : Option Operator :=
  (operatorKinds.find? fun x => (Tree.tokenOf? x.1 cs).isSome).map (·.2)

variable {ν : Type} (number : String → Except Defect ν)

/-- An atom: a number if it has one, else a variable, by its whole text. -/
def ofAtom (sign : Option Sign) (atom : Tree) : Except Defect (Expr ν) :=
  if (Tree.firstOf? .number atom.children).isSome then (number atom.text).map (.number sign)
  else .ok (.variable sign atom.text)

/-- An expression from the children of its node and the expressions among them. -/
def assemble (cs : List Tree) (inner : List (Except Defect (Expr ν))) : Except Defect (Expr ν) :=
  match Tree.firstOf? .atom cs with
  | some atom => ofAtom number (signOf cs) atom
  | none =>
    match inner, operatorOf? cs with
    | [e], _ => e.map (.paren none)
    | [l, r], some op => do
      let l ← l
      let r ← r
      return .binary op l r
    | _, _ => .error .malformedExpression

mutual

def ofTree : Tree → Except Defect (Expr ν)
  | .node _ cs => assemble number cs (ofTrees cs)
  | _ => .error .malformedExpression

/-- The expressions among some children. -/
def ofTrees : List Tree → List (Except Defect (Expr ν))
  | [] => []
  | c :: cs => if c.hasRule .expression then ofTree c :: ofTrees cs else ofTrees cs

end

end Expr

/-- The floating point number a text stands for. -/
def readNumber (s : String) : Except Defect Float :=
  match readFloat? s with
  | some x => .ok x
  | none => .error (.notNumber s)

end Statechart
