/-
  Statechart.Tree — the tree read from a text: a node for every rule that was entered, and
  the tokens below it, read or repaired.

  A `fault` is a token the parser passed over, or put in, while it repaired the text;
  whoever looks a token up below a node finds faults as well as leaves.
-/

import Statechart.Grammar

namespace Statechart

/-- What a node says apart from its children: its rule, the token in view when the rule was entered, the last
    token passed when it was left, and the tokens the rule remembers. -/
structure Node where
  rule : Rule
  start : Token
  stop : Option Token
  target : Option Token
  trigger : Option Token
  deriving DecidableEq, Repr

inductive Tree where
  | leaf (t : Token)
  | fault (t : Token)
  | node (n : Node) (children : List Tree)
  deriving Repr

namespace Tree

mutual

/-- The tokens below a tree, in order. -/
def tokens : Tree → List Token
  | .leaf t => [t]
  | .fault t => [t]
  | .node _ cs => tokensOf cs

def tokensOf : List Tree → List Token
  | [] => []
  | c :: cs => c.tokens ++ tokensOf cs

end

theorem tokensOf_append (cs ds : List Tree) : tokensOf (cs ++ ds) = tokensOf cs ++ tokensOf ds := by
  induction cs with
  | nil => rfl
  | cons c cs ih => rw [List.cons_append, tokensOf, tokensOf, ih, List.append_assoc]

mutual

/-- The nodes of a tree with their children, each before those below it. -/
def nodes : Tree → List (Node × List Tree)
  | .leaf _ => []
  | .fault _ => []
  | .node n cs => (n, cs) :: nodesOf cs

def nodesOf : List Tree → List (Node × List Tree)
  | [] => []
  | c :: cs => c.nodes ++ nodesOf cs

end

/-- The texts of the tokens below, one after the other. -/
def text (t : Tree) : String := String.join (t.tokens.map (·.text))

def token? : Tree → Option Token
  | .leaf t => some t
  | .fault t => some t
  | .node _ _ => none

def children : Tree → List Tree
  | .node _ cs => cs
  | _ => []

def hasRule (r : Rule) : Tree → Bool
  | .node n _ => n.rule == r
  | _ => false

/-- The first token of a kind among some children, faults included. -/
def tokenOf? (k : Kind) (cs : List Tree) : Option Token :=
  (cs.filterMap token?).find? fun t => t.kind == k

/-- The children that stand for a rule. -/
def allOf (r : Rule) (cs : List Tree) : List Tree := cs.filter (hasRule r)

/-- The first child that stands for a rule. -/
def firstOf? (r : Rule) (cs : List Tree) : Option Tree := cs.find? (hasRule r)

end Tree

/-- A part of a node that can be asked for by name. -/
inductive Part where
  | token (k : Kind)
  | one (r : Rule)
  | many (r : Rule)
  deriving DecidableEq, Repr

def Part.name : Part → String
  | .token k => k.symbol
  | .one r => r.name
  | .many r => r.name

/-- The parts of a rule's nodes. -/
def Rule.parts : Rule → List Part
  | .machine => [.token .machine, .token .name, .one .initial, .token .endOfText, .many .state]
  | .composite => [.token .composite, .token .name, .one .initial, .many .transition, .many .state]
  | .simple => [.token .state, .token .name, .many .transition]
  | .state => [.one .simple, .one .composite]
  | .initial => [.token .initial, .token .arrow, .token .name]
  | .transition =>
    [.token .arrow, .token .text, .token .name, .token .final, .one .guard, .token .divide, .many .separated]
  | .guard =>
    [.one .variable, .one .expression, .token .equal, .token .notEqual, .token .less, .token .lessEqual,
     .token .greater, .token .greaterEqual]
  | .separated => [.one .assignment]
  | .file => [.token .endOfText, .many .assignment]
  | .assignment => [.one .variable, .token .equal, .one .expression]
  | .expression =>
    [.token .openParen, .many .expression, .token .closeParen, .one .atom, .token .plus, .token .minus, .token .power,
     .token .times, .token .divide]
  | .atom => [.one .number, .one .variable]
  | .number => [.token .number]
  | .variable => [.token .variable]

/-- What asking for a part gives: the text of at most one, or the texts of all. -/
inductive Found where
  | one (text : Option String)
  | many (texts : List String)
  deriving DecidableEq, Repr

def Part.find (cs : List Tree) : Part → Found
  | .token k => .one ((Tree.tokenOf? k cs).map (·.text))
  | .one r => .one ((Tree.firstOf? r cs).map Tree.text)
  | .many r => .many ((Tree.allOf r cs).map Tree.text)

end Statechart
