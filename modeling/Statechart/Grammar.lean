/-
  Statechart.Grammar — the grammar of the statechart language as data.

  A rule is a list of items: tokens, calls of other rules, options, repetitions and
  choices. What is left to read of a rule is again a list of items, so the tokens that
  may come next (`look`) can be asked for at every place of the grammar.
  - `Rule.opening_eq`: the tokens a rule may open with, as listed, are those its items
    say.
  - `Rule.not_through`: no rule can be passed without reading.

  An expression is an operand followed by operators that bind at least as tightly as
  the level at which the expression was asked for; the right operand is asked for one
  level higher, so all operators associate to the left.
-/

import Statechart.Token

namespace Statechart

inductive Rule where
  | machine
  | composite
  | simple
  | state
  | initial
  | transition
  | guard
  | separated
  | file
  | assignment
  | expression
  | atom
  | number
  | variable
  deriving DecidableEq, Repr

namespace Rule

def all : List Rule :=
  [.machine, .composite, .simple, .state, .initial, .transition, .guard, .separated, .file, .assignment, .expression,
   .atom, .number, .variable]

def name : Rule → String
  | .machine => "statemachine"
  | .composite => "composite_state"
  | .simple => "simple_state"
  | .state => "state_rule"
  | .initial => "initial_state"
  | .transition => "transition"
  | .guard => "guard"
  | .separated => "separated_assignment"
  | .file => "file_"
  | .assignment => "assignment"
  | .expression => "expression"
  | .atom => "atom"
  | .number => "number"
  | .variable => "variable"

def ofName? (s : String) : Option Rule := all.find? fun r => r.name == s

end Rule

/-- What a node remembers of a token besides having it among its children. -/
inductive Slot where
  | none
  | target
  | trigger
  deriving DecidableEq, Repr

/-- One item of a rule. `place` numbers tell the places of the grammar apart; a repetition has one for its
    first round and one for the rounds after. -/
inductive Item where
  /-- One token of one of these kinds. -/
  | token (place : Nat) (kinds : List Kind) (slot : Slot)
  | call (rule : Rule)
  /-- An expression whose operators bind at least as tightly as `level`. -/
  | expression (level : Nat)
  | option (place : Nat) (body : List Item)
  | many (place again : Nat) (body : List Item)
  | some (place again : Nat) (body : List Item)
  /-- A repetition of which a round was just read. -/
  | again (place : Nat) (body : List Item)
  | choice (place : Nat) (left right : List Item)
  /-- The operators behind an operand. -/
  | operators (level : Nat)
  deriving Repr

/-- What may come next: the kinds of token to read, and whether nothing need be read at all. -/
structure Look where
  kinds : List Kind
  through : Bool
  deriving DecidableEq, Repr

def comparisons : List Kind := [.notEqual, .less, .lessEqual, .greater, .greaterEqual, .equal]

def operators : List Kind := [.plus, .minus, .times, .divide, .power]

/-- How tightly an operator binds. -/
def Kind.level? : Kind → Option Nat
  | .power => some 5
  | .times | .divide => some 4
  | .plus | .minus => some 3
  | _ => none

/-- The tokens a rule may open with. -/
def Rule.opening : Rule → List Kind
  | .machine => [.machine]
  | .composite => [.composite]
  | .simple => [.state]
  | .state => [.state, .composite]
  | .initial => [.initial]
  | .transition => [.arrow]
  | .guard => [.variable]
  | .separated => [.variable]
  | .file => [.variable, .endOfText]
  | .assignment => [.variable]
  | .expression => [.openParen, .plus, .minus, .number, .variable]
  | .atom => [.number, .variable]
  | .number => [.number]
  | .variable => [.variable]

mutual

def Item.look : Item → Look
  | .token _ ks _ => ⟨ks, false⟩
  | .call r => ⟨r.opening, false⟩
  | .expression _ => ⟨Rule.expression.opening, false⟩
  | .option _ b => ⟨(lookAll b).kinds, true⟩
  | .many _ _ b => ⟨(lookAll b).kinds, true⟩
  | .some _ _ b => lookAll b
  | .again _ b => ⟨(lookAll b).kinds, true⟩
  | .choice _ l r => ⟨(lookAll l).kinds ++ (lookAll r).kinds, (lookAll l).through || (lookAll r).through⟩
  | .operators _ => ⟨Statechart.operators, true⟩

def lookAll : List Item → Look
  | [] => ⟨[], true⟩
  | i :: is => if i.look.through then ⟨i.look.kinds ++ (lookAll is).kinds, (lookAll is).through⟩ else i.look

end

def tok (place : Nat) (k : Kind) : Item := .token place [k] .none

/-- An expression at a level: an operand, then operators. -/
def expressionBody (level : Nat) : List Item :=
  [.choice 110 [tok 111 .openParen, .expression 0, tok 112 .closeParen]
      [.option 113 [.token 114 [.plus, .minus] .none], .call .atom],
   .operators level]

/-- The rest of an expression once an operator of this level is next: the operator, its right operand, and the
    operators behind that. -/
def operatorBody (level bound : Nat) : List Item :=
  let operator : Item :=
    if bound = 5 then tok 115 .power
    else if bound = 4 then .token 116 [.times, .divide] .none
    else .token 117 [.plus, .minus] .none
  [operator, .expression (bound + 1), .operators level]

def Rule.body : Rule → List Item
  | .machine =>
    [tok 1 .machine, tok 2 .name, tok 3 .openBrace, .call .initial, .some 4 5 [.call .state], tok 6 .closeBrace,
     tok 7 .endOfText]
  | .composite =>
    [tok 10 .composite, tok 11 .name, tok 12 .openBrace, .many 13 14 [.call .transition],
     .option 15 [.call .initial, .some 16 17 [.call .state]], tok 18 .closeBrace]
  | .simple =>
    [tok 20 .state, tok 21 .name, tok 22 .openBrace, .many 23 24 [.call .transition], tok 25 .closeBrace]
  | .state => [.choice 30 [.call .simple] [.call .composite]]
  | .initial => [tok 40 .initial, tok 41 .arrow, .token 42 [.name] .target, tok 43 .semicolon]
  | .transition =>
    [tok 50 .arrow, .token 51 [.final, .name] .target, tok 52 .colon, .token 53 [.text] .trigger,
     .option 54 [tok 55 .openBracket, .call .guard, tok 56 .closeBracket],
     .option 57 [tok 58 .divide, tok 59 .openBrace, .many 60 61 [.call .separated], tok 62 .closeBrace],
     tok 63 .semicolon]
  | .guard => [.call .variable, .token 70 comparisons .none, .expression 0]
  | .separated => [.call .assignment, tok 80 .semicolon]
  | .file => [.many 90 91 [.call .assignment], tok 92 .endOfText]
  | .assignment => [.call .variable, tok 100 .equal, .expression 0]
  | .expression => expressionBody 0
  | .atom => [.choice 120 [.call .number] [.call .variable]]
  | .number => [tok 130 .number]
  | .variable => [tok 140 .variable]

theorem Rule.opening_eq (r : Rule) : r.opening = (lookAll r.body).kinds := by cases r <;> decide

theorem Rule.not_through (r : Rule) : (lookAll r.body).through = false := by cases r <;> decide

end Statechart
