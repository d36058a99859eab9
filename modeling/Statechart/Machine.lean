/-
  Statechart.Machine — statecharts: states and composite states, transitions with a
  trigger, a guard and assignments, initial and final pseudo-states.

  Within a machine a state is known by its name. A state inherits the transitions of its
  `ancestors`: a simple state inside a composite one has that composite state as its
  only ancestor, and a composite state has none, wherever it stands. Each transition to
  FINAL has a final pseudo-state of its own.

  `nested` follows initial targets from a state to the simple state in which execution
  starts; initial targets that lead back to where they came from have no such state.
-/

import Statechart.Expr
import Statechart.Id

namespace Statechart

/-- A range of a source text, lines and columns counted from 1. -/
structure Location where
  line : Int
  endLine : Int
  column : Int
  endColumn : Int
  deriving DecidableEq, Repr

structure Guard where
  id : Id
  /-- The variable compared. -/
  name : String
  expression : Expr Float
  /-- Missing only if the source had none. -/
  comparison : Option Comparison

/-- Whether a guard holds. The expression is evaluated before the variable is read; a guard without a comparison
    neither holds nor fails. -/
def Guard.eval (v : Env) (g : Guard) : Except EvalError (Option Bool) := do
  let y ← g.expression.eval v
  let x ← v.read g.name
  return g.comparison.map fun c => c.holds x y

structure Assignment where
  id : Id
  /-- The variable set. -/
  name : String
  expression : Expr Float
  location : Location

def Assignment.label (a : Assignment) : String := a.name ++ " = " ++ a.expression.text

def Assignment.run (v : Env) (a : Assignment) : Except EvalError Env := do
  return v.set a.name (← a.expression.eval v)

/-- Where a transition leads: to a declared state, or to a final pseudo-state. -/
inductive Target where
  | state (name : String)
  | final (id : Id) (ancestors : List String)
  deriving DecidableEq, Repr

structure Transition where
  id : Id
  source : String
  target : Target
  trigger : String
  guard : Option Guard
  assignments : List Assignment
  /-- From the arrow to the target. -/
  location : Location
  /-- From the arrow to the end. -/
  extent : Location

/-- The name of a target; a final pseudo-state has none. -/
def Target.text : Target → String
  | .state n => n
  | .final _ _ => "None"

def Target.isFinal : Target → Bool
  | .state _ => false
  | .final _ _ => true

def Transition.label (t : Transition) : String := t.source ++ " -> " ++ t.target.text

/-- A state apart from the states it contains. -/
structure State where
  id : Id
  name : String
  location : Option Location
  /-- The states whose transitions it inherits, the nearest first. -/
  ancestors : List String
  outgoing : List Transition

/-- The number of its ancestors. -/
def State.depth (s : State) : Nat := s.ancestors.length

def State.parent? (s : State) : Option String := s.ancestors.head?

/-- An initial pseudo-state: the state it leads to, and the parent that state had when the pseudo-state was made. -/
structure Initial where
  target : String
  parent : Option String
  deriving DecidableEq, Repr

/-- A place in a list of states. -/
inductive Member where
  | simple (s : State)
  | composite (s : State) (initial : Option Initial) (members : List Member)
  /-- Nothing could be built here. -/
  | hole

/-- Transitions that are listed under keys, the keys in the order in which they came up. -/
abbrev Lists (α : Type) := List (α × List Transition)

namespace Lists

variable {α : Type} [DecidableEq α]

/-- What is listed under a key. -/
def under (l : Lists α) (k : α) : List Transition :=
  match l with
  | [] => []
  | (j, es) :: l => if j = k then es else under l k

/-- One more transition under a key, behind those that are there. -/
def enter (l : Lists α) (k : α) (e : Transition) : Lists α :=
  match l with
  | [] => [(k, [e])]
  | (j, es) :: l => if j = k then (j, es ++ [e]) :: l else (j, es) :: enter l k e

end Lists

structure Machine where
  load : Nat
  name : String
  initial : Option Initial
  members : List Member
  /-- The transitions that lead to each state and to each final pseudo-state. -/
  incoming : Lists Target

/-- A declared state as it stands alone: what it is apart from its members. -/
inductive Declared where
  | simple (s : State)
  | composite (s : State) (initial : Option Initial)

def Declared.state : Declared → State
  | .simple s => s
  | .composite s _ => s

mutual

/-- The states of a member, each before those it contains. -/
def Member.declared : Member → List Declared
  | .simple s => [.simple s]
  | .composite s i ms => .composite s i :: declaredAll ms
  | .hole => []

def declaredAll : List Member → List Declared
  | [] => []
  | m :: ms => m.declared ++ declaredAll ms

end

namespace Machine

/-- All states, each before those it contains. -/
def declared (m : Machine) : List Declared := declaredAll m.members

def find? (m : Machine) (name : String) : Option Declared := m.declared.find? fun d => d.state.name == name

def state? (m : Machine) (name : String) : Option State := (m.find? name).map Declared.state

/-- All transitions, in the order of their sources. -/
def transitions (m : Machine) : List Transition := m.declared.flatMap fun d => d.state.outgoing

def outgoing (m : Machine) (name : String) : List Transition := ((m.state? name).map (·.outgoing)).getD []

/-- A state and its ancestors. -/
def lineage (m : Machine) (name : String) : List String :=
  name :: ((m.state? name).map (·.ancestors)).getD []

/-- The ancestors of a target. -/
def ancestorsOf (m : Machine) : Target → List String
  | .state n => ((m.state? n).map (·.ancestors)).getD []
  | .final _ ancestors => ancestors

end Machine

/-- Why there is no state in which execution starts. -/
inductive StartError where
  /-- Something starts nowhere. -/
  | noInitialState
  /-- Initial targets lead round in a circle. -/
  | endless
  deriving DecidableEq, Repr

/-- Follow initial targets over at most so many states. -/
def Machine.follow (m : Machine) : Nat → String → Except StartError String
  | 0, _ => .error .endless
  | n + 1, name =>
    match m.find? name with
    | some (.composite _ none) => .error .noInitialState
    | some (.composite _ (some i)) => m.follow n i.target
    | _ => .ok name

/-- The simple state that entering a state ends in. -/
def Machine.nested (m : Machine) (name : String) : Except StartError String :=
  m.follow (m.declared.length + 1) name

/-- The simple state in which the machine starts. -/
def Machine.start (m : Machine) : Except StartError String :=
  match m.initial with
  | none => .error .noInitialState
  | some i => m.nested i.target

end Statechart
