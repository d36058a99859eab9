/-
  Statechart.Breakpoint — the types of breakpoint, and whether one is hit by the step about
  to be taken.

  A state is about to be reached by a state change if the change leads to it, or if it
  lies between the state that entering the target ends in and the target. A state is
  about to be exited if it is the current state, or an ancestor of it up to the source
  of the transition.
-/

import Statechart.Execution

namespace Statechart

inductive BreakpointType where
  | stateReached
  | stateExited
  | transitionFired
  | assignmentExecuted
  deriving DecidableEq, Repr

namespace BreakpointType

def all : List BreakpointType := [.stateReached, .stateExited, .transitionFired, .assignmentExecuted]

def id : BreakpointType → String
  | .stateReached => "stateReached"
  | .stateExited => "stateExited"
  | .transitionFired => "transitionFired"
  | .assignmentExecuted => "assignmentExecuted"

def ofId? (v : Value) : Option BreakpointType :=
  match v with
  | .str s => all.find? fun t => t.id == s
  | _ => none

theorem ofId?_id (type : BreakpointType) : ofId? (.str type.id) = some type := by
  cases type <;> decide

/-- The entry that says which element to break on. -/
def entry : BreakpointType → String
  | .stateReached => "s"
  | .stateExited => "s"
  | .transitionFired => "t"
  | .assignmentExecuted => "a"

end BreakpointType

/-- The identifier of a target. -/
def Target.id (load : Nat) : Target → Id
  | .state n => .state load n
  | .final i _ => i

/-- A target and its ancestors. -/
def Target.lineage (m : Machine) : Target → List Target
  | .state n => (m.lineage n).map .state
  | .final i ancestors => .final i ancestors :: ancestors.map .state

/-- Whether an entry is this identifier. -/
def Value.isIdent (v : Value) (i : Id) : Bool :=
  match v with
  | .ident j => i == j
  | _ => false

/-- The state with an identifier that entering a target reaches. -/
def reached? (m : Machine) (target : Target) (id : Value) : Except StartError (Option Target) :=
  if id.isIdent (target.id m.load) then .ok (some target)
  else do
    let s ← Execution.arrive m target
    return ((s.lineage m).takeWhile (· != target)).find? fun t => id.isIdent (t.id m.load)

/-- The state with an identifier among some, looked for up to `source`. -/
def exitedAmong? (load : Nat) (source : Id) (id : Value) : List Target → Option Target
  | [] => none
  | t :: ts =>
    if id.isIdent (t.id load) then some t
    else if t.id load = source then none
    else exitedAmong? load source id ts

/-- The state with an identifier that leaving the current state for `source` exits. -/
def exited? (x : Execution) (source : String) (id : Value) : Option Target :=
  exitedAmong? x.machine.load (.state x.machine.load source) id (x.current.lineage x.machine)

/-- The field of the entries that a type of breakpoint reads. -/
def readEntry (type : BreakpointType) (entries : Value) : Except Fault Value :=
  match entries with
  | .record _ =>
    match entries.get? type.entry with
    | some v => .ok v
    | none => .error (.unknownKey (.str type.entry))
  | v => .error (.notRecord v)

/-- Why a step hits a breakpoint, if it does. The entries are read only for the kind of step that the type is
    about. -/
def hit (x : Execution) (type : BreakpointType) (entries : Value) : Step → Except Fault (Option String)
  | .firing f =>
    match type with
    | .transitionFired => do
      let v ← readEntry type entries
      return if v.isIdent f.transition.id then some ("Transition " ++ f.transition.label ++ " is about to be fired.")
        else none
    | _ => .ok none
  | .atomic s =>
    match type, s.action with
    | .assignmentExecuted, .assign a => do
      let v ← readEntry type entries
      return if v.isIdent a.id then some ("Assignment " ++ a.label ++ " is about to be executed.") else none
    | .stateReached, .move _ target => do
      let v ← readEntry type entries
      match reached? x.machine target v with
      | .ok t => return t.map fun t => "State " ++ t.text ++ " is about to be reached."
      | .error e => throw (.start e)
    | .stateExited, .move source _ => do
      let v ← readEntry type entries
      return (exited? x source v).map fun t => "State " ++ t.text ++ " is about to be exited."
    | _, _ => .ok none

/-- Check a breakpoint on an offered step: first its type, then the step. -/
def Execution.check (x : Execution) (type id entries : Value) : Except Fault (Option String) := do
  match BreakpointType.ofId? type with
  | none => throw (.unknownBreakpointType type)
  | some t => hit x t entries (← x.get id)

end Statechart
