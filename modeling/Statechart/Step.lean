/-
  Statechart.Step — the steps in which a machine is executed.

  A transition is fired in one composite step, the firing. Inside it the transition is
  activated, its assignments are executed one by one, and the state changes; before it
  an event is activated. All but the firing are atomic.
-/

import Statechart.Machine

namespace Statechart

/-- The composite step that fires a transition. -/
structure Firing where
  id : Id
  transition : Transition

/-- What an atomic step does. -/
inductive Action where
  | event (name : String)
  | activate (t : Transition)
  | assign (a : Assignment)
  | move (source : String) (target : Target)

structure Atomic where
  id : Id
  action : Action
  /-- The firing it belongs to. -/
  within : Option Firing
  completed : Bool

inductive Step where
  | atomic (s : Atomic)
  | firing (f : Firing)

/-- A transition as the name of a step. -/
def Transition.display (t : Transition) : String :=
  t.source ++ " --'" ++ t.trigger ++ "'--> " ++ (if t.target.isFinal then "FINAL" else t.target.text)

namespace Action

def name : Action → String
  | .event e => e
  | .activate t => t.display
  | .assign a => a.label
  | .move _ target => "New state: " ++ target.text

def description? : Action → Option String
  | .event _ => some "activateEvent"
  | .activate _ => some "activateTransition"
  | .assign _ => some "executeAssignement"
  | .move _ _ => none

def location? : Action → Option Location
  | .event _ => none
  | .activate t => some t.extent
  | .assign a => some { a.location with endColumn := a.location.endColumn + 1 }
  | .move _ _ => none

end Action

namespace Step

def id : Step → Id
  | .atomic s => s.id
  | .firing f => f.id

def name : Step → String
  | .atomic s => s.action.name
  | .firing f => f.transition.display

def isComposite : Step → Bool
  | .atomic _ => false
  | .firing _ => true

def description? : Step → Option String
  | .atomic s => s.action.description?
  | .firing _ => some "fireTransition"

def location? : Step → Option Location
  | .atomic s => s.action.location?
  | .firing f => some f.transition.extent

/-- The firing a step belongs to. -/
def parent? : Step → Option Firing
  | .atomic s => s.within
  | .firing _ => none

end Step

end Statechart
