/-
  Statechart.Tree.Defect — what keeps a tree from being built into a machine, or a machine
  from being shown, and the words for it.
-/

import Statechart.Text.Quoted

namespace Statechart

/-- A part that something needs and that is not there. -/
inductive Missing where
  | machineName
  /-- The initial section of the machine. -/
  | initialSection
  /-- The initial section of a composite state. -/
  | compositeInitial
  /-- The name an initial section points to. -/
  | initialTarget
  /-- A declaration of the state an initial section points to. -/
  | declaredInitial
  | stateKeyword
  | stateName
  | arrow
  | transitionTarget
  /-- A declaration of the state a transition leads to. -/
  | declaredTarget
  | trigger
  | variable
  | expression
  | assignment
  | assignmentEnd
  | comparison
  /-- A state where a list of states has a hole. -/
  | state
  deriving DecidableEq, Repr

/-- What was asked of the missing part. -/
def Missing.wanted : Missing → String
  | .machineName => "getText"
  | .initialSection => "accept"
  | .compositeInitial => "target"
  | .initialTarget => "text"
  | .declaredInitial => "parent_state"
  | .stateKeyword => "symbol"
  | .stateName => "symbol"
  | .arrow => "symbol"
  | .transitionTarget => "line"
  | .declaredTarget => "name"
  | .trigger => "text"
  | .variable => "getText"
  | .expression => "accept"
  | .assignment => "accept"
  | .assignmentEnd => "line"
  | .comparison => "value"
  | .state => "to_model_element"

inductive Defect where
  | absent (m : Missing)
  /-- A state rule without anything below it. -/
  | emptyState
  | malformedExpression
  | notNumber (text : String)
  | duplicatedName (name : String)
  /-- A composite state, or a machine, that starts nowhere. -/
  | noInitialState
  deriving DecidableEq, Repr

def Defect.message : Defect → String
  | .absent m => "'NoneType' object has no attribute '" ++ m.wanted ++ "'"
  | .emptyState => "object of type 'NoneType' has no len()"
  | .malformedExpression => "Malformed expression."
  | .notNumber s => "could not convert string to float: " ++ Text.quote s
  | .duplicatedName n => "State names must be unique. Name " ++ n ++ " is duplicated."
  | .noInitialState => "No initial state."

/-- The part, if it is there. -/
def need (m : Missing) : Option α → Except Defect α
  | some a => .ok a
  | none => .error (.absent m)

end Statechart
