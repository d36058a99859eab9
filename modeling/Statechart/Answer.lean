/-
  Statechart.Answer — what a client is told: the descriptions of breakpoint types and steps,
  and the answers to requests, with the record each is written as.

  A field for something that is missing is left out, but for the description of a
  breakpoint type, which is null. Why a breakpoint was hit is told only if it was.
-/

import Statechart.Breakpoint
import Statechart.Element

namespace Statechart

inductive ParameterType where
  | primitive
  | element
  deriving DecidableEq, Repr

def ParameterType.text : ParameterType → String
  | .primitive => "primitive"
  | .element => "element"

def ParameterType.read (s : String) : Except Fault ParameterType :=
  if s = "primitive" then .ok .primitive
  else if s = "element" then .ok .element
  else .error (.unknownParameterType s)

inductive PrimitiveType where
  | boolean
  | string
  | number
  deriving DecidableEq, Repr

def PrimitiveType.text : PrimitiveType → String
  | .boolean => "boolean"
  | .string => "string"
  | .number => "number"

def PrimitiveType.read (s : String) : Except Fault PrimitiveType :=
  if s = "boolean" then .ok .boolean
  else if s = "string" then .ok .string
  else if s = "number" then .ok .number
  else .error (.unknownPrimitiveType s)

/-- A parameter of a breakpoint type. -/
structure Parameter where
  name : String
  type : ParameterType
  multivalued : Bool
  primitiveType : Option PrimitiveType
  elementType : Option String
  deriving DecidableEq, Repr

def Parameter.toValue (p : Parameter) : Value :=
  .record ([("name", .str p.name), ("isMultivalued", .bool p.multivalued), ("type", .str p.type.text)]
    ++ Value.field? "primitiveType" (p.primitiveType.map fun t => .str t.text)
    ++ Value.field? "elementType" (p.elementType.map .str))

/-- The description of a breakpoint type. -/
structure TypeView where
  id : String
  name : String
  parameters : List Parameter
  description : Option String
  deriving DecidableEq, Repr

def TypeView.toValue (t : TypeView) : Value :=
  .record [("id", .str t.id), ("name", .str t.name), ("description", (t.description.map .str).getD .null),
    ("parameters", .list (t.parameters.map Parameter.toValue))]

namespace BreakpointType

def name : BreakpointType → String
  | .stateReached => "State Reached"
  | .stateExited => "State Exited"
  | .transitionFired => "Transition Fired"
  | .assignmentExecuted => "Assignment Executed"

def elementType : BreakpointType → String
  | .stateReached => "State"
  | .stateExited => "State"
  | .transitionFired => "Transition"
  | .assignmentExecuted => "Assignment"

def description : BreakpointType → String
  | .stateReached => "Breaks when a specific state is about to be reached."
  | .stateExited => "Breaks when a specific state is about to be exited."
  | .transitionFired => "Breaks when a specific transition is about to be fired."
  | .assignmentExecuted => "Breaks when a specific assignment is about to be executed."

def view (t : BreakpointType) : TypeView :=
  ⟨t.id, t.name, [⟨t.entry, .element, false, none, some t.elementType⟩], some t.description⟩

end BreakpointType

/-- The description of a step. -/
structure StepView where
  id : Ident
  name : String
  composite : Bool
  description : Option String
  deriving DecidableEq, Repr

def Step.view (s : Step) : StepView := ⟨.minted s.id, s.name, s.isComposite, s.description?⟩

def StepView.toValue (s : StepView) : Value :=
  .record ([("id", s.id.toValue), ("name", .str s.name), ("isComposite", .bool s.composite)]
    ++ Value.field? "description" (s.description.map .str))

/-- What an offered step looks like from inside. -/
structure Inspection where
  completed : Bool
  ongoing : Option Id
  completedSteps : List Id
  parent : Option Id
  /-- The names of the steps inside, if it is composite. -/
  contained : Except Fault (List String)

/-- An answer to a request. -/
inductive Answer where
  | done
  | root (e : Element)
  | snapshot (e : Element)
  | breakpointTypes (ts : List TypeView)
  | check (activated : Bool) (message : Option String)
  | steps (ss : List StepView)
  | completed (ids : List Ident)
  | location (l : Option Location)
  | inspection (i : Inspection)

namespace Answer

def optionalIdent : Option Id → Value
  | some i => .ident i
  | none => .null

def toValue : Answer → Value
  | .done => .record []
  | .root e => .record [("astRoot", e.toValue)]
  | .snapshot e => .record [("runtimeStateRoot", e.toValue)]
  | .breakpointTypes ts => .record [("breakpointTypes", .list (ts.map TypeView.toValue))]
  | .check activated message =>
    .record (("isActivated", .bool activated) :: (if activated then Value.field? "message" (message.map .str) else []))
  | .steps ss => .record [("availableSteps", .list (ss.map StepView.toValue))]
  | .completed ids => .record [("completedSteps", .list (ids.map Ident.toValue))]
  | .location l => .record (Value.field? "location" (l.map Location.toValue))
  | .inspection i =>
    .record [("isCompleted", .bool i.completed), ("ongoing", optionalIdent i.ongoing),
      ("completedSteps", .list (i.completedSteps.map .ident)), ("parent", optionalIdent i.parent)]

end Answer

end Statechart
