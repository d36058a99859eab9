/-
  Statechart.Request — the requests of a client, and how they are read from a name and a
  record of arguments.

  Arguments are read in the order in which the request lists them; the first that is
  missing is complained about.
-/

import Statechart.Fault

namespace Statechart

inductive Request where
  | parse (file : Value)
  | start (file entries : Value)
  | state (file : Value)
  | breakpointTypes
  | check (file type step entries : Value)
  | steps (file : Value)
  | enter (file step : Value)
  | execute (file step : Value)
  | location (file step : Value)
  | inspect (file step : Value)

namespace Request

def argument (args : Value) (key : String) : Except Fault Value :=
  match args with
  | .record _ =>
    match args.get? key with
    | some v => .ok v
    | none => .error (.unknownKey (.str key))
  | v => .error (.notRecord v)

/-- The request of that name; there may be none. -/
def ofCall? (name : String) (args : Value) : Option (Except Fault Request) :=
  let arg := argument args
  match name with
  | "parse" => some do return .parse (← arg "sourceFile")
  | "initializeExecution" => some do return .start (← arg "sourceFile") (← arg "entries")
  | "getRuntimeState" => some do return .state (← arg "sourceFile")
  | "getBreakpointTypes" => some (.ok .breakpointTypes)
  | "checkBreakpoint" =>
    some do return .check (← arg "sourceFile") (← arg "typeId") (← arg "stepId") (← arg "entries")
  | "getAvailableSteps" => some do return .steps (← arg "sourceFile")
  | "enterCompositeStep" => some do return .enter (← arg "sourceFile") (← arg "stepId")
  | "executeAtomicStep" => some do return .execute (← arg "sourceFile") (← arg "stepId")
  | "getStepLocation" => some do return .location (← arg "sourceFile") (← arg "stepId")
  | "inspectStep" => some do return .inspect (← arg "sourceFile") (← arg "stepId")
  | _ => none

end Request

end Statechart
