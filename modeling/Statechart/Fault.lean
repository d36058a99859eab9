/-
  Statechart.Fault — why a request is refused, and the words for it.
-/

import Statechart.Expr
import Statechart.Machine
import Statechart.Tree.Defect
import Statechart.Value

namespace Statechart

inductive Fault where
  | eval (e : EvalError)
  | defect (d : Defect)
  | start (e : StartError)
  /-- Nothing is kept under this key. -/
  | unknownKey (key : Value)
  /-- This cannot be a key. -/
  | badKey (key : Value)
  /-- This has no fields. -/
  | notRecord (v : Value)
  | unknownStep (id : Value)
  | stepCompleted
  | stepNotAtomic
  | stepNotComposite
  | unknownBreakpointType (id : Value)
  | executionDone
  | fileNotFound (name : Value)
  | isDirectory (name : Value)
  /-- This cannot name a file. -/
  | notFileName (name : Value)
  /-- A file holds a byte that is no ASCII character. -/
  | notAscii (byte : UInt8) (offset : Nat)
  | unknownParameterType (text : String)
  | unknownPrimitiveType (text : String)

def EvalError.message : EvalError → String
  | .unset n => Text.quote n
  | .divisionByZero => "float division by zero"
  | .powerOfFloats => "unsupported operand type(s) for ^: 'float' and 'float'"

/-- Running round in a circle has no message. -/
def StartError.message? : StartError → Option String
  | .noInitialState => some "No initial state."
  | .endless => none

/-- What sort of value this is. -/
def Value.sort : Value → String
  | .null => "NoneType"
  | .bool _ => "bool"
  | .int _ => "int"
  | .float _ => "float"
  | .str _ => "str"
  | .ident _ => "str"
  | .list _ => "list"
  | .record _ => "dict"

def notRecordMessage (v : Value) : String :=
  match v with
  | .str _ | .ident _ => "string indices must be integers, not 'str'"
  | .list _ => "list indices must be integers or slices, not str"
  | v => "'" ++ v.sort ++ "' object is not subscriptable"

/-- The words for a fault; `nameOf` says what the client calls an identifier. -/
def Fault.message? (nameOf : Id → String) : Fault → Option String
  | .eval e => some e.message
  | .defect d => some d.message
  | .start e => e.message?
  | .unknownKey k => some (k.quoted nameOf)
  | .badKey k => some ("unhashable type: '" ++ k.sort ++ "'")
  | .notRecord v => some (notRecordMessage v)
  | .unknownStep v => some ("No step with id " ++ v.text nameOf ++ ".")
  | .stepCompleted => some "Step already completed."
  | .stepNotAtomic => some "Step must be atomic."
  | .stepNotComposite => some "Step must be composite."
  | .unknownBreakpointType v => some ("Unknown breakpoint type " ++ v.text nameOf ++ ".")
  | .executionDone => some "Execution already done."
  | .fileNotFound v => some ("[Errno 2] No such file or directory: " ++ v.quoted nameOf)
  | .isDirectory v => some ("[Errno 21] Is a directory: " ++ v.quoted nameOf)
  | .notFileName v => some ("expected str, bytes or os.PathLike object, not " ++ v.sort)
  | .notAscii b n => some ("'ascii' codec can't decode byte 0x" ++ .ofList (Text.hexByte b.toNat) ++ " in position "
      ++ toString n ++ ": ordinal not in range(128)")
  | .unknownParameterType s => some (Text.quote s ++ " is not a valid BreakpointParameterType")
  | .unknownPrimitiveType s => some (Text.quote s ++ " is not a valid PrimitiveType")

end Statechart
