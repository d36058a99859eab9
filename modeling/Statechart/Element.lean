/-
  Statechart.Element — model elements: the form in which machines and runs are shown to a
  client.

  `toValue` writes an element as a record; `ofValue?` reads such a record back.
-/

import Statechart.Machine
import Statechart.Value

namespace Statechart

/-- An identifier of this server's, or a text that a client uses as one. -/
inductive Ident where
  | minted (i : Id)
  | given (s : String)
  deriving DecidableEq, Repr

/-- A reference to one element, or to several. -/
inductive Ref where
  | one (i : Ident)
  | many (is : List Ident)
  deriving DecidableEq, Repr

/-- An element apart from its children. -/
structure Header where
  id : Ident
  types : List String
  attributes : List (String × Value)
  refs : List (String × Ref)
  location : Option Location
  label : Option String

mutual

inductive Element where
  | mk (header : Header) (children : List (String × Child))

/-- What stands under a key: one element, or several. -/
inductive Child where
  | one (e : Element)
  | many (es : List Element)

end

def Ident.toValue : Ident → Value
  | .minted i => .ident i
  | .given s => .str s

def Ref.toValue : Ref → Value
  | .one i => i.toValue
  | .many is => .list (is.map Ident.toValue)

def Location.toValue (l : Location) : Value :=
  .record [("line", .int l.line), ("endLine", .int l.endLine),
    ("column", .int l.column), ("endColumn", .int l.endColumn)]

namespace Element

def header : Element → Header
  | .mk h _ => h

/-- The record of an element, given that of its children. A location or label that is missing has no field. -/
def record (h : Header) (children : List (String × Value)) : Value :=
  .record ([("id", h.id.toValue), ("types", .list (h.types.map .str)), ("attributes", .record h.attributes),
      ("children", .record children), ("refs", .record (h.refs.map fun r => (r.1, r.2.toValue)))]
    ++ Value.field? "location" (h.location.map Location.toValue) ++ Value.field? "label" (h.label.map .str))

mutual

def toValue : Element → Value
  | .mk h cs => record h (childrenToValue cs)

def childrenToValue : List (String × Child) → List (String × Value)
  | [] => []
  | (k, c) :: cs => (k, childToValue c) :: childrenToValue cs

def childToValue : Child → Value
  | .one e => e.toValue
  | .many es => .list (allToValue es)

def allToValue : List Element → List Value
  | [] => []
  | e :: es => e.toValue :: allToValue es

end

/-- An element without children, location and label. -/
def leaf (id : Id) (types : List String) (attributes : List (String × Value)) : Element :=
  .mk ⟨.minted id, types, attributes, [], none, none⟩ []

end Element

def Ident.ofValue? : Value → Option Ident
  | .ident i => some (.minted i)
  | .str s => some (.given s)
  | _ => none

def Ref.ofValue? : Value → Option Ref
  | .list vs => (vs.mapM Ident.ofValue?).map .many
  | v => (Ident.ofValue? v).map .one

namespace Value

def int? : Value → Option Int
  | .int n => some n
  | _ => none

def str? : Value → Option String
  | .str s => some s
  | _ => none

def list? : Value → Option (List Value)
  | .list vs => some vs
  | _ => none

def record? : Value → Option (List (String × Value))
  | .record fs => some fs
  | _ => none

/-- A field that may be missing or null. -/
def optional? (key : String) (read : Value → Option α) (v : Value) : Option (Option α) :=
  match v.get? key with
  | none | some .null => some none
  | some w => (read w).map some

end Value

def Location.ofValue? (v : Value) : Option Location := do
  return ⟨← (← v.get? "line").int?, ← (← v.get? "endLine").int?,
    ← (← v.get? "column").int?, ← (← v.get? "endColumn").int?⟩

namespace Element

def readHeader? (v : Value) : Option Header := do
  return {
    id := ← Ident.ofValue? (← v.get? "id")
    types := ← (← (← v.get? "types").list?).mapM Value.str?
    attributes := ← (← v.get? "attributes").record?
    refs := ← (← (← v.get? "refs").record?).mapM fun r => do return (r.1, ← Ref.ofValue? r.2)
    location := ← v.optional? "location" Location.ofValue?
    label := ← v.optional? "label" Value.str? }

mutual

/-- The element a record stands for. -/
def ofValue? : Value → Option Element
  | .record fs => do return .mk (← readHeader? (.record fs)) (← childrenOf? fs)
  | _ => none

/-- The children under the field of that name. -/
def childrenOf? : List (String × Value) → Option (List (String × Child))
  | [] => none
  | (k, v) :: fs => if k = "children" then childrenIn? v else childrenOf? fs

def childrenIn? : Value → Option (List (String × Child))
  | .record fs => childrenOfFields? fs
  | _ => none

def childrenOfFields? : List (String × Value) → Option (List (String × Child))
  | [] => some []
  | (k, v) :: fs => do return (k, ← childOf? v) :: (← childrenOfFields? fs)

def childOf? : Value → Option Child
  | .list vs => do return .many (← allOf? vs)
  | .record fs => do return .one (.mk (← readHeader? (.record fs)) (← childrenOf? fs))
  | _ => none

def allOf? : List Value → Option (List Element)
  | [] => some []
  | v :: vs => do return (← ofValue? v) :: (← allOf? vs)

end

end Element

end Statechart
