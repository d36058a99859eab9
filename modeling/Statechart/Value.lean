/-
  Statechart.Value — the values that requests and answers are made of, and their text in
  messages.

  The fields of a record keep their order. An identifier stays an identifier until an
  answer is given out; `nameOf` says under which name the client knows it.
-/

import Statechart.Id
import Statechart.Text.Quoted
import Statechart.Decimal.Text

namespace Statechart

inductive Value where
  | null
  | bool (b : Bool)
  | int (n : Int)
  | float (x : Float)
  | str (s : String)
  | ident (i : Id)
  | list (vs : List Value)
  | record (fields : List (String × Value))

namespace Value

/-- The field of a record. -/
def get? (key : String) : Value → Option Value
  | .record fs => (fs.find? fun f => f.1 == key).map (·.2)
  | _ => none

/-- An optional field: absent when there is nothing. -/
def field? (key : String) (v : Option Value) : List (String × Value) :=
  match v with
  | none => []
  | some v => [(key, v)]

mutual

/-- The text of a value inside another. -/
def quoted (nameOf : Id → String) : Value → String
  | .null => "None"
  | .bool true => "True"
  | .bool false => "False"
  | .int n => toString n
  | .float x => floatText x
  | .str s => Text.quote s
  | .ident i => Text.quote (nameOf i)
  | .list vs => "[" ++ ", ".intercalate (quotedAll nameOf vs) ++ "]"
  | .record fs => r"{" ++ ", ".intercalate (quotedFields nameOf fs) ++ r"}"

def quotedAll (nameOf : Id → String) : List Value → List String
  | [] => []
  | v :: vs => v.quoted nameOf :: quotedAll nameOf vs

def quotedFields (nameOf : Id → String) : List (String × Value) → List String
  | [] => []
  | (k, v) :: fs => (Text.quote k ++ ": " ++ v.quoted nameOf) :: quotedFields nameOf fs

end

/-- The text of a value in a message. -/
def text (nameOf : Id → String) : Value → String
  | .str s => s
  | .ident i => nameOf i
  | v => v.quoted nameOf

mutual

/-- The identifiers in a value, in order. -/
def ids : Value → List Id
  | .ident i => [i]
  | .list vs => idsAll vs
  | .record fs => idsFields fs
  | _ => []

def idsAll : List Value → List Id
  | [] => []
  | v :: vs => v.ids ++ idsAll vs

def idsFields : List (String × Value) → List Id
  | [] => []
  | (_, v) :: fs => v.ids ++ idsFields fs

end

mutual

/-- The value with its texts that name an identifier replaced by it. -/
def resolve (idOf : String → Option Id) : Value → Value
  | .str s =>
    match idOf s with
    | some i => .ident i
    | none => .str s
  | .list vs => .list (resolveAll idOf vs)
  | .record fs => .record (resolveFields idOf fs)
  | v => v

def resolveAll (idOf : String → Option Id) : List Value → List Value
  | [] => []
  | v :: vs => v.resolve idOf :: resolveAll idOf vs

def resolveFields (idOf : String → Option Id) : List (String × Value) → List (String × Value)
  | [] => []
  | (k, v) :: fs => (k, v.resolve idOf) :: resolveFields idOf fs

end

mutual

/-- The value with its identifiers replaced by their names. -/
def named (nameOf : Id → String) : Value → Value
  | .ident i => .str (nameOf i)
  | .list vs => .list (namedAll nameOf vs)
  | .record fs => .record (namedFields nameOf fs)
  | v => v

def namedAll (nameOf : Id → String) : List Value → List Value
  | [] => []
  | v :: vs => v.named nameOf :: namedAll nameOf vs

def namedFields (nameOf : Id → String) : List (String × Value) → List (String × Value)
  | [] => []
  | (k, v) :: fs => (k, v.named nameOf) :: namedFields nameOf fs

end

end Value

/-- The identifiers given out so far; the first is called `#1`, the next `#2`, and so on. -/
structure Names where
  given : List Id
  deriving DecidableEq, Repr

namespace Names

def empty : Names := ⟨[]⟩

def nameAt (n : Nat) : String := "#" ++ toString (n + 1)

def nameOf (ns : Names) (i : Id) : String := nameAt (ns.given.idxOf i)

def idOf? (ns : Names) (s : String) : Option Id :=
  (ns.given.zipIdx.find? fun x => nameAt x.2 == s).map (·.1)

def give (ns : Names) (i : Id) : Names := if ns.given.contains i then ns else ⟨ns.given ++ [i]⟩

/-- Give out the identifiers of an answer in order. -/
def giveAll (ns : Names) (is : List Id) : Names := is.foldl give ns

end Names

end Statechart
