/-
  Statechart.Machine.OfTree — the machine a tree stands for.

  First all states are declared (`Registry`), so that a transition may lead to a state
  further down; a name declared twice is refused. Then each state is built from its
  node with its transitions. Each transition is entered at once into two lists, what
  leaves its source and what leads to its target, which may be a state that is built
  later, or earlier, or is being built; a state has its list once all are entered.
  Repaired trees are taken as they are: a part that is missing is a defect only where
  something is asked of it, in the order in which the parts are asked for.
-/

import Statechart.Machine
import Statechart.Expr.OfTree

namespace Statechart

/-- A state as it is first declared. -/
structure Declaration where
  name : String
  composite : Bool
  location : Location
  /-- The composite state around it. -/
  container : Option String
  deriving DecidableEq, Repr

abbrev Registry := List Declaration

namespace Registry

def find? (r : Registry) (name : String) : Option Declaration := List.find? (fun d => d.name == name) r

/-- The states declared before one. -/
def before (r : Registry) (name : String) : Registry := r.takeWhile fun d => d.name != name

/-- The parent of a state once the states of the registry were built: only simple states ever get one. -/
def parentOf (r : Registry) (name : String) : Option String :=
  (List.find? (fun d => d.name == name && !d.composite) r).bind (·.container)

end Registry

/-- From the keyword of a state to its name. -/
def stateLocation (keyword name : Token) : Location :=
  ⟨keyword.line, name.line, keyword.column + 1, name.column + 1 + (name.stop - name.start)⟩

/-- One more state, unless its name is taken. -/
def declare (r : Registry) (container : Option String) (composite : Bool) (cs : List Tree) :
    Except Defect (Registry × String) := do
  let keyword ← need .stateKeyword (Tree.tokenOf? (if composite then .composite else .state) cs)
  let name ← need .stateName (Tree.tokenOf? .name cs)
  if (r.find? name.text).isSome then throw (.duplicatedName name.text)
  return (r ++ [⟨name.text, composite, stateLocation keyword name, container⟩], name.text)

mutual

/-- Declare the states of a tree. -/
def declareTree (container : Option String) (r : Registry) : Tree → Except Defect Registry
  | .node n cs =>
    match n.rule with
    | .state => declareFirst container r cs
    | .simple => return (← declare r container false cs).1
    | .composite => do
      let (r, name) ← declare r container true cs
      declareStates (some name) r cs
    | _ => return r
  | _ => return r

/-- A state rule stands for its first child; one without children stands for nothing. -/
def declareFirst (container : Option String) (r : Registry) : List Tree → Except Defect Registry
  | [] => .error .emptyState
  | c :: _ => declareTree container r c

/-- Declare the states among some children. -/
def declareStates (container : Option String) (r : Registry) : List Tree → Except Defect Registry
  | [] => return r
  | c :: cs =>
    if c.hasRule .state then do declareStates container (← declareTree container r c) cs
    else declareStates container r cs

end

/-- The registry of a machine's node. -/
def Registry.ofTree (t : Tree) : Except Defect Registry := declareStates none [] t.children

/-- Comparisons in the order in which they are looked for. -/
def comparisonKinds : List (Kind × Comparison) :=
  [(.equal, .equal), (.notEqual, .notEqual), (.less, .less), (.lessEqual, .lessEqual), (.greater, .greater),
   (.greaterEqual, .greaterEqual)]

def comparisonOf? (cs : List Tree) : Option Comparison :=
  (comparisonKinds.find? fun x => (Tree.tokenOf? x.1 cs).isSome).map (·.2)

def Guard.ofTree (id : Id) (t : Tree) : Except Defect Guard := do
  let cs := t.children
  let x ← need .variable (Tree.firstOf? .variable cs)
  let e ← need .expression (Tree.firstOf? .expression cs)
  return ⟨id, x.text, ← Expr.ofTree readNumber e, comparisonOf? cs⟩

def Assignment.ofTree (id : Id) (t : Tree) : Except Defect Assignment := do
  let a ← need .assignment (Tree.firstOf? .assignment t.children)
  let cs := a.children
  let x ← need .variable (Tree.firstOf? .variable cs)
  let e ← need .expression (Tree.firstOf? .expression cs)
  let e ← Expr.ofTree readNumber e
  match t with
  | .node n _ =>
    let stop ← need .assignmentEnd n.stop
    return ⟨id, x.text, e, ⟨n.start.line, stop.line, n.start.column + 1, stop.column + 1⟩⟩
  | _ => throw (.absent .assignment)

/-- A text without the quotation marks around it. -/
def unquoted (s : String) : String :=
  .ofList (((s.toList.dropWhile (· == '\'')).reverse.dropWhile (· == '\'')).reverse)

/-- What the states of a machine are built with. -/
structure Builder where
  load : Nat
  registry : Registry

namespace Builder

def target (b : Builder) (source : String) (index : Nat) (around : List String) (text : String) :
    Except Defect Target :=
  if text = "FINAL" then .ok (.final (.final b.load source index) around)
  else if (b.registry.find? text).isSome then .ok (.state text)
  else .error (.absent .declaredTarget)

def assignments (b : Builder) (source : String) (index : Nat) (cs : List Tree) : Except Defect (List Assignment) :=
  ((Tree.allOf .separated cs).zipIdx).mapM fun (a, i) => Assignment.ofTree (.assignment b.load source index i) a

/-- A transition of `source`, the state inside `around`. -/
def transition (b : Builder) (source : String) (around : List String) (index : Nat) (n : Node) (cs : List Tree) :
    Except Defect Transition := do
  let arrow ← need .arrow (Tree.tokenOf? .arrow cs)
  let guard ← (Tree.firstOf? .guard cs).mapM (Guard.ofTree (.guard b.load source index))
  let assignments ← b.assignments source index cs
  let head ← need .transitionTarget n.target
  let location : Location := ⟨arrow.line, head.line, arrow.column + 1, head.column + head.text.length⟩
  let trigger ← need .trigger n.trigger
  let target ← b.target source index around head.text
  let stop := n.stop.getD arrow
  return {
    id := .transition b.load source index
    source, target, guard, assignments, location
    trigger := unquoted trigger.text
    extent := ⟨location.line, stop.line, location.column, stop.column + stop.text.length + 1⟩ }

def transitions (b : Builder) (source : String) (around : List String) (cs : List Tree) :
    Except Defect (List Transition) :=
  ((Tree.allOf .transition cs).zipIdx).mapM fun (t, i) =>
    match t with
    | .node n ts => b.transition source around i n ts
    | _ => throw (.absent .arrow)

/-- The initial pseudo-state that leads to what a node remembers, made once the states of `built` are. -/
def initial (b : Builder) (built : Registry) : Tree → Except Defect Initial
  | .node n _ => do
    let t ← need .initialTarget n.target
    let _ ← need .declaredInitial (b.registry.find? t.text)
    return ⟨t.text, built.parentOf t.text⟩
  | _ => throw (.absent .initialTarget)

def state (b : Builder) (name : String) (ancestors : List String) (outgoing : List Transition) : State :=
  ⟨.state b.load name, name, (b.registry.find? name).map (·.location), ancestors, outgoing⟩

end Builder

/-- The lists of transitions as far as building has come: what leaves each state, and what leads to each state or
    final pseudo-state. -/
structure Links where
  outgoing : Lists String
  incoming : Lists Target

/-- No transition is entered yet. -/
def Links.empty : Links := ⟨[], []⟩

/-- Enter a transition at both of its ends. -/
def Links.enter (l : Links) (e : Transition) : Links :=
  ⟨l.outgoing.enter e.source e, l.incoming.enter e.target e⟩

def Links.enterAll (l : Links) (es : List Transition) : Links := es.foldl enter l

namespace Builder

mutual

/-- Build the state of a tree inside `around` and enter its transitions. What leaves the state is not filled in. -/
def visit (b : Builder) (around : List String) (l : Links) : Tree → Except Defect (Links × Member)
  | .node n cs =>
    match n.rule with
    | .state => b.visitFirst around l cs
    | .simple => do
      let name ← need .stateName (Tree.tokenOf? .name cs)
      let ts ← b.transitions name.text around cs
      return (l.enterAll ts, .simple (b.state name.text around []))
    | .composite => do
      let name ← need .stateName (Tree.tokenOf? .name cs)
      let i ← need .compositeInitial (Tree.firstOf? .initial cs)
      let i ← b.initial (b.registry.before name.text) i
      let ts ← b.transitions name.text around cs
      let (l, ms) ← b.visitStates [name.text] (l.enterAll ts) cs
      return (l, .composite (b.state name.text [] []) (some i) ms)
    | _ => return (l, .hole)
  | _ => return (l, .hole)

/-- Build the state of the first child. -/
def visitFirst (b : Builder) (around : List String) (l : Links) : List Tree → Except Defect (Links × Member)
  | [] => .error .emptyState
  | c :: _ => b.visit around l c

/-- Build the states among some children. -/
def visitStates (b : Builder) (around : List String) (l : Links) : List Tree → Except Defect (Links × List Member)
  | [] => return (l, [])
  | c :: cs =>
    if c.hasRule .state then do
      let (l, m) ← b.visit around l c
      let (l, ms) ← b.visitStates around l cs
      return (l, m :: ms)
    else b.visitStates around l cs

end

end Builder

mutual

/-- A member whose states have what is listed under their names. -/
def Member.fill (l : Lists String) : Member → Member
  | .simple s => .simple { s with outgoing := l.under s.name }
  | .composite s i ms => .composite { s with outgoing := l.under s.name } i (fillAll l ms)
  | .hole => .hole

def fillAll (l : Lists String) : List Member → List Member
  | [] => []
  | m :: ms => m.fill l :: fillAll l ms

end

/-- The machine of a tree; `load` tells its elements from those of other machines. -/
def Machine.ofTree (load : Nat) (t : Tree) : Except Defect Machine := do
  let cs := t.children
  let name ← need .machineName (Tree.tokenOf? .name cs)
  let registry ← Registry.ofTree t
  let b : Builder := ⟨load, registry⟩
  let i ← need .initialSection (Tree.firstOf? .initial cs)
  let i ← b.initial [] i
  let (l, ms) ← b.visitStates [] .empty cs
  return ⟨load, name.text, some i, fillAll l.outgoing ms, l.incoming⟩

end Statechart
