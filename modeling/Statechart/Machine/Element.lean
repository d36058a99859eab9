/-
  Statechart.Machine.Element — the elements of a machine: the machine, its states, their
  transitions with guard and assignments.

  A state lists the transitions that lead to states apart from those that lead to FINAL,
  which have no target to refer to. A guard without a comparison and a hole in a list of
  states cannot be shown; the states inside a composite state are shown before its
  transitions are.
-/

import Statechart.Element
import Statechart.Tree.Defect

namespace Statechart

def Guard.toElement (g : Guard) : Except Defect Element := do
  let c ← need .comparison g.comparison
  return .leaf g.id ["Guard"]
    [("variable", .str g.name), ("expression", .str g.expression.text), ("comparator", .str c.text)]

def Assignment.toElement (a : Assignment) : Element :=
  .mk ⟨.minted a.id, ["Assignment"], [("variable", .str a.name), ("value", .str a.expression.text)],
    [], some a.location, some a.label⟩ []

namespace Transition

/-- The reference to the target, if it is a declared state. -/
def targetRef (load : Nat) (t : Transition) : List (String × Ref) :=
  match t.target with
  | .state n => [("target", .one (.minted (.state load n)))]
  | .final _ _ => []

def toElement (load : Nat) (t : Transition) : Except Defect Element := do
  let guard ← t.guard.mapM Guard.toElement
  let assignments := if t.assignments.isEmpty then []
    else [("assignments", Child.many (t.assignments.map (·.toElement)))]
  let children := match guard with
    | some g => ("guard", Child.one g) :: assignments
    | none => assignments
  return .mk ⟨.minted t.id, ["Transition"], [("trigger", .str t.trigger)], t.targetRef load, some t.location,
    some t.label⟩ children

end Transition

/-- The element of a state of this type, with its states and its initial reference if it has such. -/
def State.toElement (load : Nat) (s : State) (type : String) (states : List (String × Child))
    (refs : List (String × Ref)) : Except Defect Element := do
  let ts ← (s.outgoing.filter fun t => !t.target.isFinal).mapM (·.toElement load)
  let fs ← (s.outgoing.filter fun t => t.target.isFinal).mapM (·.toElement load)
  return .mk ⟨.minted s.id, ["State", type], [("name", .str s.name)], refs, s.location, some s.name⟩
    ([("transitions", Child.many ts), ("final transitions", Child.many fs)] ++ states)

mutual

def Member.toElement (load : Nat) : Member → Except Defect Element
  | .simple s => s.toElement load "SimpleState" [] []
  | .composite _ none _ => .error .noInitialState
  | .composite s (some i) ms => do
    let es ← membersToElements load ms
    s.toElement load "CompositeState" [("states", .many es)] [("initialState", .one (.minted (.state load i.target)))]
  | .hole => .error (.absent .state)

def membersToElements (load : Nat) : List Member → Except Defect (List Element)
  | [] => return []
  | m :: ms => do
    let e ← m.toElement load
    return e :: (← membersToElements load ms)

end

/-- A machine that starts nowhere refers to nothing. -/
def Machine.toElement (m : Machine) : Except Defect Element := do
  let es ← membersToElements m.load m.members
  let start : Ident := match m.initial with
    | some i => .minted (.state m.load i.target)
    | none => .given ""
  return .mk ⟨.minted (.machine m.load), ["StateMachine"], [("name", .str m.name)], [("initialState", .one start)],
    none, none⟩ [("states", .many es)]

end Statechart
