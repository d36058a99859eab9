/-
  Statechart.Execution — a machine being executed step by step.

  Idle, an execution offers the triggers of the transitions that are enabled in the
  current state or one of its ancestors. Once an event is chosen it offers one firing
  for each enabled transition with that trigger. Inside a firing it offers the one
  atomic step that comes next. In a final pseudo-state it offers nothing.

  `execute` performs an atomic step and then finds out what to offer next. If a guard
  then has no value, the step has been performed all the same and the steps offered
  before stay, so that nothing can be executed any more.
-/

import Statechart.Fault
import Statechart.Step

namespace Statechart

structure Execution where
  machine : Machine
  /-- Tells the steps of this execution from those of others. -/
  run : Nat
  /-- How many identifiers were made for it. -/
  count : Nat
  event : Option String
  transition : Option Transition
  /-- How many assignments of the transition were executed. -/
  assigned : Nat
  current : Target
  /-- The variables that are set. -/
  env : Env
  fired : Nat
  /-- The firing that was entered. -/
  ongoing : Option Firing
  available : List Step

/-- Whether a transition may be taken: it has no guard, or one that holds. -/
def Transition.enabled (v : Env) (t : Transition) : Except EvalError Bool :=
  match t.guard with
  | none => .ok true
  | some g => do return (← g.eval v) = some true

/-- The enabled ones among some transitions. The guards are evaluated in order, and the first that has no value
    decides. -/
def enabledAmong (v : Env) : List Transition → Except EvalError (List Transition)
  | [] => .ok []
  | t :: ts => do
    let e ← t.enabled v
    let rest ← enabledAmong v ts
    return if e then t :: rest else rest

/-- Put a text into an ascending list, unless it is there. -/
def insertText (s : String) : List String → List String
  | [] => [s]
  | t :: ts => if s = t then t :: ts else if s < t then s :: t :: ts else t :: insertText s ts

/-- Texts in ascending order, each once. -/
def ascending (ss : List String) : List String := ss.foldr insertText []

namespace Execution

/-- The transitions of the current state and of its ancestors, the nearest first. -/
def candidates (x : Execution) : List Transition :=
  match x.current with
  | .state n => (x.machine.lineage n).flatMap x.machine.outgoing
  | .final _ _ => []

/-- The triggers of the enabled transitions. -/
def events (x : Execution) : Except EvalError (List String) := do
  return ascending ((← enabledAmong x.env x.candidates).map (·.trigger))

/-- The enabled transitions with a trigger. -/
def reactions (x : Execution) (e : String) : Except EvalError (List Transition) :=
  enabledAmong x.env (x.candidates.filter fun t => t.trigger = e)

/-- The atomic step that comes next in a firing. -/
def next (x : Execution) (f : Firing) : Action :=
  match x.transition with
  | none => .activate f.transition
  | some t =>
    match f.transition.assignments[x.assigned]? with
    | some a => .assign a
    | none => .move t.source t.target

/-- A step made now, as the `i`-th of several. -/
def stepId (x : Execution) (i : Nat) : Id := .step x.run (x.count + i)

/-- The steps to offer. -/
def offer (x : Execution) : Except EvalError (List Step) :=
  if x.current.isFinal then .ok []
  else
    match x.ongoing, x.event with
    | some f, _ => .ok [.atomic ⟨x.stepId 0, x.next f, some f, false⟩]
    | none, none => do
      return (← x.events).zipIdx.map fun (e, i) => .atomic ⟨x.stepId i, .event e, none, false⟩
    | none, some e => do
      return (← x.reactions e).zipIdx.map fun (t, i) => .firing ⟨x.stepId i, t⟩

/-- The execution once these steps are offered. -/
def offering (x : Execution) (steps : List Step) : Execution :=
  { x with available := steps, count := x.count + steps.length }

/-- The execution of a machine from its start. -/
def start (run : Nat) (m : Machine) : Except Fault Execution :=
  match m.start with
  | .error e => .error (.start e)
  | .ok name =>
    let x : Execution := {
      machine := m, run, count := 0, event := none, transition := none, assigned := 0, current := .state name
      env := .empty, fired := 0, ongoing := none, available := [] }
    match x.offer with
    | .error e => .error (.eval e)
    | .ok steps => .ok (x.offering steps)

/-- A firing is completed when no event is active, an atomic step when it was executed. -/
def isCompleted (x : Execution) : Step → Bool
  | .atomic s => s.completed
  | .firing _ => x.event.isNone

/-- The steps completed with a step: itself and the firing around it. -/
def completedWith (x : Execution) (s : Step) : List Id :=
  (if x.isCompleted s then [s.id] else []) ++
    (match s.parent? with
     | some f => if x.isCompleted (.firing f) then [f.id] else []
     | none => [])

/-- Of a step and the firing around it, the first that is not completed. -/
def ongoingFrom? (x : Execution) (s : Step) : Option Id :=
  if x.isCompleted s then
    match s.parent? with
    | some f => if x.isCompleted (.firing f) then none else some f.id
    | none => none
  else some s.id

/-- The offered step with an identifier. -/
def find (x : Execution) (id : Value) : Except Fault (Option Step) :=
  match id with
  | .ident i => .ok (x.available.find? fun s => s.id = i)
  | .list vs => .error (.badKey (.list vs))
  | .record fs => .error (.badKey (.record fs))
  | _ => .ok none

/-- The offered step with an identifier, or the complaint that there is none. -/
def get (x : Execution) (id : Value) : Except Fault Step := do
  match ← x.find id with
  | some s => return s
  | none => throw (.unknownStep id)

/-- Where a target leads: to the simple state entering it ends in. -/
def arrive (m : Machine) : Target → Except StartError Target
  | .state n => do return .state (← m.nested n)
  | .final i ancestors => .ok (.final i ancestors)

/-- What an action does to the execution. -/
def perform (x : Execution) : Action → Except Fault Execution
  | .event e => .ok { x with event := some e }
  | .activate t => .ok { x with transition := some t }
  | .assign a =>
    match a.run x.env with
    | .ok v => .ok { x with env := v, assigned := x.assigned + 1 }
    | .error e => .error (.eval e)
  | .move _ target =>
    match arrive x.machine target with
    | .ok s => .ok { x with current := s, event := none, transition := none, assigned := 0, fired := x.fired + 1 }
    | .error e => .error (.start e)

/-- Mark an offered step as executed. -/
def complete (x : Execution) (id : Id) : Execution :=
  { x with available := x.available.map fun
      | .atomic s => if s.id = id then .atomic { s with completed := true } else .atomic s
      | .firing f => .firing f }

/-- The firing a step leaves open. -/
def leaveOpen (x : Execution) (s : Atomic) : Execution :=
  { x with ongoing := if x.event.isNone then none else s.within }

/-- Execute an offered atomic step; the answer is the steps completed with it. -/
def execute (x : Execution) (id : Value) : Execution × Except Fault (List Id) :=
  match x.get id with
  | .error e => (x, .error e)
  | .ok step =>
    if x.isCompleted step then (x, .error .stepCompleted)
    else
      match step with
      | .firing _ => (x, .error .stepNotAtomic)
      | .atomic s =>
        match x.perform s.action with
        | .error e => (x, .error e)
        | .ok y =>
          let y := (y.complete s.id).leaveOpen s
          match y.offer with
          | .error e => (y, .error (.eval e))
          | .ok steps => (y.offering steps, .ok (y.completedWith (.atomic { s with completed := true })))

/-- Enter an offered firing. -/
def enter (x : Execution) (id : Value) : Execution × Except Fault Unit :=
  match x.get id with
  | .error e => (x, .error e)
  | .ok (.atomic _) => (x, .error .stepNotComposite)
  | .ok (.firing f) =>
    let y := { x with ongoing := some f }
    match y.offer with
    | .error e => (y, .error (.eval e))
    | .ok steps => (y.offering steps, .ok ())

end Execution

end Statechart
