/-
  Statechart.Proofs.Renumbering.Machine — the number of a machine is only a label.

  Every identifier begins with the number under which its machine was built or its
  execution started. To `renumber` something is to replace these numbers by a function;
  this module says what that is for all data there is.

  Proved: to build a machine under another number is to renumber it (`ofTree_renumber`),
  and what is shown of a renumbered machine is what was shown, renumbered
  (`toElement_renumber`). States are looked up by name, so a renumbered machine has the
  same states, renumbered. What leads to a final pseudo-state is listed under the identifier
  of that pseudo-state, so building needs a function that keeps identifiers apart; else none
  is compared here, and the function can be any.
-/

import Statechart.Session
import Statechart.Proofs.Built
import Mathlib.Logic.Function.Basic

namespace Statechart

/-! ## Renumbering data -/

def Id.renumber (ρ : Nat → Nat) : Id → Id
  | .machine load => .machine (ρ load)
  | .state load name => .state (ρ load) name
  | .transition load source index => .transition (ρ load) source index
  | .final load source index => .final (ρ load) source index
  | .guard load source index => .guard (ρ load) source index
  | .assignment load source index place => .assignment (ρ load) source index place
  | .step run count => .step (ρ run) count
  | .snapshot run count => .snapshot (ρ run) count
  | .registry run count => .registry (ρ run) count

theorem Id.renumber_injective {ρ : Nat → Nat} (hρ : Function.Injective ρ) : Function.Injective (Id.renumber ρ) := by
  intro i j h
  cases i <;> cases j <;> simp_all [Id.renumber, hρ.eq_iff]

namespace Value

mutual

def renumber (ρ : Nat → Nat) : Value → Value
  | .ident i => .ident (i.renumber ρ)
  | .list vs => .list (renumberAll ρ vs)
  | .record fs => .record (renumberFields ρ fs)
  | v => v

def renumberAll (ρ : Nat → Nat) : List Value → List Value
  | [] => []
  | v :: vs => v.renumber ρ :: renumberAll ρ vs

def renumberFields (ρ : Nat → Nat) : List (String × Value) → List (String × Value)
  | [] => []
  | (k, v) :: fs => (k, v.renumber ρ) :: renumberFields ρ fs

end

theorem renumberFields_eq (ρ : Nat → Nat) (fs : List (String × Value)) :
    renumberFields ρ fs = fs.map fun f => (f.1, f.2.renumber ρ) := by
  induction fs with
  | nil => rfl
  | cons f fs ih => rw [renumberFields, ih, List.map_cons]

theorem get?_renumber (ρ : Nat → Nat) (key : String) (v : Value) :
    (v.renumber ρ).get? key = (v.get? key).map (renumber ρ) := by
  cases v with
  | record fs =>
    rw [renumber, get?, get?, renumberFields_eq, List.find?_map, Option.map_map, Option.map_map]
    rfl
  | _ => rfl

end Value

def Ident.renumber (ρ : Nat → Nat) : Ident → Ident
  | .minted i => .minted (i.renumber ρ)
  | .given s => .given s

def Ref.renumber (ρ : Nat → Nat) : Ref → Ref
  | .one i => .one (i.renumber ρ)
  | .many is => .many (is.map (Ident.renumber ρ))

def Header.renumber (ρ : Nat → Nat) (h : Header) : Header :=
  { h with
    id := h.id.renumber ρ
    attributes := h.attributes.map fun a => (a.1, a.2.renumber ρ)
    refs := h.refs.map fun r => (r.1, r.2.renumber ρ) }

mutual

def Element.renumber (ρ : Nat → Nat) : Element → Element
  | .mk h cs => .mk (h.renumber ρ) (renumberChildren ρ cs)

def Child.renumber (ρ : Nat → Nat) : Child → Child
  | .one e => .one (e.renumber ρ)
  | .many es => .many (renumberElements ρ es)

def renumberChildren (ρ : Nat → Nat) : List (String × Child) → List (String × Child)
  | [] => []
  | (k, c) :: cs => (k, c.renumber ρ) :: renumberChildren ρ cs

def renumberElements (ρ : Nat → Nat) : List Element → List Element
  | [] => []
  | e :: es => e.renumber ρ :: renumberElements ρ es

end

theorem renumberElements_eq (ρ : Nat → Nat) (es : List Element) :
    renumberElements ρ es = es.map (Element.renumber ρ) := by
  induction es with
  | nil => rfl
  | cons e es ih => rw [renumberElements, ih, List.map_cons]

theorem renumberChildren_eq (ρ : Nat → Nat) (cs : List (String × Child)) :
    renumberChildren ρ cs = cs.map fun c => (c.1, c.2.renumber ρ) := by
  induction cs with
  | nil => rfl
  | cons c cs ih => rw [renumberChildren, ih, List.map_cons]

def Guard.renumber (ρ : Nat → Nat) (g : Guard) : Guard := { g with id := g.id.renumber ρ }

def Assignment.renumber (ρ : Nat → Nat) (a : Assignment) : Assignment := { a with id := a.id.renumber ρ }

def Target.renumber (ρ : Nat → Nat) : Target → Target
  | .state n => .state n
  | .final i ancestors => .final (i.renumber ρ) ancestors

theorem Target.renumber_injective {ρ : Nat → Nat} (hρ : Function.Injective ρ) :
    Function.Injective (Target.renumber ρ) := by
  intro t u h
  cases t <;> cases u <;> simp_all [Target.renumber, (Id.renumber_injective hρ).eq_iff]

def Transition.renumber (ρ : Nat → Nat) (t : Transition) : Transition :=
  { t with
    id := t.id.renumber ρ
    target := t.target.renumber ρ
    guard := t.guard.map (Guard.renumber ρ)
    assignments := t.assignments.map (Assignment.renumber ρ) }

def State.renumber (ρ : Nat → Nat) (s : State) : State :=
  { s with id := s.id.renumber ρ, outgoing := s.outgoing.map (Transition.renumber ρ) }

mutual

def Member.renumber (ρ : Nat → Nat) : Member → Member
  | .simple s => .simple (s.renumber ρ)
  | .composite s i ms => .composite (s.renumber ρ) i (renumberMembers ρ ms)
  | .hole => .hole

def renumberMembers (ρ : Nat → Nat) : List Member → List Member
  | [] => []
  | m :: ms => m.renumber ρ :: renumberMembers ρ ms

end

def Lists.renumber (ρ : Nat → Nat) (l : Lists Target) : Lists Target :=
  l.map fun x => (x.1.renumber ρ, x.2.map (Transition.renumber ρ))

def Machine.renumber (ρ : Nat → Nat) (m : Machine) : Machine :=
  { m with
    load := ρ m.load
    members := renumberMembers ρ m.members
    incoming := m.incoming.renumber ρ }

def Declared.renumber (ρ : Nat → Nat) : Declared → Declared
  | .simple s => .simple (s.renumber ρ)
  | .composite s i => .composite (s.renumber ρ) i

def Firing.renumber (ρ : Nat → Nat) (f : Firing) : Firing := ⟨f.id.renumber ρ, f.transition.renumber ρ⟩

def Action.renumber (ρ : Nat → Nat) : Action → Action
  | .event e => .event e
  | .activate t => .activate (t.renumber ρ)
  | .assign a => .assign (a.renumber ρ)
  | .move source target => .move source (target.renumber ρ)

def Atomic.renumber (ρ : Nat → Nat) (s : Atomic) : Atomic :=
  ⟨s.id.renumber ρ, s.action.renumber ρ, s.within.map (Firing.renumber ρ), s.completed⟩

def Step.renumber (ρ : Nat → Nat) : Step → Step
  | .atomic s => .atomic (s.renumber ρ)
  | .firing f => .firing (f.renumber ρ)

def Execution.renumber (ρ : Nat → Nat) (x : Execution) : Execution :=
  { x with
    machine := x.machine.renumber ρ
    run := ρ x.run
    transition := x.transition.map (Transition.renumber ρ)
    current := x.current.renumber ρ
    ongoing := x.ongoing.map (Firing.renumber ρ)
    available := x.available.map (Step.renumber ρ) }

def Fault.renumber (ρ : Nat → Nat) : Fault → Fault
  | .unknownKey v => .unknownKey (v.renumber ρ)
  | .badKey v => .badKey (v.renumber ρ)
  | .notRecord v => .notRecord (v.renumber ρ)
  | .unknownStep v => .unknownStep (v.renumber ρ)
  | .unknownBreakpointType v => .unknownBreakpointType (v.renumber ρ)
  | .fileNotFound v => .fileNotFound (v.renumber ρ)
  | .isDirectory v => .isDirectory (v.renumber ρ)
  | .notFileName v => .notFileName (v.renumber ρ)
  | f => f

/-- A result with what it holds, or why there is none, renumbered. -/
def renumbered {α : Type} (ρ : Nat → Nat) (g : α → α) : Except Fault α → Except Fault α
  | .ok a => .ok (g a)
  | .error f => .error (f.renumber ρ)

def StepView.renumber (ρ : Nat → Nat) (v : StepView) : StepView := { v with id := v.id.renumber ρ }

def Inspection.renumber (ρ : Nat → Nat) (i : Inspection) : Inspection :=
  { i with
    ongoing := i.ongoing.map (Id.renumber ρ)
    completedSteps := i.completedSteps.map (Id.renumber ρ)
    parent := i.parent.map (Id.renumber ρ)
    contained := renumbered ρ id i.contained }

def Answer.renumber (ρ : Nat → Nat) : Answer → Answer
  | .root e => .root (e.renumber ρ)
  | .snapshot e => .snapshot (e.renumber ρ)
  | .steps ss => .steps (ss.map (StepView.renumber ρ))
  | .completed ids => .completed (ids.map (Ident.renumber ρ))
  | .inspection i => .inspection (i.renumber ρ)
  | a => a

def Reply.renumber (ρ : Nat → Nat) (r : Reply) : Reply := ⟨r.complaints, renumbered ρ (Answer.renumber ρ) r.result⟩

def Request.renumber (ρ : Nat → Nat) : Request → Request
  | .parse file => .parse (file.renumber ρ)
  | .start file entries => .start (file.renumber ρ) (entries.renumber ρ)
  | .state file => .state (file.renumber ρ)
  | .breakpointTypes => .breakpointTypes
  | .check file type step entries =>
    .check (file.renumber ρ) (type.renumber ρ) (step.renumber ρ) (entries.renumber ρ)
  | .steps file => .steps (file.renumber ρ)
  | .enter file step => .enter (file.renumber ρ) (step.renumber ρ)
  | .execute file step => .execute (file.renumber ρ) (step.renumber ρ)
  | .location file step => .location (file.renumber ρ) (step.renumber ρ)
  | .inspect file step => .inspect (file.renumber ρ) (step.renumber ρ)

/-! ## Results of results -/

section

variable {ε α β γ : Type}

theorem map_error (e : ε) (g : α → β) : (throw e : Except ε α).map g = throw e := rfl

theorem mapM_map {f : α → Except ε β} {g : α → Except ε γ} {h : β → γ} {as : List α}
    (hg : ∀ a ∈ as, g a = (f a).map h) : as.mapM g = (as.mapM f).map (List.map h) := by
  induction as with
  | nil => rfl
  | cons a as ih =>
    rw [List.mapM_cons, List.mapM_cons, hg a List.mem_cons_self, ih fun b hb => hg b (List.mem_cons_of_mem _ hb)]
    simp only [bind_map, map_bind', map_pure', List.map_cons]

theorem optionMapM_map {f : α → Except ε β} {g : α → Except ε γ} {h : β → γ} (o : Option α)
    (hg : ∀ a, g a = (f a).map h) : o.mapM g = (o.mapM f).map (Option.map h) := by
  cases o with
  | none => rfl
  | some a =>
    simp only [Option.mapM_some, hg]
    cases f a <;> rfl

end

/-! ## Building a machine -/

variable {ρ : Nat → Nat}

theorem Guard.ofTree_renumber (id : Id) (t : Tree) :
    Guard.ofTree (id.renumber ρ) t = (Guard.ofTree id t).map (Guard.renumber ρ) := by
  simp only [Guard.ofTree, map_bind', map_pure', Guard.renumber]

theorem Assignment.ofTree_renumber (id : Id) (t : Tree) :
    Assignment.ofTree (id.renumber ρ) t = (Assignment.ofTree id t).map (Assignment.renumber ρ) := by
  cases t with
  | leaf _ => simp only [Assignment.ofTree, map_bind', map_error]
  | fault _ => simp only [Assignment.ofTree, map_bind', map_error]
  | node n cs => simp only [Assignment.ofTree, map_bind', map_pure', Assignment.renumber]

namespace Builder

def renumber (ρ : Nat → Nat) (b : Builder) : Builder := { b with load := ρ b.load }

variable {b : Builder} {source : String} {around : List String}

theorem target_renumber (index : Nat) (text : String) :
    (b.renumber ρ).target source index around text = (b.target source index around text).map (Target.renumber ρ) := by
  unfold target
  split
  · rfl
  · show (if (b.registry.find? text).isSome then _ else _) = _
    split <;> rfl

theorem assignments_renumber (index : Nat) (cs : List Tree) :
    (b.renumber ρ).assignments source index cs =
      (b.assignments source index cs).map (List.map (Assignment.renumber ρ)) :=
  mapM_map fun a _ => Assignment.ofTree_renumber (.assignment b.load source index a.2) a.1

theorem transition_renumber (index : Nat) (n : Node) (cs : List Tree) :
    (b.renumber ρ).transition source around index n cs =
      (b.transition source around index n cs).map (Transition.renumber ρ) := by
  have hguard : (Tree.firstOf? .guard cs).mapM (Guard.ofTree (.guard (b.renumber ρ).load source index)) =
      ((Tree.firstOf? .guard cs).mapM (Guard.ofTree (.guard b.load source index))).map
        (Option.map (Guard.renumber ρ)) :=
    optionMapM_map _ fun t => Guard.ofTree_renumber (.guard b.load source index) t
  simp only [transition, map_bind', map_pure', target_renumber, assignments_renumber, bind_map, hguard]
  rfl

theorem transitions_renumber (cs : List Tree) :
    (b.renumber ρ).transitions source around cs =
      (b.transitions source around cs).map (List.map (Transition.renumber ρ)) := by
  refine mapM_map fun c _ => ?_
  obtain ⟨c, i⟩ := c
  cases c with
  | node n ts => exact transition_renumber i n ts
  | leaf _ => rfl
  | fault _ => rfl

theorem initial_renumber (built : Registry) (t : Tree) : (b.renumber ρ).initial built t = b.initial built t := by
  cases t <;> rfl

theorem state_renumber (name : String) (ancestors : List String) (outgoing : List Transition) :
    (b.renumber ρ).state name ancestors (outgoing.map (Transition.renumber ρ)) =
      (b.state name ancestors outgoing).renumber ρ := rfl

mutual

theorem member_renumber (b : Builder) : ∀ (t : Tree) (around : List String),
    (b.renumber ρ).member around t = (b.member around t).map (Member.renumber ρ)
  | .leaf _, _ => rfl
  | .fault _, _ => rfl
  | .node n cs, around => by
    unfold member
    split
    · exact firstMember_renumber b cs around
    · simp only [map_bind', map_pure', transitions_renumber, bind_map, state_renumber, Member.renumber]
    · simp only [map_bind', map_pure', transitions_renumber, bind_map, initial_renumber, members_renumber b cs]
      rfl
    · rfl

theorem firstMember_renumber (b : Builder) : ∀ (cs : List Tree) (around : List String),
    (b.renumber ρ).firstMember around cs = (b.firstMember around cs).map (Member.renumber ρ)
  | [], _ => rfl
  | c :: _, around => member_renumber b c around

theorem members_renumber (b : Builder) : ∀ (cs : List Tree) (around : List String),
    (b.renumber ρ).members around cs = (b.members around cs).map (renumberMembers ρ)
  | [], _ => rfl
  | c :: cs, around => by
    unfold members
    split
    · simp only [map_bind', map_pure', member_renumber b c, members_renumber b cs, bind_map, renumberMembers]
    · exact members_renumber b cs around

end

end Builder

mutual

theorem Member.declared_renumber : ∀ m : Member, (m.renumber ρ).declared = m.declared.map (Declared.renumber ρ)
  | .simple s => rfl
  | .composite s i ms => by
    simp only [Member.renumber, Member.declared, declaredAll_renumber ms, List.map_cons, Declared.renumber]
  | .hole => rfl

theorem declaredAll_renumber : ∀ ms : List Member,
    declaredAll (renumberMembers ρ ms) = (declaredAll ms).map (Declared.renumber ρ)
  | [] => rfl
  | m :: ms => by
    simp only [renumberMembers, declaredAll, Member.declared_renumber m, declaredAll_renumber ms, List.map_append]

end

theorem Declared.state_renumber (d : Declared) : (d.renumber ρ).state = d.state.renumber ρ := by cases d <;> rfl

theorem departures_renumber (ds : List Declared) :
    departures (ds.map (Declared.renumber ρ)) = (departures ds).map (Transition.renumber ρ) := by
  simp only [departures, List.flatMap_map, List.map_flatMap, Declared.state_renumber, State.renumber]

theorem Lists.enter_renumber (hρ : Function.Injective ρ) (l : Lists Target) (x : Target) (e : Transition) :
    (l.renumber ρ).enter (x.renumber ρ) (e.renumber ρ) = (l.enter x e).renumber ρ := by
  induction l with
  | nil => rfl
  | cons y l ih =>
    rw [renumber] at ih ⊢
    rw [List.map_cons, enter, enter, ih]
    by_cases hy : y.1 = x
    · rw [if_pos hy, if_pos (congrArg _ hy), renumber, List.map_cons, List.map_append]
      rfl
    · rw [if_neg hy, if_neg fun h => hy (Target.renumber_injective hρ h)]
      rfl

theorem Links.enterAll_renumber (hρ : Function.Injective ρ) {l k : Links} (h : k.incoming = l.incoming.renumber ρ)
    (es : List Transition) :
    (k.enterAll (es.map (Transition.renumber ρ))).incoming = (l.enterAll es).incoming.renumber ρ := by
  induction es generalizing l k with
  | nil => exact h
  | cons e es ih =>
    refine @ih (l.enter e) (k.enter (e.renumber ρ)) ?_
    rw [enter, h]
    exact Lists.enter_renumber hρ l.incoming e.target e

/-- A machine that is built under another number is the machine, renumbered. -/
theorem ofTree_renumber (hρ : Function.Injective ρ) (load : Nat) (t : Tree) :
    Machine.ofTree (ρ load) t = (Machine.ofTree load t).map (Machine.renumber ρ) := by
  have hmembers (r : Registry) := Builder.members_renumber (ρ := ρ) ⟨load, r⟩ t.children []
  have hinitial (r : Registry) (i : Tree) := Builder.initial_renumber (ρ := ρ) (b := ⟨load, r⟩) [] i
  have hincoming (ms : List Member) := Links.enterAll_renumber (l := .empty) (k := .empty) hρ rfl
    (departures (declaredAll ms))
  simp only [Builder.renumber] at hmembers hinitial
  simp only [ofTree_eq_assemble, Machine.assemble, map_bind', map_pure', hmembers, hinitial, bind_map,
    declaredAll_renumber, departures_renumber, hincoming]
  rfl

/-! ## Showing a machine -/

theorem Guard.toElement_renumber (g : Guard) : (g.renumber ρ).toElement = g.toElement.map (Element.renumber ρ) := by
  simp only [Guard.toElement, map_bind', map_pure']
  rfl

theorem Assignment.toElement_renumber (a : Assignment) : (a.renumber ρ).toElement = a.toElement.renumber ρ := rfl

theorem Target.isFinal_renumber (t : Target) : (t.renumber ρ).isFinal = t.isFinal := by cases t <;> rfl

theorem Target.text_renumber (t : Target) : (t.renumber ρ).text = t.text := by cases t <;> rfl

theorem Transition.label_renumber (t : Transition) : (t.renumber ρ).label = t.label := by
  show t.source ++ " -> " ++ (t.target.renumber ρ).text = _
  rw [Target.text_renumber]
  rfl

theorem Transition.targetRef_renumber (load : Nat) (t : Transition) :
    (t.renumber ρ).targetRef (ρ load) = (t.targetRef load).map fun r => (r.1, r.2.renumber ρ) := by
  unfold Transition.targetRef
  rw [show (t.renumber ρ).target = t.target.renumber ρ from rfl]
  cases t.target <;> rfl

/-- The assignments of a transition as children of its element. -/
theorem assignments_toElement_renumber (as : List Assignment) :
    (if (as.map (Assignment.renumber ρ)).isEmpty then []
      else [("assignments", Child.many ((as.map (Assignment.renumber ρ)).map (·.toElement)))]) =
    renumberChildren ρ (if as.isEmpty then [] else [("assignments", Child.many (as.map (·.toElement)))]) := by
  cases as with
  | nil => rfl
  | cons a as =>
    show [("assignments", Child.many (((a :: as).map (Assignment.renumber ρ)).map (·.toElement)))] =
      [("assignments", Child.many (renumberElements ρ ((a :: as).map (·.toElement))))]
    rw [renumberElements_eq, List.map_map, List.map_map]
    rfl

theorem Transition.toElement_renumber (load : Nat) (t : Transition) :
    (t.renumber ρ).toElement (ρ load) = (t.toElement load).map (Element.renumber ρ) := by
  have hguard : (t.renumber ρ).guard.mapM Guard.toElement =
      (t.guard.mapM Guard.toElement).map (Option.map (Element.renumber ρ)) := by
    show (t.guard.map (Guard.renumber ρ)).mapM Guard.toElement = _
    cases t.guard with
    | none => rfl
    | some g =>
      simp only [Option.map_some, Option.mapM_some, Guard.toElement_renumber]
      cases g.toElement <;> rfl
  have hassignments := assignments_toElement_renumber (ρ := ρ) t.assignments
  simp only [Transition.toElement, map_bind', map_pure', hguard, bind_map, Transition.targetRef_renumber,
    Transition.label_renumber]
  congr 1
  funext g
  simp only [show (t.renumber ρ).assignments = t.assignments.map (Assignment.renumber ρ) from rfl, hassignments]
  cases g <;> rfl

theorem filter_renumber (p : Bool → Bool) (ts : List Transition) :
    (ts.map (Transition.renumber ρ)).filter (fun t => p t.target.isFinal) =
      (ts.filter fun t => p t.target.isFinal).map (Transition.renumber ρ) := by
  rw [List.filter_map]
  congr 2
  funext t
  exact congrArg p (Target.isFinal_renumber t.target)

theorem transitions_toElement_renumber (load : Nat) (ts : List Transition) :
    (ts.map (Transition.renumber ρ)).mapM (Transition.toElement (ρ load)) =
      (ts.mapM (Transition.toElement load)).map (List.map (Element.renumber ρ)) := by
  rw [List.mapM_map]
  exact mapM_map fun t _ => t.toElement_renumber load

theorem State.toElement_renumber (load : Nat) (s : State) (type : String) (states : List (String × Child))
    (refs : List (String × Ref)) :
    (s.renumber ρ).toElement (ρ load) type (renumberChildren ρ states) (refs.map fun r => (r.1, r.2.renumber ρ)) =
      (s.toElement load type states refs).map (Element.renumber ρ) := by
  have houtgoing : (s.renumber ρ).outgoing = s.outgoing.map (Transition.renumber ρ) := rfl
  have hstates := filter_renumber (ρ := ρ) (fun b => !b) s.outgoing
  have hfinals := filter_renumber (ρ := ρ) (fun b => b) s.outgoing
  simp only [State.toElement, houtgoing, hstates, hfinals, transitions_toElement_renumber, map_bind', map_pure',
    bind_map]
  congr 1
  funext ts
  congr 1
  funext fs
  simp only [Element.renumber, renumberChildren_eq, List.map_append, List.map_cons, Child.renumber, renumberElements_eq]
  rfl

mutual

theorem Member.toElement_renumber (load : Nat) : ∀ m : Member,
    (m.renumber ρ).toElement (ρ load) = (m.toElement load).map (Element.renumber ρ)
  | .simple s => s.toElement_renumber load "SimpleState" [] []
  | .composite s none ms => rfl
  | .composite s (some i) ms => by
    simp only [Member.renumber, Member.toElement, map_bind', membersToElements_renumber load ms, bind_map]
    congr 1
    funext es
    rw [← renumberElements_eq]
    exact s.toElement_renumber load "CompositeState" [("states", .many es)]
      [("initialState", .one (.minted (.state load i.target)))]
  | .hole => rfl

theorem membersToElements_renumber (load : Nat) : ∀ ms : List Member,
    membersToElements (ρ load) (renumberMembers ρ ms) = (membersToElements load ms).map (List.map (Element.renumber ρ))
  | [] => rfl
  | m :: ms => by
    simp only [renumberMembers, membersToElements, map_bind', map_pure', Member.toElement_renumber load m,
      membersToElements_renumber load ms, bind_map, List.map_cons]

end

theorem toElement_renumber (m : Machine) : (m.renumber ρ).toElement = m.toElement.map (Element.renumber ρ) := by
  have hmembers := membersToElements_renumber (ρ := ρ) m.load m.members
  simp only [Machine.toElement, map_bind', map_pure']
  rw [show (m.renumber ρ).members = renumberMembers ρ m.members from rfl,
    show (m.renumber ρ).load = ρ m.load from rfl, hmembers, bind_map]
  congr 1
  funext es
  rw [← renumberElements_eq, show (m.renumber ρ).initial = m.initial from rfl]
  cases m.initial <;> rfl

/-! ## Looking up states -/

namespace Machine

variable (m : Machine) (n : String)

theorem declared_renumber : (m.renumber ρ).declared = m.declared.map (Declared.renumber ρ) :=
  declaredAll_renumber m.members

theorem find?_renumber : (m.renumber ρ).find? n = (m.find? n).map (Declared.renumber ρ) := by
  have hname : (fun d : Declared => d.state.name == n) ∘ Declared.renumber ρ = fun d => d.state.name == n := by
    funext d
    simp only [Function.comp_apply, Declared.state_renumber]
    rfl
  rw [find?, find?, declared_renumber, List.find?_map, hname]

theorem state?_renumber : (m.renumber ρ).state? n = (m.state? n).map (State.renumber ρ) := by
  rw [state?, state?, find?_renumber]
  cases m.find? n with
  | none => rfl
  | some d => exact congrArg some d.state_renumber

theorem outgoing_renumber : (m.renumber ρ).outgoing n = (m.outgoing n).map (Transition.renumber ρ) := by
  rw [outgoing, outgoing, state?_renumber]
  cases m.state? n <;> rfl

theorem lineage_renumber : (m.renumber ρ).lineage n = m.lineage n := by
  rw [lineage, lineage, state?_renumber]
  cases m.state? n <;> rfl

theorem follow_renumber (k : Nat) : (m.renumber ρ).follow k n = m.follow k n := by
  induction k generalizing n with
  | zero => rfl
  | succ k ih =>
    rw [follow, follow, find?_renumber]
    cases m.find? n with
    | none => rfl
    | some d =>
      cases d with
      | simple s => rfl
      | composite s i =>
        cases i with
        | none => rfl
        | some i => exact ih i.target

theorem nested_renumber : (m.renumber ρ).nested n = m.nested n := by
  rw [nested, nested, follow_renumber, declared_renumber, List.length_map]

theorem start_renumber : (m.renumber ρ).start = m.start := by
  rw [start, start, show (m.renumber ρ).initial = m.initial from rfl]
  cases m.initial with
  | none => rfl
  | some i => exact m.nested_renumber i.target

end Machine

end Statechart
