/-
  Statechart.Proofs.Renumbering.Execution — the number of an execution is only a label.

  To offer steps and to start an execution is to make identifiers; to find a step or to
  check a breakpoint is to compare them, so there the function that renumbers has to be
  injective.

  Proved, for one operation after the other, that to renumber before it or after it is the
  same: `start_renumber`, `execute_renumber`, `enter_renumber`, `check_renumber`,
  `snapshot_renumber`, `inspect_renumber`.
-/

import Statechart.Proofs.Offer
import Statechart.Proofs.Renumbering.Machine

namespace Statechart

variable {ρ : Nat → Nat}

/-! ## Offering steps -/

theorem Transition.enabled_renumber (v : Env) (t : Transition) : (t.renumber ρ).enabled v = t.enabled v := by
  rw [Transition.enabled, Transition.enabled, show (t.renumber ρ).guard = t.guard.map (Guard.renumber ρ) from rfl]
  cases t.guard <;> rfl

theorem enabledAmong_renumber (v : Env) (ts : List Transition) :
    enabledAmong v (ts.map (Transition.renumber ρ)) = (enabledAmong v ts).map (List.map (Transition.renumber ρ)) := by
  induction ts with
  | nil => rfl
  | cons t ts ih =>
    simp only [List.map_cons, enabledAmong, Transition.enabled_renumber, ih, map_bind', map_pure', bind_map]
    congr 1
    funext e
    congr 1
    funext rest
    cases e <;> rfl

namespace Execution

variable (x : Execution)

theorem candidates_renumber : (x.renumber ρ).candidates = x.candidates.map (Transition.renumber ρ) := by
  rw [candidates, candidates, show (x.renumber ρ).current = x.current.renumber ρ from rfl,
    show (x.renumber ρ).machine = x.machine.renumber ρ from rfl]
  cases x.current with
  | final i ancestors => rfl
  | state n =>
    show ((x.machine.renumber ρ).lineage n).flatMap (x.machine.renumber ρ).outgoing = _
    rw [Machine.lineage_renumber, List.map_flatMap]
    congr 1
    funext k
    exact x.machine.outgoing_renumber k

theorem events_renumber : (x.renumber ρ).events = x.events := by
  have htrigger : (fun t : Transition => t.trigger) ∘ Transition.renumber ρ = fun t => t.trigger := rfl
  simp only [events, candidates_renumber, enabledAmong_renumber, show (x.renumber ρ).env = x.env from rfl, bind_map,
    List.map_map, htrigger]

theorem reactions_renumber (e : String) :
    (x.renumber ρ).reactions e = (x.reactions e).map (List.map (Transition.renumber ρ)) := by
  rw [reactions, reactions, candidates_renumber, List.filter_map, show (x.renumber ρ).env = x.env from rfl,
    enabledAmong_renumber]
  rfl

theorem next_renumber (f : Firing) : (x.renumber ρ).next (f.renumber ρ) = (x.next f).renumber ρ := by
  have hassign : (f.renumber ρ).transition.assignments[(x.renumber ρ).assigned]? =
      f.transition.assignments[x.assigned]?.map (Assignment.renumber ρ) := List.getElem?_map
  rw [next, next, hassign, show (x.renumber ρ).transition = x.transition.map (Transition.renumber ρ) from rfl]
  cases x.transition with
  | none => rfl
  | some t => cases f.transition.assignments[x.assigned]? <;> rfl

theorem offer_renumber : (x.renumber ρ).offer = x.offer.map (List.map (Step.renumber ρ)) := by
  have hfinal : (x.renumber ρ).current.isFinal = x.current.isFinal := Target.isFinal_renumber x.current
  cases hf : x.current.isFinal with
  | true =>
    rw [offer_final hf, offer_final (hfinal.trans hf)]
    rfl
  | false =>
    have hf' := hfinal.trans hf
    cases ho : x.ongoing with
    | some f =>
      have ho' : (x.renumber ρ).ongoing = some (f.renumber ρ) := congrArg (Option.map (Firing.renumber ρ)) ho
      rw [offer_within hf ho, offer_within hf' ho', next_renumber]
      rfl
    | none =>
      have ho' : (x.renumber ρ).ongoing = none := congrArg (Option.map (Firing.renumber ρ)) ho
      cases he : x.event with
      | none =>
        have hsteps (es : List String) : es.zipIdx.map (x.renumber ρ).eventStep =
            (es.zipIdx.map x.eventStep).map (Step.renumber ρ) := by
          rw [List.map_map]
          rfl
        rw [offer_idle hf ho he, offer_idle hf' ho' he, events_renumber]
        simp only [map_bind', map_pure', hsteps]
      | some e =>
        have hsteps (ts : List Transition) : (ts.map (Transition.renumber ρ)).zipIdx.map (x.renumber ρ).firingStep =
            (ts.zipIdx.map x.firingStep).map (Step.renumber ρ) := by
          rw [List.zipIdx_map, List.map_map, List.map_map]
          rfl
        rw [offer_chosen hf ho he, offer_chosen hf' ho' he, reactions_renumber]
        simp only [map_bind', map_pure', bind_map, hsteps]

theorem offering_renumber (steps : List Step) :
    (x.renumber ρ).offering (steps.map (Step.renumber ρ)) = (x.offering steps).renumber ρ := by
  simp only [offering, renumber, List.length_map]

/-- An execution before anything is offered. -/
def fresh (run : Nat) (m : Machine) (name : String) : Execution where
  machine := m
  run := run
  count := 0
  event := none
  transition := none
  assigned := 0
  current := .state name
  env := .empty
  fired := 0
  ongoing := none
  available := []

theorem start_of_ok {run : Nat} {m : Machine} {name : String} (h : m.start = .ok name) :
    Execution.start run m = ((fresh run m name).offer.mapError Fault.eval).map (fresh run m name).offering := by
  unfold Execution.start fresh
  simp only [h]
  split
  · rename_i e he
    rw [he]
    rfl
  · rename_i steps he
    rw [he]
    rfl

/-- An execution that is started under another number is the execution, renumbered. -/
theorem start_renumber (run : Nat) (m : Machine) :
    Execution.start (ρ run) (m.renumber ρ) = renumbered ρ (Execution.renumber ρ) (Execution.start run m) := by
  cases hm : m.start with
  | error e =>
    have hm' : (m.renumber ρ).start = .error e := m.start_renumber.trans hm
    simp only [Execution.start, hm, hm']
    rfl
  | ok name =>
    have hm' : (m.renumber ρ).start = .ok name := m.start_renumber.trans hm
    have hfresh : fresh (ρ run) (m.renumber ρ) name = (fresh run m name).renumber ρ := rfl
    rw [start_of_ok hm, start_of_ok hm', hfresh, offer_renumber]
    cases (fresh run m name).offer with
    | error e => rfl
    | ok steps => exact congrArg Except.ok ((fresh run m name).offering_renumber steps)

/-- Whether an execution starts does not depend on its number. -/
theorem start_error {run run' : Nat} {m : Machine} {f : Fault} (h : Execution.start run m = .error f) :
    Execution.start run' m = .error f := by
  cases hm : m.start with
  | error e =>
    simp only [Execution.start, hm] at h ⊢
    exact h
  | ok name =>
    have hevents : (fresh run m name).events = (fresh run' m name).events := rfl
    rw [start_of_ok hm, offer_idle rfl rfl rfl] at h ⊢
    rw [hevents] at h
    cases he : (fresh run' m name).events with
    | error e =>
      rw [he] at h
      exact h
    | ok es =>
      rw [he] at h
      cases h

end Execution

/-! ## Taking a step -/

theorem Step.id_renumber (s : Step) : (s.renumber ρ).id = s.id.renumber ρ := by cases s <;> rfl

theorem Step.parent?_renumber (s : Step) : (s.renumber ρ).parent? = s.parent?.map (Firing.renumber ρ) := by
  cases s <;> rfl

namespace Execution

variable (x : Execution)

theorem find_renumber (hρ : Function.Injective ρ) (id : Value) :
    (x.renumber ρ).find (id.renumber ρ) = renumbered ρ (Option.map (Step.renumber ρ)) (x.find id) := by
  cases id with
  | ident i =>
    have hid : (fun s : Step => decide (s.id = i.renumber ρ)) ∘ Step.renumber ρ = fun s => decide (s.id = i) := by
      funext s
      simp only [Function.comp_apply, Step.id_renumber, (Id.renumber_injective hρ).eq_iff]
    show Except.ok ((x.available.map (Step.renumber ρ)).find? fun s => decide (s.id = i.renumber ρ)) = _
    rw [List.find?_map, hid]
    rfl
  | _ => rfl

theorem get_renumber (hρ : Function.Injective ρ) (id : Value) :
    (x.renumber ρ).get (id.renumber ρ) = renumbered ρ (Step.renumber ρ) (x.get id) := by
  rw [get, get, find_renumber x hρ]
  cases x.find id with
  | error f => rfl
  | ok o => cases o <;> rfl

theorem arrive_renumber (m : Machine) (t : Target) :
    arrive (m.renumber ρ) (t.renumber ρ) = (arrive m t).map (Target.renumber ρ) := by
  cases t with
  | final i ancestors => rfl
  | state n =>
    simp only [Target.renumber, arrive, Machine.nested_renumber, map_bind', map_pure']

theorem perform_renumber (a : Action) :
    (x.renumber ρ).perform (a.renumber ρ) = renumbered ρ (Execution.renumber ρ) (x.perform a) := by
  cases a with
  | event e => rfl
  | activate t => rfl
  | assign a =>
    have hrun : (a.renumber ρ).run (x.renumber ρ).env = a.run x.env := rfl
    simp only [Action.renumber, perform, hrun]
    cases a.run x.env <;> rfl
  | move source target =>
    have harrive : arrive (x.renumber ρ).machine (target.renumber ρ) =
        (arrive x.machine target).map (Target.renumber ρ) :=
      arrive_renumber x.machine target
    simp only [Action.renumber, perform, harrive]
    cases arrive x.machine target <;> rfl

theorem complete_renumber (hρ : Function.Injective ρ) (id : Id) :
    (x.renumber ρ).complete (id.renumber ρ) = (x.complete id).renumber ρ := by
  simp only [complete, renumber, List.map_map]
  congr 1
  refine List.map_congr_left fun s _ => ?_
  cases s with
  | firing f => rfl
  | atomic s =>
    have hid : (s.renumber ρ).id = id.renumber ρ ↔ s.id = id := (Id.renumber_injective hρ).eq_iff
    simp only [Function.comp_apply, Step.renumber, hid]
    split <;> rfl

theorem leaveOpen_renumber (s : Atomic) : (x.renumber ρ).leaveOpen (s.renumber ρ) = (x.leaveOpen s).renumber ρ := by
  have hevent : (x.renumber ρ).event = x.event := rfl
  simp only [leaveOpen, hevent]
  cases x.event <;> rfl

theorem past_renumber (hρ : Function.Injective ρ) (s : Atomic) :
    (x.renumber ρ).past (s.renumber ρ) = (x.past s).renumber ρ := by
  have hid : (s.renumber ρ).id = s.id.renumber ρ := rfl
  rw [past, past, hid, complete_renumber x hρ, leaveOpen_renumber]

theorem isCompleted_renumber (s : Step) : (x.renumber ρ).isCompleted (s.renumber ρ) = x.isCompleted s := by
  cases s <;> rfl

theorem completedWith_renumber (s : Step) :
    (x.renumber ρ).completedWith (s.renumber ρ) = (x.completedWith s).map (Id.renumber ρ) := by
  have hfiring (f : Firing) : (x.renumber ρ).isCompleted (.firing (f.renumber ρ)) = x.isCompleted (.firing f) := rfl
  rw [completedWith, completedWith, isCompleted_renumber, Step.id_renumber, Step.parent?_renumber, List.map_append]
  congr 1
  · split <;> rfl
  · cases s.parent? with
    | none => rfl
    | some f =>
      simp only [Option.map_some, hfiring]
      split <;> rfl

theorem execute_renumber (hρ : Function.Injective ρ) (id : Value) :
    (x.renumber ρ).execute (id.renumber ρ) =
      ((x.execute id).1.renumber ρ, renumbered ρ (List.map (Id.renumber ρ)) (x.execute id).2) := by
  have hget := x.get_renumber hρ id
  cases hg : x.get id with
  | error f =>
    rw [hg] at hget
    simp only [execute, hg, hget, renumbered]
  | ok step =>
    rw [hg] at hget
    obtain ⟨-, rfl⟩ := get_eq_ok hg
    cases step with
    | firing f =>
      simp only [execute, hg, hget, renumbered, isCompleted_renumber]
      split <;> rfl
    | atomic s =>
      cases hc : s.completed with
      | true => simp only [execute, hg, hget, renumbered, isCompleted, Step.renumber, Atomic.renumber, hc, if_true,
          Fault.renumber]
      | false =>
        have hget' : (x.renumber ρ).get (.ident (s.renumber ρ).id) = .ok (.atomic (s.renumber ρ)) := hget
        have hperform : (x.renumber ρ).perform (s.renumber ρ).action = _ := x.perform_renumber s.action
        show (x.renumber ρ).execute (.ident (s.renumber ρ).id) = _
        rw [show x.execute (.ident (Step.atomic s).id) = _ from execute_of_get hg hc, execute_of_get hget' hc, hperform]
        cases x.perform s.action with
        | error f => rfl
        | ok y =>
          simp only [renumbered, past_renumber y hρ, offer_renumber]
          cases (y.past s).offer with
          | error e => rfl
          | ok steps =>
            simp only [Except.map, offering_renumber]
            have hdone := (y.past s).completedWith_renumber (ρ := ρ) (.atomic { s with completed := true })
            exact congrArg (fun ids => (_, Except.ok ids)) hdone

theorem inside_renumber (f : Firing) : (x.renumber ρ).inside (f.renumber ρ) = (x.inside f).renumber ρ := rfl

theorem enter_renumber (hρ : Function.Injective ρ) (id : Value) :
    (x.renumber ρ).enter (id.renumber ρ) = ((x.enter id).1.renumber ρ, renumbered ρ (fun u => u) (x.enter id).2) := by
  have hget := x.get_renumber hρ id
  cases hg : x.get id with
  | error f =>
    rw [hg] at hget
    simp only [enter, hg, hget, renumbered]
  | ok step =>
    rw [hg] at hget
    obtain ⟨-, rfl⟩ := get_eq_ok hg
    cases step with
    | atomic s =>
      simp only [enter, hg, hget, renumbered, Step.renumber]
      rfl
    | firing f =>
      have hget' : (x.renumber ρ).get (.ident (f.renumber ρ).id) = .ok (.firing (f.renumber ρ)) := hget
      show (x.renumber ρ).enter (.ident (f.renumber ρ).id) = _
      rw [show x.enter (.ident (Step.firing f).id) = _ from enter_of_get hg, enter_of_get hget', inside_renumber,
        offer_renumber]
      cases (x.inside f).offer with
      | error e => rfl
      | ok steps =>
        simp only [Except.map, offering_renumber]
        rfl

end Execution

/-! ## Breakpoints -/

theorem Value.isIdent_renumber (hρ : Function.Injective ρ) (v : Value) (i : Id) :
    (v.renumber ρ).isIdent (i.renumber ρ) = v.isIdent i := by
  cases v with
  | ident j => simp only [Value.renumber, Value.isIdent, beq_eq_beq, (Id.renumber_injective hρ).eq_iff]
  | _ => rfl

theorem Target.id_renumber (load : Nat) (t : Target) : (t.renumber ρ).id (ρ load) = (t.id load).renumber ρ := by
  cases t <;> rfl

theorem Target.lineage_renumber (m : Machine) (t : Target) :
    (t.renumber ρ).lineage (m.renumber ρ) = (t.lineage m).map (Target.renumber ρ) := by
  cases t with
  | state n =>
    simp only [Target.renumber, Target.lineage, Machine.lineage_renumber, List.map_map]
    rfl
  | final i ancestors =>
    simp only [Target.renumber, Target.lineage, List.map_cons, List.map_map]
    rfl

theorem reached?_renumber (hρ : Function.Injective ρ) (m : Machine) (t : Target) (v : Value) :
    reached? (m.renumber ρ) (t.renumber ρ) (v.renumber ρ) = (reached? m t v).map (Option.map (Target.renumber ρ)) := by
  have hload : (m.renumber ρ).load = ρ m.load := rfl
  have hmeant (u : Target) : (v.renumber ρ).isIdent ((u.renumber ρ).id (ρ m.load)) = v.isIdent (u.id m.load) := by
    rw [Target.id_renumber, Value.isIdent_renumber hρ]
  have hbefore (u : Target) : (u.renumber ρ != t.renumber ρ) = (u != t) := by
    rw [Bool.eq_iff_iff, bne_iff_ne, bne_iff_ne, (Target.renumber_injective hρ).ne_iff]
  unfold reached?
  rw [hload, hmeant]
  split
  · rfl
  · simp only [Execution.arrive_renumber, bind_map, map_bind', map_pure', Target.lineage_renumber]
    congr 1
    funext s
    rw [List.takeWhile_map, List.find?_map]
    simp only [Function.comp_def, hmeant, hbefore]

theorem exitedAmong?_renumber (hρ : Function.Injective ρ) (load : Nat) (source : Id) (v : Value) (ts : List Target) :
    exitedAmong? (ρ load) (source.renumber ρ) (v.renumber ρ) (ts.map (Target.renumber ρ)) =
      (exitedAmong? load source v ts).map (Target.renumber ρ) := by
  induction ts with
  | nil => rfl
  | cons t ts ih =>
    simp only [List.map_cons, exitedAmong?, Target.id_renumber, Value.isIdent_renumber hρ,
      (Id.renumber_injective hρ).eq_iff, ih]
    split
    · rfl
    · split <;> rfl

theorem readEntry_renumber (type : BreakpointType) (entries : Value) :
    readEntry type (entries.renumber ρ) = renumbered ρ (Value.renumber ρ) (readEntry type entries) := by
  have hget := entries.get?_renumber ρ type.entry
  cases entries with
  | record fs =>
    simp only [Value.renumber] at hget
    simp only [Value.renumber, readEntry, hget]
    cases (Value.record fs).get? type.entry <;> rfl
  | _ => rfl

theorem hit_renumber (hρ : Function.Injective ρ) (x : Execution) (type : BreakpointType) (entries : Value) (s : Step) :
    hit (x.renumber ρ) type (entries.renumber ρ) (s.renumber ρ) = renumbered ρ (fun m => m) (hit x type entries s) := by
  cases s with
  | firing f =>
    cases type with
    | transitionFired =>
      have hmeant (v : Value) : (v.renumber ρ).isIdent (f.renumber ρ).transition.id = v.isIdent f.transition.id :=
        v.isIdent_renumber hρ f.transition.id
      have hlabel : (f.renumber ρ).transition.label = f.transition.label := f.transition.label_renumber
      simp only [Step.renumber, hit, readEntry_renumber, hlabel]
      cases readEntry .transitionFired entries with
      | error e => rfl
      | ok v => simp only [renumbered, bind, Except.bind, hmeant]; rfl
    | _ => rfl
  | atomic s =>
    obtain ⟨id, action, within, completed⟩ := s
    cases type with
    | transitionFired => cases action <;> rfl
    | assignmentExecuted =>
      cases action with
      | assign a =>
        have hmeant (v : Value) : (v.renumber ρ).isIdent (a.renumber ρ).id = v.isIdent a.id :=
          v.isIdent_renumber hρ a.id
        simp only [Step.renumber, Atomic.renumber, Action.renumber, hit, readEntry_renumber]
        cases readEntry .assignmentExecuted entries with
        | error e => rfl
        | ok v => simp only [renumbered, bind, Except.bind, hmeant]; rfl
      | _ => rfl
    | stateReached =>
      cases action with
      | move source target =>
        simp only [Step.renumber, Atomic.renumber, Action.renumber, hit, readEntry_renumber]
        cases readEntry .stateReached entries with
        | error e => rfl
        | ok v =>
          have hreached : reached? (x.renumber ρ).machine (target.renumber ρ) (v.renumber ρ) = _ :=
            reached?_renumber hρ x.machine target v
          simp only [renumbered, bind, Except.bind, hreached]
          cases reached? x.machine target v with
          | error e => rfl
          | ok o =>
            cases o with
            | none => rfl
            | some t => simp only [Except.map, Option.map_some, Target.text_renumber]; rfl
      | _ => rfl
    | stateExited =>
      cases action with
      | move source target =>
        simp only [Step.renumber, Atomic.renumber, Action.renumber, hit, readEntry_renumber]
        cases readEntry .stateExited entries with
        | error e => rfl
        | ok v =>
          have hexited : exited? (x.renumber ρ) source (v.renumber ρ) =
              (exited? x source v).map (Target.renumber ρ) := by
            have hlineage : (x.renumber ρ).current.lineage (x.renumber ρ).machine = _ :=
              x.current.lineage_renumber x.machine
            rw [exited?, exited?, hlineage]
            exact exitedAmong?_renumber hρ x.machine.load (.state x.machine.load source) v _
          simp only [renumbered, bind, Except.bind, hexited]
          cases exited? x source v with
          | none => rfl
          | some t => simp only [Option.map_some, Target.text_renumber]; rfl
      | _ => rfl

theorem Execution.check_renumber (hρ : Function.Injective ρ) (x : Execution) (type id entries : Value) :
    (x.renumber ρ).check (type.renumber ρ) (id.renumber ρ) (entries.renumber ρ) =
      renumbered ρ (fun m => m) (x.check type id entries) := by
  have htype : BreakpointType.ofId? (type.renumber ρ) = BreakpointType.ofId? type := by cases type <;> rfl
  rw [Execution.check, Execution.check, htype]
  cases BreakpointType.ofId? type with
  | none => rfl
  | some t =>
    simp only [Execution.get_renumber x hρ]
    cases x.get id with
    | error f => rfl
    | ok s => exact hit_renumber hρ x t entries s

/-! ## Looking at an execution -/

theorem leaf_renumber (id : Id) (types : List String) (attributes : List (String × Value)) :
    (Element.leaf id types attributes).renumber ρ =
      .leaf (id.renumber ρ) types (attributes.map fun a => (a.1, a.2.renumber ρ)) := rfl

theorem Execution.snapshot_renumber (x : Execution) : (x.renumber ρ).snapshot = x.snapshot.renumber ρ := by
  have hfinal : (x.renumber ρ).current.isFinal = x.current.isFinal := x.current.isFinal_renumber
  have hid : (x.renumber ρ).current.id (x.renumber ρ).machine.load = (x.current.id x.machine.load).renumber ρ :=
    x.current.id_renumber x.machine.load
  have hvariables : (x.env.entries.map fun e => (e.1, Value.float e.2)).map (fun a => (a.1, a.2.renumber ρ)) =
      x.env.entries.map fun e => (e.1, Value.float e.2) := by
    rw [List.map_map]
    rfl
  have hevent : (x.renumber ρ).event = x.event := rfl
  have htransition : (x.renumber ρ).transition = x.transition.map (Transition.renumber ρ) := rfl
  simp only [snapshot, hfinal, hid, hevent, htransition]
  generalize x.event.filter (· != "") = event
  simp only [Element.renumber, Header.renumber, renumberChildren, Child.renumber, leaf_renumber, hvariables]
  cases x.current.isFinal <;> cases event <;> cases x.transition <;> rfl

theorem Transition.display_renumber (t : Transition) : (t.renumber ρ).display = t.display := by
  have htarget : (t.renumber ρ).target = t.target.renumber ρ := rfl
  simp only [Transition.display, htarget, Target.isFinal_renumber, Target.text_renumber]
  rfl

theorem Action.name_renumber (a : Action) : (a.renumber ρ).name = a.name := by
  cases a with
  | event e => rfl
  | activate t => exact t.display_renumber
  | assign a => rfl
  | move source target => exact congrArg ("New state: " ++ ·) target.text_renumber

theorem Step.view_renumber (s : Step) : (s.renumber ρ).view = s.view.renumber ρ := by
  cases s with
  | firing f => exact congrArg (StepView.mk _ · _ _) f.transition.display_renumber
  | atomic s =>
    have hdescription : (s.action.renumber ρ).description? = s.action.description? := by cases s.action <;> rfl
    have hname : (s.action.renumber ρ).name = s.action.name := s.action.name_renumber
    show StepView.mk _ (s.action.renumber ρ).name _ (s.action.renumber ρ).description? = _
    rw [hname, hdescription]
    rfl

theorem Step.location?_renumber (s : Step) : (s.renumber ρ).location? = s.location? := by
  cases s with
  | firing f => rfl
  | atomic s =>
    show (s.action.renumber ρ).location? = s.action.location?
    cases s.action <;> rfl

theorem Execution.ongoingFrom?_renumber (x : Execution) (s : Step) :
    (x.renumber ρ).ongoingFrom? (s.renumber ρ) = (x.ongoingFrom? s).map (Id.renumber ρ) := by
  have hfiring (f : Firing) : (x.renumber ρ).isCompleted (.firing (f.renumber ρ)) = x.isCompleted (.firing f) := rfl
  rw [ongoingFrom?, ongoingFrom?, isCompleted_renumber, Step.id_renumber, Step.parent?_renumber]
  split
  · cases s.parent? with
    | none => rfl
    | some f =>
      simp only [Option.map_some, hfiring]
      split <;> rfl
  · rfl

theorem Execution.inspect_renumber (x : Execution) (s : Step) :
    (x.renumber ρ).inspect (s.renumber ρ) = (x.inspect s).renumber ρ := by
  have hparent : (s.renumber ρ).parent?.map (·.id) = (s.parent?.map (·.id)).map (Id.renumber ρ) := by
    rw [Step.parent?_renumber, Option.map_map, Option.map_map]
    rfl
  simp only [inspect, Inspection.renumber, isCompleted_renumber, ongoingFrom?_renumber, completedWith_renumber, hparent]
  cases s with
  | atomic s => rfl
  | firing f =>
    simp only [Step.renumber, next_renumber, Action.name_renumber]
    rfl

end Statechart
