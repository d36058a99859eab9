/-
  Statechart.Proofs.Notices — what a client hears of a transition that is fired.

  A client that asks about breakpoints before it takes a step hears of the transition
  when the firing is offered, and of an assignment when its step is. The log of a run is
  what was taken in it, each step with the execution that offered it; calls that are
  refused leave no trace there.

  What the log ends with follows from the stage an execution is at (`Underway`): an event,
  the firing entered for it, the activation of its transition and the assignments that
  were run. A step taken keeps that so (`Tracked.after`), whatever is refused in between.

  Proved (`firings_announced`): from the event to the state change each firing is announced
  once as the firing of its transition and once for each assignment, in their order and
  before the assignment is run, and nothing else is announced.
-/

import Statechart.Proofs.Announcement
import Statechart.Proofs.Completion
import Statechart.Proofs.Headers

namespace Statechart

/-! ## The log of a run -/

/-- A step that was taken, with the execution that offered it. -/
structure Taken where
  source : Execution
  step : Step

def Step.isEvent : Step → Bool
  | .atomic s => s.action.isEvent
  | .firing _ => false

def Step.isMove : Step → Bool
  | .atomic s => s.action.isMove
  | .firing _ => false

namespace Execution

variable {x y : Execution} {v : Env} {c : Call} {p : Taken}

def takes? (x : Execution) (c : Call) : Option Taken :=
  (x.taken? c).bind fun id => (x.get (.ident id)).toOption.map fun step => ⟨x, step⟩

def log (x : Execution) : List Call → List Taken
  | [] => []
  | c :: cs => (x.takes? c).toList ++ (x.after c).log cs

theorem log_append (x : Execution) (cs ds : List Call) : x.log (cs ++ ds) = x.log cs ++ (x.afterAll cs).log ds := by
  induction cs generalizing x with
  | nil => rfl
  | cons c cs ih =>
    rw [List.cons_append, log, log, ih, List.append_assoc]
    rfl

theorem log_snoc (x : Execution) (cs : List Call) (c : Call) :
    x.log (cs ++ [c]) = x.log cs ++ ((x.afterAll cs).takes? c).toList := by
  rw [log_append]
  simp [log]

theorem takes?_of_taken {id : Id} {step : Step} (ht : x.taken? c = some id) (hget : x.get (.ident id) = .ok step) :
    x.takes? c = some ⟨x, step⟩ := by
  simp [takes?, ht, hget, Except.toOption]

theorem takes?_eq_some (h : x.takes? c = some p) :
    p.source = x ∧ x.get (.ident p.step.id) = .ok p.step ∧ x.Takes c p.step.id := by
  obtain ⟨id, ht, h⟩ := Option.bind_eq_some_iff.mp h
  obtain ⟨step, hstep, rfl⟩ := Option.map_eq_some_iff.mp h
  have hget := eq_ok_of_toOption hstep
  obtain ⟨-, hid⟩ := get_eq_ok hget
  cases hid
  exact ⟨rfl, hget, takes_of_taken? ht⟩

theorem takes?_offered (h : x.takes? c = some p) : p.source.get (.ident p.step.id) = .ok p.step := by
  obtain ⟨hsource, hget, -⟩ := takes?_eq_some h
  rw [hsource]
  exact hget

theorem log_offered (x : Execution) (cs : List Call) :
    ∀ p ∈ x.log cs, p.source.get (.ident p.step.id) = .ok p.step := by
  induction cs generalizing x with
  | nil => simp [log]
  | cons c cs ih =>
    intro p hp
    rcases List.mem_append.mp hp with hp | hp
    · exact takes?_offered (Option.mem_toList.mp hp)
    · exact ih _ p hp

/-- A call that takes no step can only use up an identifier. -/
theorem after_of_not_taken (h : x.taken? c = none) : ∃ k, x.after c = x.counted k := by
  cases c with
  | execute id =>
    obtain ⟨f, hf⟩ := execute_of_not_taken h
    exact ⟨x.count, congrArg Prod.fst hf⟩
  | enter id =>
    obtain ⟨f, hf⟩ := enter_of_not_taken h
    exact ⟨x.count, congrArg Prod.fst hf⟩
  | check _ _ _ => exact ⟨x.count, rfl⟩
  | snapshot => exact ⟨_, rfl⟩

/-! ## What the log ends with -/

end Execution

/-- The step of an assignment of `t`, the one in place `i`, taken once those before it were run from `v`. -/
structure Taken.Assigns (p : Taken) (v : Env) (t : Transition) (i : Nat) (a : Assignment) : Prop where
  step : ∃ s, p.step = .atomic s ∧ s.action = .assign a
  before : Assignment.SetsAll (t.assignments.take i) v p.source.env
  runs : ∃ w, a.Sets p.source.env w

/-- An event was activated with the variables `v`, and the firing `f` entered. -/
def Begins (v : Env) (f : Firing) (ps : List Taken) : Prop :=
  ∃ first z, ps = [first, ⟨z, .firing f⟩] ∧ first.step.isEvent = true ∧ first.source.env = v

/-- The transition was activated then, and its first `k` assignments were run. -/
def Proceeds (v : Env) (f : Firing) (k : Nat) (ps : List Taken) : Prop :=
  ∃ begun z s qs, Begins v f begun ∧ ps = begun ++ ⟨z, .atomic s⟩ :: qs ∧ s.action = .activate f.transition ∧
    List.Forall₂ (fun a q => q.Assigns v f.transition a.2 a.1) (f.transition.assignments.take k).zipIdx qs

theorem Proceeds.assign {v : Env} {f : Firing} {k : Nat} {ps : List Taken} {a : Assignment} {q : Taken}
    (h : Proceeds v f k ps) (ha : f.transition.assignments[k]? = some a)
    (hq : q.Assigns v f.transition k a) : Proceeds v f (k + 1) (ps ++ [q]) := by
  obtain ⟨begun, z, s, qs, hb, rfl, hs, hqs⟩ := h
  obtain ⟨hlt, rfl⟩ := List.getElem?_eq_some_iff.mp ha
  refine ⟨begun, z, s, qs ++ [q], hb, by simp, hs, ?_⟩
  rw [List.take_succ_eq_append_getElem hlt, List.zipIdx_append]
  refine List.rel_append hqs (.cons ?_ .nil)
  have hlen : (f.transition.assignments.take k).length = k := List.length_take_of_le (Nat.le_of_lt hlt)
  simpa [hlen] using hq

namespace Execution

variable {x y : Execution} {v : Env} {c : Call} {p : Taken} {f : Firing} {ps : List Taken}

/-- What was taken since the event, as the stage has it. -/
inductive Underway (y : Execution) (v : Env) : List Taken → Prop
  | chosen {first : Taken} : y.ongoing = none → first.step.isEvent = true → first.source.env = v →
      Underway y v [first]
  | entered {f : Firing} {ps : List Taken} : y.ongoing = some f → y.transition = none → Begins v f ps → Underway y v ps
  | fires {f : Firing} {ps : List Taken} : y.ongoing = some f → y.transition = some f.transition →
      Proceeds v f y.assigned ps → Underway y v ps

namespace Underway

theorem counted (h : y.Underway v ps) (k : Nat) : (y.counted k).Underway v ps := by
  cases h with
  | chosen ho he hv => exact .chosen ho he hv
  | entered ho ht hb => exact .entered ho ht hb
  | fires ho ht hp => exact .fires ho ht hp

theorem of_chosen (h : y.Underway v ps) (ho : y.ongoing = none) :
    ∃ first, ps = [first] ∧ first.step.isEvent = true ∧ first.source.env = v := by
  cases h with
  | chosen _ he hv => exact ⟨_, rfl, he, hv⟩
  | entered ho' _ _ => rw [ho] at ho'; cases ho'
  | fires ho' _ _ => rw [ho] at ho'; cases ho'

theorem of_entered (h : y.Underway v ps) (ho : y.ongoing = some f) (ht : y.transition = none) : Begins v f ps := by
  cases h with
  | chosen ho' _ _ => rw [ho] at ho'; cases ho'
  | entered ho' _ hb => obtain rfl := Option.some.inj (ho.symm.trans ho'); exact hb
  | fires _ ht' _ => rw [ht] at ht'; cases ht'

theorem of_fires (h : y.Underway v ps) (ho : y.ongoing = some f) (ht : y.transition = some f.transition) :
    Proceeds v f y.assigned ps := by
  cases h with
  | chosen ho' _ _ => rw [ho] at ho'; cases ho'
  | entered _ ht' _ => rw [ht] at ht'; cases ht'
  | fires ho' _ hp => obtain rfl := Option.some.inj (ho.symm.trans ho'); exact hp

end Underway

/-- While an event is active, the log ends with what was taken since. -/
def Tracked (y : Execution) (l : List Taken) : Prop :=
  ∃ v, y.Stage v ∧ (y.event ≠ none → ∃ before ps, l = before ++ ps ∧ y.Underway v ps)

theorem after_execute {s : Atomic} {z : Execution} {steps : List Step} (hget : x.get (.ident s.id) = .ok (.atomic s))
    (hc : s.completed = false) (hp : x.perform s.action = .ok z) (ho : (z.past s).offer = .ok steps) :
    x.after (.execute (.ident s.id)) = (z.past s).offering steps := by
  show (x.execute (.ident s.id)).1 = _
  rw [execute_of_get hget hc, hp]
  simp only [ho]

theorem after_move {s : Atomic} {z : Execution} (hget : x.get (.ident s.id) = .ok (.atomic s))
    (hc : s.completed = false) (hp : x.perform s.action = .ok z) (hi : (z.past s).Idle) :
    (x.after (.execute (.ident s.id))).event = none := by
  show (x.execute (.ident s.id)).1.event = none
  rw [execute_of_get hget hc, hp]
  dsimp only
  cases (z.past s).offer with
  | error e => exact hi.event
  | ok steps => exact hi.event

theorem Tracked.execute {s : Atomic} {z : Execution} {l : List Taken} (h : y.Tracked l) (hm : y.machine.WellFormed)
    (hget : y.get (.ident s.id) = .ok (.atomic s)) (hc : s.completed = false) (hp : y.perform s.action = .ok z) :
    (y.after (.execute (.ident s.id))).Tracked (l ++ [⟨y, .atomic s⟩]) := by
  obtain ⟨v, hst, hlog⟩ := h
  cases hst.performs (get_eq_ok hget).1 hc with
  | @event e ts hi hv hts he hw ha =>
    obtain ⟨steps, ho, hch⟩ := idle_event hi hts he hw (ha ▸ hp)
    rw [after_execute hget hc hp ho]
    refine ⟨_, .chosen hch, fun _ => ⟨l, _, rfl, .chosen hch.ongoing ?_ rfl⟩⟩
    show s.action.isEvent = true
    rw [ha]
    rfl
  | @activate e ts f hen hw ha =>
    obtain ⟨steps, ho, hfi⟩ := entered_activate hen hw (ha ▸ hp)
    obtain ⟨before, ps, rfl, hunder⟩ := hlog (by rw [hen.event]; exact Option.some_ne_none e)
    rw [after_execute hget hc hp ho]
    refine ⟨v, .fires hfi, fun _ => ⟨before, ps ++ [⟨y, .atomic s⟩], List.append_assoc .., ?_⟩⟩
    have hzero : ((z.past s).offering steps).assigned = 0 := by
      rw [ha] at hp
      cases hp
      exact hen.assigned
    refine .fires hfi.ongoing hfi.transition
      ⟨ps, y, s, [], hunder.of_entered hen.ongoing hen.transition, rfl, ha, ?_⟩
    rw [hzero]
    exact .nil
  | @assign e ts f a hf hw hat ha =>
    obtain ⟨steps, ho, hfi⟩ := fires_assign hf hw hat (ha ▸ hp)
    obtain ⟨before, ps, rfl, hunder⟩ := hlog (by rw [hf.event]; exact Option.some_ne_none e)
    rw [after_execute hget hc hp ho]
    refine ⟨v, .fires hfi, fun _ => ⟨before, ps ++ [⟨y, .atomic s⟩], List.append_assoc .., ?_⟩⟩
    rw [ha] at hp
    cases hr : a.run y.env with
    | error err => simp [perform, hr] at hp
    | ok w =>
      have hnext : ((z.past s).offering steps).assigned = y.assigned + 1 := by
        simp only [perform, hr] at hp
        cases hp
        rfl
      refine .fires hfi.ongoing hfi.transition ?_
      rw [hnext]
      exact (hunder.of_fires hf.ongoing hf.transition).assign hat ⟨⟨s, rfl, ha⟩, hf.run, w, Assignment.run_eq_ok.mp hr⟩
  | move hf _ hl ha _ =>
    have hnone := after_move hget hc hp (fires_move (s := s) hf hm hl (ha ▸ hp)).1
    obtain ⟨w, hst'⟩ := (hst.after hm (.execute (.ident s.id))).stage
    exact ⟨w, hst', fun hne => absurd hnone hne⟩

theorem Tracked.enter {l : List Taken} (h : y.Tracked l) (hget : y.get (.ident f.id) = .ok (.firing f)) :
    (y.after (.enter (.ident f.id))).Tracked (l ++ [⟨y, .firing f⟩]) := by
  obtain ⟨v, hst, hlog⟩ := h
  have hmem := (get_eq_ok hget).1
  obtain ⟨e, ts, hch⟩ := hst.chosen_of_firing hmem
  obtain ⟨steps, ho, hen⟩ := chosen_enter hch hmem
  have hafter : y.after (.enter (.ident f.id)) = (y.inside f).offering steps := by
    show (y.enter (.ident f.id)).1 = _
    rw [enter_of_get hget, ho]
  rw [hafter]
  obtain ⟨before, ps, rfl, hunder⟩ := hlog (by rw [hch.event]; exact Option.some_ne_none e)
  obtain ⟨first, rfl, hevent, hv⟩ := hunder.of_chosen hch.ongoing
  refine ⟨v, .entered hen, fun _ => ⟨before, [first, ⟨y, .firing f⟩], List.append_assoc .., ?_⟩⟩
  exact .entered hen.ongoing hen.transition ⟨first, y, rfl, hevent, hv⟩

theorem Tracked.after {l : List Taken} (h : y.Tracked l) (hm : y.machine.WellFormed) (c : Call) :
    (y.after c).Tracked (l ++ (y.takes? c).toList) := by
  cases ht : y.taken? c with
  | none =>
    obtain ⟨k, hk⟩ := after_of_not_taken ht
    obtain ⟨v, hst, hlog⟩ := h
    rw [hk, show y.takes? c = none by simp [takes?, ht], Option.toList_none, List.append_nil]
    refine ⟨v, hst.counted k, fun hne => ?_⟩
    obtain ⟨before, ps, rfl, hunder⟩ := hlog hne
    exact ⟨before, ps, rfl, hunder.counted k⟩
  | some id =>
    cases takes_of_taken? ht with
    | execute hget hc hp =>
      rw [takes?_of_taken ht hget]
      exact h.execute hm hget hc hp
    | enter hget =>
      rw [takes?_of_taken ht hget]
      exact h.enter hget

theorem log_tracked {run : Nat} {m : Machine} (hm : m.WellFormed) (hx : Execution.start run m = .ok x)
    (cs : List Call) : (x.afterAll cs).Tracked (x.log cs) ∧ (x.afterAll cs).machine = m := by
  obtain ⟨-, -, -, hmach, -, hi, hv, ho⟩ := start_eq_ok hx
  induction cs using List.reverseRecOn with
  | nil => exact ⟨⟨_, .idle hi hv ho, fun hne => absurd hi.event hne⟩, hmach⟩
  | append_singleton cs c ih =>
    obtain ⟨htrack, hmach'⟩ := ih
    rw [log_snoc, show x.afterAll (cs ++ [c]) = (x.afterAll cs).after c from afterAll_append x cs [c]]
    exact ⟨htrack.after (hmach' ▸ hm) c, (after_machine _ c).trans hmach'⟩

theorem Tracked.moves {s : Atomic} {l : List Taken} (h : y.Tracked l) (hs : y.takes? c = some ⟨y, .atomic s⟩)
    (hmove : s.action.isMove = true) :
    ∃ v e ts f before ps, y.Fires v e ts f ∧ l = before ++ ps ∧
      Proceeds v f f.transition.assignments.length ps := by
  obtain ⟨-, hget, htakes⟩ := takes?_eq_some hs
  obtain ⟨step, hmem, hid, hpending⟩ := htakes.pending
  obtain ⟨v, hst, hlog⟩ := h
  obtain rfl : step = .atomic s := List.inj_on_of_nodup_map hst.ids hmem (get_eq_ok hget).1 hid
  cases hst.performs hmem (hpending s rfl) with
  | event _ _ _ _ _ ha => rw [ha] at hmove; cases hmove
  | activate _ _ ha => rw [ha] at hmove; cases hmove
  | assign _ _ _ ha => rw [ha] at hmove; cases hmove
  | @move e ts f hf _ hl _ _ =>
    obtain ⟨before, ps, hl', hunder⟩ := hlog (by rw [hf.event]; exact Option.some_ne_none e)
    exact ⟨v, e, ts, f, before, ps, hf, hl', hl ▸ hunder.of_fires hf.ongoing hf.transition⟩

/-! ## What is announced -/

/-- What a breakpoint of a type on an element says about a step. -/
def inquire (x : Execution) (type : BreakpointType) (step element : Id) : Except Fault (Option String) :=
  x.check (.str type.id) (.ident step) (.record [(type.entry, .ident element)])

end Execution

/-- The breakpoint types that are about what a step is, not about where it leads. -/
def BreakpointType.isOfStep : BreakpointType → Bool
  | .transitionFired | .assignmentExecuted => true
  | .stateReached | .stateExited => false

namespace Step

/-- The element on which a breakpoint of the type is hit by a step. -/
def subject? : BreakpointType → Step → Option Id
  | .transitionFired, .firing f => some f.transition.id
  | .assignmentExecuted, .atomic ⟨_, .assign a, _, _⟩ => some a.id
  | _, _ => none

def notice : Step → String
  | .firing f => "Transition " ++ f.transition.label ++ " is about to be fired."
  | .atomic s => "Assignment " ++ s.action.name ++ " is about to be executed."

end Step

/-- Whoever offers a step, the same is said of it. -/
theorem inquire_eq {x : Execution} {type : BreakpointType} {step : Step} (htype : type.isOfStep = true)
    (hget : x.get (.ident step.id) = .ok step) (element : Id) :
    x.inquire type step.id element = .ok (if step.subject? type = some element then some step.notice else none) := by
  have hread : readEntry type (.record [(type.entry, .ident element)]) = .ok (.ident element) := by
    simp [readEntry, Value.get?]
  have hit_eq : x.inquire type step.id element = hit x type (.record [(type.entry, .ident element)]) step := by
    simp only [Execution.inquire, Execution.check, BreakpointType.ofId?_id, hget]
    rfl
  rw [hit_eq]
  cases type with
  | stateReached => cases htype
  | stateExited => cases htype
  | transitionFired =>
    cases step with
    | atomic s => rfl
    | firing f =>
      simp [hit, hread, Value.isIdent, Step.subject?, Step.notice, bind, Except.bind, pure, Except.pure]
  | assignmentExecuted =>
    cases step with
    | firing f => rfl
    | atomic s =>
      obtain ⟨i, action, w, c⟩ := s
      cases action with
      | assign a =>
        simp [hit, hread, Value.isIdent, Step.subject?, Step.notice, Action.name, bind, Except.bind, pure,
          Except.pure]
      | event _ => rfl
      | activate _ => rfl
      | move _ _ => rfl

namespace Taken

/-- The breakpoint is activated when it is asked about the step before the step is taken. -/
def activates (type : BreakpointType) (element : Id) (p : Taken) : Bool :=
  match p.source.inquire type p.step.id element with
  | .ok (some _) => true
  | _ => false

theorem activates_eq {p : Taken} {type : BreakpointType} (htype : type.isOfStep = true)
    (hp : p.source.get (.ident p.step.id) = .ok p.step) (element : Id) :
    p.activates type element = decide (p.step.subject? type = some element) := by
  unfold activates
  rw [inquire_eq htype hp]
  by_cases h : p.step.subject? type = some element
  · simp [h]
  · simp [h]

theorem filter_activates {ps : List Taken} {type : BreakpointType} (htype : type.isOfStep = true)
    (hps : ∀ p ∈ ps, p.source.get (.ident p.step.id) = .ok p.step) (element : Id) :
    ps.filter (·.activates type element) = ps.filter fun p => decide (p.step.subject? type = some element) :=
  List.filter_congr fun p hp => activates_eq htype (hps p hp) element

/-- A step that is neither a firing nor an assignment sets off nothing. -/
def Silent (p : Taken) : Prop := ∀ type, p.step.subject? type = none

theorem silent_of_event {p : Taken} (h : p.step.isEvent = true) : p.Silent := by
  intro type
  obtain ⟨x, step⟩ := p
  cases step with
  | firing f => cases h
  | atomic s =>
    obtain ⟨i, action, w, c⟩ := s
    cases action with
    | event _ => cases type <;> rfl
    | activate _ => cases h
    | assign _ => cases h
    | move _ _ => cases h

theorem silent_of_move {p : Taken} (h : p.step.isMove = true) : p.Silent := by
  intro type
  obtain ⟨x, step⟩ := p
  cases step with
  | firing f => cases h
  | atomic s =>
    obtain ⟨i, action, w, c⟩ := s
    cases action with
    | move _ _ => cases type <;> rfl
    | event _ => cases h
    | activate _ => cases h
    | assign _ => cases h

theorem silent_of_activate {x : Execution} {s : Atomic} {t : Transition} (h : s.action = .activate t) :
    Silent ⟨x, .atomic s⟩ := by
  intro type
  obtain ⟨i, action, w, c⟩ := s
  cases h
  cases type <;> rfl

theorem Assigns.subject {p : Taken} {v : Env} {t : Transition} {i : Nat} {a : Assignment} (h : p.Assigns v t i a) :
    p.step.subject? .transitionFired = none ∧ p.step.subject? .assignmentExecuted = some a.id := by
  obtain ⟨s, hs, ha⟩ := h.step
  obtain ⟨i, action, w, c⟩ := s
  cases ha
  rw [hs]
  exact ⟨rfl, rfl⟩

end Taken

/-- What a client hears of a firing of `t`, started with the variables `v`, that asks before it takes each of the
    steps. -/
structure Announces (t : Transition) (v : Env) (ps : List Taken) : Prop where
  /-- A step can be asked about, and whenever it is offered the answer is the same. -/
  answers : ∀ p ∈ ps, p.source.get (.ident p.step.id) = .ok p.step ∧ ∀ type element, type.isOfStep = true →
    ∃ answer, ∀ z : Execution, z.get (.ident p.step.id) = .ok p.step → z.inquire type p.step.id element = .ok answer
  transition : ∃ p f, p.step = .firing f ∧ f.transition = t ∧ ps.filter (·.activates .transitionFired t.id) = [p]
  assignments : ∃ qs, qs.Sublist ps ∧ List.Forall₂ (fun a q => q.Assigns v t a.2 a.1 ∧
    ps.filter (·.activates .assignmentExecuted a.1.id) = [q]) t.assignments.zipIdx qs
  otherTransitions : ∀ p ∈ ps, ∀ element, element ≠ t.id → p.activates .transitionFired element = false
  otherAssignments : ∀ p ∈ ps, ∀ element, element ∉ t.assignments.map (·.id) →
    p.activates .assignmentExecuted element = false

theorem subjects_eq {v : Env} {t : Transition} {qs : List Taken}
    (h : List.Forall₂ (fun a q => q.Assigns v t a.2 a.1) t.assignments.zipIdx qs) :
    qs.map (·.step.subject? .assignmentExecuted) = (t.assignments.map (·.id)).map some := by
  have hzip : (t.assignments.map (·.id)).map some = t.assignments.zipIdx.map fun a => some a.1.id := by
    conv_lhs => rw [← List.zipIdx_map_fst 0 t.assignments, List.map_map, List.map_map]
    rfl
  rw [hzip, eq_comm, ← List.forall₂_eq_eq_eq, List.forall₂_map_left_iff, List.forall₂_map_right_iff]
  exact h.imp fun _ _ hq => hq.subject.2.symm

/-- What is taken in a firing starts with an event, and no other event and no state change is among it. -/
theorem Proceeds.shape {v : Env} {f : Firing} {k : Nat} {ps : List Taken} (h : Proceeds v f k ps) :
    ∃ first middle, ps = first :: middle ∧ first.step.isEvent = true ∧ first.source.env = v ∧
      ∀ p ∈ middle, p.step.isEvent = false ∧ p.step.isMove = false := by
  obtain ⟨_, z', s, qs, ⟨first, z, rfl, hevent, hv⟩, rfl, hs, hqs⟩ := h
  refine ⟨first, ⟨z, .firing f⟩ :: ⟨z', .atomic s⟩ :: qs, rfl, hevent, hv, fun p hp => ?_⟩
  rcases List.mem_cons.mp hp with rfl | hp
  · exact ⟨rfl, rfl⟩
  rcases List.mem_cons.mp hp with rfl | hq
  · simp [Step.isEvent, Step.isMove, hs, Action.isEvent, Action.isMove]
  · obtain ⟨a, -, hassigns⟩ := exists_of_forall₂ hqs p hq
    obtain ⟨s', hs', ha⟩ := hassigns.step
    simp [hs', Step.isEvent, Step.isMove, ha, Action.isEvent, Action.isMove]

/-- Of all that is taken from the event to the state change, the firing sets off the transition and the steps `qs`
    the assignments; the rest sets off nothing. -/
theorem Proceeds.subjects {v : Env} {f : Firing} {ps : List Taken}
    (h : Proceeds v f f.transition.assignments.length ps) {last : Taken} (hmove : last.step.isMove = true) :
    ∃ z qs, qs.Sublist (ps ++ [last]) ∧
      List.Forall₂ (fun a q => q.Assigns v f.transition a.2 a.1) f.transition.assignments.zipIdx qs ∧
      ∀ element,
        (ps ++ [last]).filter (fun p => decide (p.step.subject? .transitionFired = some element)) =
          (if f.transition.id = element then [⟨z, .firing f⟩] else []) ∧
        (ps ++ [last]).filter (fun p => decide (p.step.subject? .assignmentExecuted = some element)) =
          qs.filter fun q => decide (q.step.subject? .assignmentExecuted = some element) := by
  obtain ⟨_, z', s, qs, ⟨first, z, rfl, hevent, hv⟩, rfl, hs, hqs⟩ := h
  rw [List.take_length] at hqs
  have hfirst := Taken.silent_of_event hevent
  have hactivate : ∀ type, (Step.atomic s).subject? type = none := Taken.silent_of_activate (x := z') hs
  have hlast := Taken.silent_of_move hmove
  refine ⟨z, qs, ?_, hqs, fun element => ⟨?_, ?_⟩⟩
  · exact ((((List.sublist_append_left qs [last]).cons _).cons _).cons _)
  · have hquiet : qs.filter (fun p => decide (p.step.subject? .transitionFired = some element)) = [] := by
      refine List.filter_eq_nil_iff.mpr fun q hq => ?_
      obtain ⟨a, -, hassigns⟩ := exists_of_forall₂ hqs q hq
      simp [hassigns.subject.1]
    have hfiring : (Step.firing f).subject? .transitionFired = some f.transition.id := rfl
    simp [List.filter_cons, hfirst .transitionFired, hfiring, hactivate, hquiet, hlast .transitionFired]
  · have hfiring : (Step.firing f).subject? .assignmentExecuted = none := rfl
    simp [hfirst .assignmentExecuted, hfiring, hactivate, hlast .assignmentExecuted]

/-- From the event to the state change. -/
theorem Proceeds.announces {v : Env} {f : Firing} {ps : List Taken}
    (h : Proceeds v f f.transition.assignments.length ps) (last : Taken) (hmove : last.step.isMove = true)
    (hoffered : ∀ p ∈ ps ++ [last], p.source.get (.ident p.step.id) = .ok p.step)
    (hids : (f.transition.assignments.map (·.id)).Nodup) : Announces f.transition v (ps ++ [last]) := by
  obtain ⟨z, qs, hsublist, hqs, hsubject⟩ := h.subjects hmove
  have hsubjects := subjects_eq hqs
  have htransition : ∀ element, (ps ++ [last]).filter (·.activates .transitionFired element) =
      if f.transition.id = element then [⟨z, .firing f⟩] else [] :=
    fun element => (Taken.filter_activates rfl hoffered element).trans (hsubject element).1
  have hassignment : ∀ element, (ps ++ [last]).filter (·.activates .assignmentExecuted element) =
      qs.filter fun q => decide (q.step.subject? .assignmentExecuted = some element) :=
    fun element => (Taken.filter_activates rfl hoffered element).trans (hsubject element).2
  refine ⟨fun p hp => ⟨hoffered p hp, fun type element htype => ⟨_, fun z hz => inquire_eq htype hz element⟩⟩,
    ⟨⟨z, .firing f⟩, f, rfl, rfl, ?_⟩, ⟨qs, hsublist, ?_⟩, ?_, ?_⟩
  · rw [htransition, if_pos rfl]
  · obtain ⟨hlen, hzip⟩ := List.forall₂_iff_zip.mp hqs
    refine List.forall₂_iff_zip.mpr ⟨hlen, fun {a q} hmem => ⟨hzip hmem, ?_⟩⟩
    have hnodup : (qs.map (·.step.subject? .assignmentExecuted)).Nodup := by
      rw [hsubjects]
      exact hids.map fun _ _ heq => Option.some.inj heq
    have hq := (List.of_mem_zip hmem).2
    rw [hassignment, ← (hzip hmem).subject.2]
    exact filter_eq_singleton hnodup hq (decide_eq_true rfl) fun q' hq' heq =>
      List.inj_on_of_nodup_map hnodup hq' hq (of_decide_eq_true heq)
  · intro p hp element hne
    have hnone := htransition element
    rw [if_neg (Ne.symm hne)] at hnone
    simpa using List.filter_eq_nil_iff.mp hnone p hp
  · intro p hp element hne
    have hnone : (ps ++ [last]).filter (·.activates .assignmentExecuted element) = [] := by
      rw [hassignment]
      refine List.filter_eq_nil_iff.mpr fun q hq hsubject => hne ?_
      have hmem : some element ∈ (f.transition.assignments.map (·.id)).map some :=
        hsubjects ▸ of_decide_eq_true hsubject ▸ List.mem_map_of_mem hq
      simpa using hmem
    simpa using List.filter_eq_nil_iff.mp hnone p hp

/-- The assignments of a transition have identifiers of their own. -/
theorem assignments_distinct {load : Nat} {tree : Tree} {m : Machine} (hm : Machine.ofTree load tree = .ok m)
    {n : String} {t : Transition} (ht : t ∈ m.outgoing n) : (t.assignments.map (·.id)).Nodup := by
  obtain ⟨b, -, -, -, hms, -⟩ := ofTree_inv hm
  obtain ⟨d, hd, -, hout⟩ := Machine.WellFormed.mem_outgoing ht
  obtain ⟨s, -, hs⟩ := exists_of_forall₂ (declared_sites hms) d hd
  have hnodup := (List.nodup_cons.mp hs.ids.1).2
  have hids := (List.nodup_flatMap.mp hnodup).1 t (d.state.shownOutgoing_perm.mem_iff.mpr hout)
  exact (List.nodup_append.mp (List.nodup_cons.mp hids).2).2.1

namespace Execution

variable {x : Execution}

theorem Within.outgoing {v : Env} {e : String} {ts : List Transition} {f : Firing} (h : x.Within v e ts f) :
    ∃ n, f.transition ∈ x.machine.outgoing n := by
  have hc := ((mem_enabledAmong h.enabled).mp h.mem).1
  obtain ⟨n, hn⟩ := candidates_state hc
  simp only [candidates, hn] at hc
  obtain ⟨k, -, hk⟩ := List.mem_flatMap.mp hc
  exact ⟨k, hk⟩

/-- After any calls, what is taken from the event to a state change announces the transition that is fired by it and
    its assignments, each once. -/
theorem firings_announced {load run : Nat} {tree : Tree} {m : Machine} (hm : Machine.ofTree load tree = .ok m)
    (hx : Execution.start run m = .ok x) (cs : List Call) (c : Call) (last : Taken)
    (hlast : (x.afterAll cs).takes? c = some last) (hmove : last.step.isMove = true) :
    ∃ before first middle t, x.log (cs ++ [c]) = before ++ (first :: (middle ++ [last])) ∧
      first.step.isEvent = true ∧ (∀ p ∈ middle, p.step.isEvent = false ∧ p.step.isMove = false) ∧
      last.source.transition = some t ∧ Announces t first.source.env (first :: (middle ++ [last])) := by
  obtain ⟨htrack, hmach⟩ := log_tracked (ofTree_wellFormed hm) hx cs
  obtain ⟨hsource, -⟩ := takes?_eq_some hlast
  obtain ⟨z, step⟩ := last
  obtain rfl : z = x.afterAll cs := hsource
  cases step with
  | firing f => cases hmove
  | atomic s =>
    obtain ⟨v, e, ts, f, before, ps, hf, hlog, hproceeds⟩ := htrack.moves hlast hmove
    obtain ⟨n, hn⟩ := hf.toWithin.outgoing
    have hwhole : x.log (cs ++ [c]) = before ++ (ps ++ [⟨x.afterAll cs, .atomic s⟩]) := by
      rw [log_snoc, hlast, hlog, List.append_assoc]
      rfl
    have hann := hproceeds.announces ⟨x.afterAll cs, .atomic s⟩ hmove
      (fun p hp => log_offered x (cs ++ [c]) p (hwhole ▸ List.mem_append_right _ hp))
      (assignments_distinct hm (hmach ▸ hn))
    obtain ⟨first, middle, rfl, hevent, rfl, hmiddle⟩ := hproceeds.shape
    exact ⟨before, first, middle, f.transition, hwhole, hevent, hmiddle, hf.transition, hann⟩

/-- The door is pushed open, with a call for a step that there is not and one for a step that is done. -/
def pushing : List Call := [Door.execute 1, Door.execute 7, Door.enter 3, Door.execute 4, Door.enter 3, Door.execute 5]

theorem pushed_door_announced :
    ∃ last, (Door.execution.afterAll pushing).takes? (Door.execute 6) = some last ∧ last.step.isMove = true ∧
      ∃ before first middle t,
        Door.execution.log (pushing ++ [Door.execute 6]) = before ++ (first :: (middle ++ [last])) ∧
        first.step.isEvent = true ∧ (∀ p ∈ middle, p.step.isEvent = false ∧ p.step.isMove = false) ∧
        last.source.transition = some t ∧ Announces t first.source.env (first :: (middle ++ [last])) := by
  have htakes : ((Door.execution.afterAll pushing).takes? (Door.execute 6)).map (·.step.isMove) = some true := by
    decide +kernel
  obtain ⟨last, hlast, hmove⟩ := Option.map_eq_some_iff.mp htakes
  exact ⟨last, hlast, hmove, firings_announced Door.built Door.starts pushing (Door.execute 6) last hlast hmove⟩

end Execution

end Statechart
