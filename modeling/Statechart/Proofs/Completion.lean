/-
  Statechart.Proofs.Completion — the books of an execution: what it reports as completed,
  and how this adds up with its event and the number of transitions fired.

  Three things are kept apart and have to agree. A step is marked when it is executed; a
  firing counts as completed once no event is active; and a state change adds one to the
  transitions fired. `Goes` lists what a call can come to for all three at once, and
  nothing later looks into a call again.

  Proved (`completions_add_up`), whatever is called and refused:
  (1) Executing a step reports that step, and with a state change, and only then, also the
      firing that was entered for it.
  (2) No step is reported twice. What can still be reported is offered, or is the firing
      that is ongoing, or is not numbered yet (`Reportable`), and a report takes it out.
  (3) As many events were executed as transitions were fired, and one more while an event
      is active.
  (4) As many transitions were fired as there are reports of two steps. Only a state
      change after which a guard has no value is fired without a report, and it is the
      last.
-/

import Statechart.Proofs.Failure
import Statechart.Proofs.Untouched

namespace Statechart

def Action.isEvent : Action → Bool
  | .event _ => true
  | _ => false

def Action.isMove : Action → Bool
  | .move _ _ => true
  | _ => false

namespace Execution

variable {x y : Execution} {v : Env} {c : Call}

/-! ## What a call comes to -/

/-- The action that a call performs: that of the step it executes. -/
def performed? (x : Execution) : Call → Option Action
  | .execute id =>
    match x.taken? (.execute id), x.get id with
    | some _, .ok (.atomic s) => some s.action
    | _, _ => none
  | _ => none

/-- The steps that a call reports as completed, if it is answered with such a report. -/
def report? (x : Execution) : Call → Option (List Id)
  | .execute id => (x.execute id).2.toOption
  | _ => none

/-- A call executes the step `s`. -/
structure Acts (x : Execution) (c : Call) (s : Atomic) : Prop where
  call : c = .execute (.ident s.id)
  offered : .atomic s ∈ x.available

/-- A call enters the firing `f`. -/
structure Opens (x : Execution) (c : Call) (f : Firing) (y : Execution) : Prop where
  call : c = .enter (.ident f.id)
  offered : .firing f ∈ x.available
  ongoing : y.ongoing = some f
  event : y.event = x.event
  fired : y.fired = x.fired
  renewed : x.Renewed y

/-- A call chooses an event. -/
structure Chooses (x : Execution) (c : Call) (s : Atomic) (y : Execution) : Prop extends x.Acts c s where
  smooth : ¬ x.Stalls c
  isEvent : s.action.isEvent = true
  isMove : s.action.isMove = false
  inactive : x.event = none
  active : y.event ≠ none
  ongoing : y.ongoing = none
  fired : y.fired = x.fired
  renewed : x.Renewed y

/-- A call does a step of a firing that leaves the firing open. -/
structure Works (x : Execution) (c : Call) (s : Atomic) (y : Execution) : Prop extends x.Acts c s where
  smooth : ¬ x.Stalls c
  isEvent : s.action.isEvent = false
  isMove : s.action.isMove = false
  event : y.event = x.event
  ongoing : y.ongoing = x.ongoing
  fired : y.fired = x.fired
  renewed : x.Renewed y

/-- A call changes the state, which ends the event and fires a transition. -/
structure Fired (x : Execution) (c : Call) (s : Atomic) (y : Execution) : Prop extends x.Acts c s where
  isEvent : s.action.isEvent = false
  isMove : s.action.isMove = true
  active : x.event ≠ none
  inactive : y.event = none
  ongoing : y.ongoing = none
  fired : y.fired = x.fired + 1

/-- What a call can come to: the action it performs, the steps it reports, and the execution after it. -/
inductive Goes (x : Execution) (c : Call) : Option Action → Option (List Id) → Execution → Prop
  | nothing {k : Nat} : x.count ≤ k → ¬ x.Stalls c → Goes x c none none (x.counted k)
  | enters {f : Firing} {y : Execution} : x.Opens c f y → Goes x c none none y
  | event {s : Atomic} {y : Execution} : x.Chooses c s y → Goes x c (some s.action) (some [s.id]) y
  | works {s : Atomic} {y : Execution} : x.Works c s y → Goes x c (some s.action) (some [s.id]) y
  | moves {s : Atomic} {f : Firing} {y : Execution} : x.Fired c s y → ¬ x.Stalls c → x.Renewed y →
      x.ongoing = some f → x.transition = some f.transition → Goes x c (some s.action) (some [s.id, f.id]) y
  | stalls {s : Atomic} {y : Execution} : x.Fired c s y → x.Stalls c → y.Spent → Goes x c (some s.action) none y

theorem performed?_of_get {s : Atomic} (hget : x.get (.ident s.id) = .ok (.atomic s)) (hc : s.completed = false)
    (hp : x.perform s.action = .ok y) : x.performed? (.execute (.ident s.id)) = some s.action := by
  have ht : x.taken? (.execute (.ident s.id)) = some s.id := by simp [taken?, hget, hc, hp, Except.toOption]
  simp only [performed?, ht, hget]

/-- What is reported with a step that was executed. -/
theorem completedWith_executed (y : Execution) (s : Atomic) :
    y.completedWith (.atomic { s with completed := true }) =
      s.id :: (match s.within with
        | some f => if y.event.isNone then [f.id] else []
        | none => []) := rfl

/-- What is known of a call that executes a step after which something can be offered. -/
structure Answered (x : Execution) (s : Atomic) (y : Execution) (ids : List Id) : Prop where
  performed : x.performed? (.execute (.ident s.id)) = some s.action
  report : x.report? (.execute (.ident s.id)) = some ids
  after : x.after (.execute (.ident s.id)) = y
  smooth : ¬ x.Stalls (.execute (.ident s.id))
  renewed : x.Renewed y

theorem answered_of_offer {s : Atomic} {steps : List Step} (hget : x.get (.ident s.id) = .ok (.atomic s))
    (hc : s.completed = false) (hp : x.perform s.action = .ok y) (ho : (y.past s).offer = .ok steps) :
    x.Answered s ((y.past s).offering steps) ((y.past s).completedWith (.atomic { s with completed := true })) := by
  have hex : x.execute (.ident s.id) =
      ((y.past s).offering steps, .ok ((y.past s).completedWith (.atomic { s with completed := true }))) := by
    rw [execute_of_get hget hc]
    simp only [hp, ho]
  refine ⟨performed?_of_get hget hc hp, ?_, congrArg Prod.fst hex, not_stalls (by rw [hex]; rfl), ?_⟩
  · simp only [report?, hex]
    rfl
  · have hr := execute_renews (congrArg Prod.snd hex)
    rwa [hex] at hr

theorem perform_fired {a : Action} (hp : x.perform a = .ok y) : y.fired = x.fired + if a.isMove then 1 else 0 := by
  unfold perform at hp
  (repeat' split at hp) <;> cases hp <;> rfl

/-- A step inside a firing that leaves the firing open is reported alone. -/
theorem goes_works {e : String} {ts : List Transition} {f : Firing} {s : Atomic} {steps : List Step}
    (hget : x.get (.ident s.id) = .ok (.atomic s)) (hc : s.completed = false) (hp : x.perform s.action = .ok y)
    (ho : (y.past s).offer = .ok steps) (hw : s.within = some f) (hx : x.Within v e ts f)
    (hy : ((y.past s).offering steps).Within v e ts f) (hevent : s.action.isEvent = false)
    (hmove : s.action.isMove = false) :
    let c : Call := .execute (.ident s.id)
    x.Goes c (x.performed? c) (x.report? c) (x.after c) := by
  intro c
  have hans := answered_of_offer hget hc hp ho
  have hactive : (y.past s).event = some e := hy.event
  have hfired : y.fired = x.fired := by simpa [hmove] using perform_fired hp
  rw [completedWith_executed, hw, hactive] at hans
  rw [hans.performed, hans.report, hans.after]
  exact .works ⟨⟨rfl, (get_eq_ok hget).1⟩, hans.smooth, hevent, hmove, hy.event.trans hx.event.symm,
    hy.ongoing.trans hx.ongoing.symm, hfired, hans.renewed⟩

/-- A state change is reported with its firing, unless a guard has no value after it. -/
theorem goes_moves {e : String} {ts : List Transition} {f : Firing} {s : Atomic} (hm : x.machine.WellFormed)
    (hget : x.get (.ident s.id) = .ok (.atomic s)) (hc : s.completed = false) (hp : x.perform s.action = .ok y)
    (hw : s.within = some f) (hx : x.Fires v e ts f) (hl : x.assigned = f.transition.assignments.length)
    (ha : s.action = .move f.transition.source f.transition.target) (hav : x.available = [.atomic s]) :
    let c : Call := .execute (.ident s.id)
    x.Goes c (x.performed? c) (x.report? c) (x.after c) := by
  intro c
  obtain ⟨hi, -, hfired, -, -⟩ := fires_move (s := s) hx hm hl (ha ▸ hp)
  have hevent : x.event ≠ none := by
    rw [hx.event]
    nofun
  have hfires : x.Fired c s (y.past s) :=
    ⟨⟨rfl, (get_eq_ok hget).1⟩, by rw [ha]; rfl, by rw [ha]; rfl, hevent, hi.event, hi.ongoing, hfired⟩
  cases ho : (y.past s).offer with
  | ok steps =>
    have hans := answered_of_offer hget hc hp ho
    rw [completedWith_executed, hw, hi.event] at hans
    rw [hans.performed, hans.report, hans.after]
    exact .moves ⟨hfires.toActs, hfires.isEvent, hfires.isMove, hevent, hi.event, hi.ongoing, hfired⟩ hans.smooth
      hans.renewed hx.ongoing hx.transition
  | error err =>
    have hex : x.execute (.ident s.id) = (y.past s, .error (.eval err)) := by
      rw [execute_of_get hget hc]
      simp only [hp, ho]
    have hrep : x.report? c = none := by simp [c, report?, hex, Except.toOption]
    have hafter : x.after c = y.past s := congrArg Prod.fst hex
    rw [performed?_of_get hget hc hp, hrep, hafter]
    refine .stalls hfires ⟨s, y, err, hget, hc, hp, ho⟩ ?_
    intro step hstep
    rw [past_available ((perform_available hp).trans hav)] at hstep
    exact ⟨_, List.mem_singleton.mp hstep, rfl⟩

theorem Stage.goes_execute (h : x.Stage v) (hm : x.machine.WellFormed) (id : Value) :
    x.Goes (.execute id) (x.performed? (.execute id)) (x.report? (.execute id)) (x.after (.execute id)) := by
  cases ht : x.taken? (.execute id) with
  | none =>
    obtain ⟨f, hf⟩ := execute_of_not_taken ht
    have hperf : x.performed? (.execute id) = none := by simp only [performed?, ht]
    have hrep : x.report? (.execute id) = none := by simp [report?, hf, Except.toOption]
    have hafter : x.after (.execute id) = x.counted x.count := congrArg Prod.fst hf
    rw [hperf, hrep, hafter]
    refine .nothing (Nat.le_refl _) ?_
    rintro ⟨s, y, err, hget, hc, hp, -⟩
    simp [taken?, hget, hc, hp, Except.toOption] at ht
  | some i =>
    cases takes_of_taken? ht with
    | @execute s y hget hc hp =>
      have hs := (get_eq_ok hget).1
      cases h.performs hs hc with
      | event hi hv hts he hw ha =>
        obtain ⟨steps, ho, hch⟩ := idle_event hi hts he hw (ha ▸ hp)
        have hans := answered_of_offer hget hc hp ho
        have hfired : y.fired = x.fired := by simpa [ha, Action.isMove] using perform_fired hp
        have hchosen := Option.ne_none_iff_exists'.mpr ⟨_, hch.event⟩
        rw [completedWith_executed, hw] at hans
        rw [hans.performed, hans.report, hans.after]
        exact .event ⟨⟨rfl, hs⟩, hans.smooth, by rw [ha]; rfl, by rw [ha]; rfl, hi.event, hchosen, hch.ongoing, hfired,
          hans.renewed⟩
      | activate hen hw ha =>
        obtain ⟨steps, ho, hfi⟩ := entered_activate hen hw (ha ▸ hp)
        exact goes_works hget hc hp ho hw hen.toWithin hfi.toWithin (by rw [ha]; rfl) (by rw [ha]; rfl)
      | assign hf hw hat ha =>
        obtain ⟨steps, ho, hfi⟩ := fires_assign hf hw hat (ha ▸ hp)
        exact goes_works hget hc hp ho hw hf.toWithin hfi.toWithin (by rw [ha]; rfl) (by rw [ha]; rfl)
      | move hf hw hl ha hav => exact goes_moves hm hget hc hp hw hf hl ha hav

theorem Stage.goes_enter (h : x.Stage v) (id : Value) : x.Goes (.enter id) none none (x.after (.enter id)) := by
  cases ht : x.taken? (.enter id) with
  | none =>
    obtain ⟨f, hf⟩ := enter_of_not_taken ht
    have hafter : x.after (.enter id) = x.counted x.count := congrArg Prod.fst hf
    rw [hafter]
    exact .nothing (Nat.le_refl _) nofun
  | some i =>
    cases takes_of_taken? ht with
    | @enter f hget =>
      have hmem := (get_eq_ok hget).1
      have hok := h.enters_firing hmem
      obtain ⟨e, ts, hch⟩ := h.chosen_of_firing hmem
      obtain ⟨steps, ho, hen⟩ := chosen_enter hch hmem
      have hafter : x.after (.enter (.ident f.id)) = (x.inside f).offering steps := by
        show (x.enter (.ident f.id)).1 = _
        rw [enter_of_get hget, ho]
      have hnew := enter_renews hok
      rw [show (x.enter (.ident f.id)).1 = _ from hafter] at hnew
      rw [hafter]
      exact .enters ⟨rfl, hmem, rfl, rfl, rfl, hnew⟩

theorem Stage.goes (h : x.Stage v) (hm : x.machine.WellFormed) (c : Call) :
    x.Goes c (x.performed? c) (x.report? c) (x.after c) := by
  cases c with
  | execute id => exact h.goes_execute hm id
  | enter id => exact h.goes_enter id
  | check _ _ _ => exact .nothing (k := x.count) (Nat.le_refl _) nofun
  | snapshot => exact .nothing (Nat.le_succ _) nofun

/-- What is reported when a step is executed: the step, and with a state change the firing that is ongoing. -/
theorem Stage.reported {id : Value} {ids : List Id} (h : x.Stage v) (hm : x.machine.WellFormed)
    (hr : (x.execute id).2 = .ok ids) :
    ∃ s, .atomic s ∈ x.available ∧ id = .ident s.id ∧
      (s.action.isMove = false ∧ ids = [s.id] ∨
        s.action.isMove = true ∧ ∃ f, x.ongoing = some f ∧ x.transition = some f.transition ∧ ids = [s.id, f.id]) := by
  have hg := h.goes_execute hm id
  have hrep : x.report? (.execute id) = some ids := by simp [report?, hr, Except.toOption]
  rw [hrep] at hg
  generalize x.performed? (.execute id) = p at hg
  generalize x.after (.execute id) = y at hg
  cases hg with
  | event hs =>
    cases hs.call
    exact ⟨_, hs.offered, rfl, Or.inl ⟨hs.isMove, rfl⟩⟩
  | works hs =>
    cases hs.call
    exact ⟨_, hs.offered, rfl, Or.inl ⟨hs.isMove, rfl⟩⟩
  | moves hs _ _ hong htr =>
    cases hs.call
    exact ⟨_, hs.offered, rfl, Or.inr ⟨hs.isMove, _, hong, htr, rfl⟩⟩

/-- Only a state change stalls, and then executing it is refused. -/
theorem Stage.stalls_moves (h : x.Stage v) (hm : x.machine.WellFormed) (hs : x.Stalls c) :
    ∃ id a f, c = .execute id ∧ x.performed? c = some a ∧ a.isMove = true ∧ (x.execute id).2 = .error f := by
  have hg := h.goes hm c
  generalize hp : x.performed? c = p at hg
  generalize hr : x.report? c = r at hg
  generalize x.after c = y at hg
  cases hg with
  | nothing _ hno => exact absurd hs hno
  | enters he =>
    obtain rfl := he.call
    cases hs
  | event he => exact absurd hs he.smooth
  | works hw => exact absurd hs hw.smooth
  | moves _ hno => exact absurd hs hno
  | @stalls s _ hf =>
    obtain rfl := hf.call
    cases hex : (x.execute (.ident s.id)).2 with
    | ok ids => simp [report?, hex, Except.toOption] at hr
    | error f => exact ⟨_, s.action, f, rfl, rfl, hf.isMove, hex⟩

/-! ## Counting -/

/-- The actions that calls perform, one after the other. -/
def performed (x : Execution) : List Call → List Action
  | [] => []
  | c :: cs => (x.performed? c).toList ++ (x.after c).performed cs

/-- The reports of completed steps that calls are answered with. -/
def reports (x : Execution) : List Call → List (List Id)
  | [] => []
  | c :: cs => (x.report? c).toList ++ (x.after c).reports cs

/-- Whether an event is active, as a number. -/
def active (x : Execution) : Nat := if x.event.isSome then 1 else 0

theorem active_of_none (h : x.event = none) : x.active = 0 := by simp [active, h]

theorem active_of_ne (h : x.event ≠ none) : x.active = 1 := by simp [active, Option.isSome_iff_ne_none.mpr h]

theorem active_congr (h : y.event = x.event) : y.active = x.active := by rw [active, active, h]

theorem Stage.after_events (h : x.Stage v) (hm : x.machine.WellFormed) (c : Call) :
    (x.performed? c).toList.countP Action.isEvent + x.fired + x.active = (x.after c).fired + (x.after c).active := by
  have hg := h.goes hm c
  generalize x.performed? c = p at hg ⊢
  generalize x.report? c = r at hg
  generalize x.after c = y at hg ⊢
  cases hg with
  | @nothing k =>
    show _ + x.fired + x.active = x.fired + x.active
    simp
  | enters h => simp [h.fired, active_congr h.event]
  | event h =>
    simp [h.isEvent, h.fired, active_of_none h.inactive, active_of_ne h.active]
    omega
  | works h => simp [h.isEvent, h.fired, active_congr h.event]
  | moves h => simp [h.isEvent, h.fired, active_of_none h.inactive, active_of_ne h.active]
  | stalls h => simp [h.isEvent, h.fired, active_of_none h.inactive, active_of_ne h.active]

theorem Advances.stage (h : x.Advances v y) : ∃ w, y.Stage w := by
  cases h with
  | stays h _ _ => exact ⟨v, h⟩
  | moves h _ _ _ => exact ⟨_, h⟩

/-- As many events are executed as transitions are fired, and one more while an event is active. -/
theorem Stage.events_performed (h : x.Stage v) (hm : x.machine.WellFormed) (cs : List Call) :
    (x.performed cs).countP Action.isEvent + x.fired + x.active = (x.afterAll cs).fired + (x.afterAll cs).active := by
  induction cs generalizing x v with
  | nil => simp [performed, afterAll]
  | cons c cs ih =>
    obtain ⟨w, h'⟩ := (h.after hm c).stage
    have hstep := h.after_events hm c
    have hrest : _ = (x.afterAll (c :: cs)).fired + (x.afterAll (c :: cs)).active := ih h' (after_machine x c ▸ hm)
    rw [performed, List.countP_append]
    omega

/-- How many of some reports are of two steps. -/
def pairs {α : Type} (rs : List (List α)) : Nat := rs.countP fun ids => ids.length = 2

theorem pairs_map {α β : Type} (g : α → β) (rs : List (List α)) : pairs (rs.map (·.map g)) = pairs rs := by
  simp only [pairs, List.countP_map]
  congr 1
  funext ids
  simp

theorem Stage.after_pairs (h : x.Stage v) (hm : x.machine.WellFormed) (c : Call) :
    (¬ x.Stalls c ∧ (x.after c).fired = x.fired + pairs (x.report? c).toList) ∨
      (x.Stalls c ∧ (x.after c).Spent ∧ x.report? c = none ∧ (x.after c).fired = x.fired + 1) := by
  have hg := h.goes hm c
  generalize x.performed? c = p at hg
  generalize x.report? c = r at hg ⊢
  generalize x.after c = y at hg ⊢
  cases hg with
  | nothing _ hs => exact Or.inl ⟨hs, rfl⟩
  | enters h =>
    obtain rfl := h.call
    exact Or.inl ⟨nofun, h.fired⟩
  | event h => exact Or.inl ⟨h.smooth, h.fired⟩
  | works h => exact Or.inl ⟨h.smooth, h.fired⟩
  | moves h hs => exact Or.inl ⟨hs, h.fired⟩
  | stalls h hs hspent => exact Or.inr ⟨hs, hspent, rfl, h.fired⟩

/-- A spent execution reports nothing more. -/
theorem Spent.reports (h : x.Spent) (cs : List Call) : x.reports cs = [] := by
  induction cs generalizing x with
  | nil => rfl
  | cons c cs ih =>
    have hnone : x.report? c = none := by
      cases c with
      | execute id =>
        obtain ⟨f, hf⟩ := h.execute id
        simp [report?, hf, Except.toOption]
      | _ => rfl
    obtain ⟨k, hk⟩ := h.after c
    have hspent : (x.after c).Spent := by
      rw [hk]
      exact h
    rw [Execution.reports, hnone, ih hspent]
    rfl

/-- As many transitions are fired as pairs are reported, and one more if a call stalls. -/
theorem Stage.pairs_reported (h : x.Stage v) (hm : x.machine.WellFormed) (cs : List Call) :
    (x.Smooth cs ∧ (x.afterAll cs).fired = x.fired + pairs (x.reports cs)) ∨
      (¬ x.Smooth cs ∧ (x.afterAll cs).fired = x.fired + pairs (x.reports cs) + 1) := by
  induction cs generalizing x v with
  | nil => exact Or.inl ⟨trivial, rfl⟩
  | cons c cs ih =>
    have happ : pairs (x.reports (c :: cs)) = pairs (x.report? c).toList + pairs ((x.after c).reports cs) := by
      rw [reports, pairs, List.countP_append]
      rfl
    rcases h.after_pairs hm c with ⟨hs, hf⟩ | ⟨hs, hspent, hrep, hf⟩
    · obtain ⟨w, h'⟩ := (h.after hm c).stage
      rcases ih h' (after_machine x c ▸ hm) with ⟨hsm, hcs⟩ | ⟨hsm, hcs⟩
      · refine Or.inl ⟨⟨hs, hsm⟩, ?_⟩
        show ((x.after c).afterAll cs).fired = _
        omega
      · refine Or.inr ⟨fun hboth => hsm hboth.2, ?_⟩
        show ((x.after c).afterAll cs).fired = _
        omega
    · refine Or.inr ⟨fun hboth => hboth.1 hs, ?_⟩
      obtain ⟨k, hk⟩ := spent_afterAll hspent cs
      show ((x.after c).afterAll cs).fired = _
      rw [happ, hspent.reports cs, hrep, hk]
      exact hf

/-! ## No step is reported twice -/

/-- A step that can still be reported: it is offered, it is the firing that is ongoing, or it is not numbered yet. -/
inductive Reportable (x : Execution) : Id → Prop
  | offered {step : Step} : step ∈ x.available → Reportable x step.id
  | ongoing {f : Firing} : x.ongoing = some f → Reportable x f.id
  | later {k : Nat} : x.count ≤ k → Reportable x (.step x.run k)

/-- The firing that is ongoing was numbered before the steps that are offered. -/
structure InOrder (x : Execution) : Prop where
  numbered : x.Numbered
  ongoing : ∀ f, x.ongoing = some f →
    (∃ k, f.id = .step x.run k ∧ k < x.count) ∧ ∀ step ∈ x.available, step.id ≠ f.id

theorem Numbered.not_renewed (h : x.Numbered) (hn : x.Renewed y) {step step' : Step} (hs : step ∈ x.available)
    (hs' : step' ∈ y.available) : step'.id ≠ step.id := by
  obtain ⟨k, hk, hlt⟩ := h step hs
  obtain ⟨k', hk', hle, -⟩ := hn step' hs'
  rw [hk, hk']
  intro heq
  injection heq with _ heq
  omega

theorem start_inOrder {run : Nat} {m : Machine} (h : Execution.start run m = .ok x) : x.InOrder := by
  obtain ⟨-, -, -, -, -, hi, -⟩ := start_eq_ok h
  exact ⟨start_numbered h, fun f hf => nomatch hi.ongoing.symm.trans hf⟩

theorem InOrder.after (hx : x.InOrder) (h : x.Stage v) (hm : x.machine.WellFormed) (c : Call) :
    (x.after c).InOrder := by
  have hle := (x.after_stays_or_renews c).1
  have hrun := x.after_run c
  have hnum := hx.numbered.after c
  refine ⟨hnum, ?_⟩
  intro f hf
  have hold : x.ongoing = some f → x.Renewed (x.after c) →
      (∃ k, f.id = .step (x.after c).run k ∧ k < (x.after c).count) ∧
        ∀ step ∈ (x.after c).available, step.id ≠ f.id := by
    intro hong hnew
    obtain ⟨⟨k, hk, hlt⟩, -⟩ := hx.ongoing f hong
    refine ⟨⟨k, by rw [hrun, hk], by omega⟩, fun step hstep => ?_⟩
    obtain ⟨k', hk', hle', -⟩ := hnew step hstep
    rw [hk, hk']
    intro heq
    injection heq with _ heq
    omega
  have hg := h.goes hm c
  generalize x.performed? c = p at hg
  generalize x.report? c = r at hg
  generalize x.after c = y at hg hle hrun hf hold ⊢
  cases hg with
  | nothing =>
    obtain ⟨⟨k, hk, hlt⟩, hne⟩ := hx.ongoing f hf
    exact ⟨⟨k, hk, Nat.lt_of_lt_of_le hlt hle⟩, hne⟩
  | enters h =>
    obtain rfl := Option.some.inj (h.ongoing.symm.trans hf)
    obtain ⟨k, hk, hlt⟩ := hx.numbered _ h.offered
    refine ⟨⟨k, by rw [hrun]; exact hk, by omega⟩, fun step hstep => ?_⟩
    exact hx.numbered.not_renewed h.renewed h.offered hstep
  | event h => cases h.ongoing.symm.trans hf
  | works h => exact hold (h.ongoing.symm.trans hf) h.renewed
  | moves h => cases h.ongoing.symm.trans hf
  | stalls h => cases h.ongoing.symm.trans hf

theorem Reportable.before {i : Id} (hi : (x.after c).Reportable i) (h : x.Stage v) (hm : x.machine.WellFormed) :
    x.Reportable i := by
  have hg := h.goes hm c
  cases hi with
  | @offered step hstep =>
    rcases (x.after_stays_or_renews c).2 with hst | hnew
    · rcases hst step hstep with hold | ⟨s, hold, rfl⟩
      · exact .offered hold
      · have hr : x.Reportable (Step.atomic s).id := .offered hold
        exact hr
    · obtain ⟨k, hk, hle, -⟩ := hnew step hstep
      rw [hk]
      exact .later hle
  | @ongoing f hf =>
    generalize x.performed? c = p at hg
    generalize x.report? c = r at hg
    generalize x.after c = y at hg hf
    cases hg with
    | nothing => exact .ongoing hf
    | enters h =>
      obtain rfl := Option.some.inj (h.ongoing.symm.trans hf)
      exact .offered h.offered
    | event h => cases h.ongoing.symm.trans hf
    | works h => exact .ongoing (h.ongoing.symm.trans hf)
    | moves h => cases h.ongoing.symm.trans hf
    | stalls h => cases h.ongoing.symm.trans hf
  | later hle =>
    rw [after_run]
    exact .later (Nat.le_trans (x.after_stays_or_renews c).1 hle)

/-- A number that was given out is not reported any more, once all that is offered was numbered later. -/
theorem not_reportable {k : Nat} (hk : k < x.count) (hnew : x.Renewed y)
    (hle : x.count ≤ y.count) (hong : ∀ f, y.ongoing = some f → f.id ≠ .step x.run k) :
    ¬ y.Reportable (.step x.run k) := by
  generalize hi : Id.step x.run k = i at hong
  intro hr
  cases hr with
  | offered hstep =>
    obtain ⟨k', hk', hle', -⟩ := hnew _ hstep
    rw [hk'] at hi
    injection hi with _ hi
    omega
  | ongoing hf => exact hong _ hf rfl
  | later hle' =>
    injection hi with _ hi
    omega

/-- What is reported could be reported, each step once, and cannot be reported again. -/
theorem Stage.report_once {ids : List Id} (h : x.Stage v) (hm : x.machine.WellFormed) (hx : x.InOrder)
    (hr : x.report? c = some ids) :
    ids.Nodup ∧ (∀ i ∈ ids, x.Reportable i) ∧ ∀ i ∈ ids, ¬ (x.after c).Reportable i := by
  have hle := (x.after_stays_or_renews c).1
  have hg := h.goes hm c
  rw [hr] at hg
  generalize x.performed? c = p at hg
  generalize x.after c = y at hg hle ⊢
  have hstep : ∀ {s}, x.Acts c s → x.Renewed y → (∀ f, y.ongoing = some f → f.id ≠ s.id) →
      ¬ y.Reportable s.id := by
    intro s hs hnew hong
    obtain ⟨k, hk, hlt⟩ := hx.numbered _ hs.offered
    have hk : s.id = .step x.run k := hk
    rw [hk] at hong ⊢
    exact not_reportable hlt hnew hle hong
  cases hg with
  | event hs =>
    refine ⟨List.nodup_singleton _, ?_, ?_⟩
    · exact List.forall_mem_singleton.mpr (.offered hs.offered)
    · refine List.forall_mem_singleton.mpr (hstep hs.toActs hs.renewed fun f hf => ?_)
      cases hs.ongoing.symm.trans hf
  | works hs =>
    refine ⟨List.nodup_singleton _, ?_, ?_⟩
    · exact List.forall_mem_singleton.mpr (.offered hs.offered)
    · refine List.forall_mem_singleton.mpr (hstep hs.toActs hs.renewed fun f hf => ?_)
      exact ((hx.ongoing f (hs.ongoing.symm.trans hf)).2 _ hs.offered).symm
  | @moves s f _ hs _ hnew hongx _ =>
    obtain ⟨⟨k, hk, hlt⟩, hne⟩ := hx.ongoing f hongx
    have hnone : ∀ g, y.ongoing = some g → False := fun g hg => nomatch hs.ongoing.symm.trans hg
    have hne' : s.id ≠ f.id := hne _ hs.offered
    refine ⟨by simpa using hne', ?_, ?_⟩
    · simpa using ⟨.offered hs.offered, .ongoing hongx⟩
    · have hs' := hstep hs.toActs hnew fun g hg => (hnone g hg).elim
      have hf' := not_reportable hlt hnew hle fun g hg => (hnone g hg).elim
      rw [← hk] at hf'
      simpa using ⟨hs', hf'⟩

/-- No step is reported twice. -/
theorem Stage.reports_nodup (h : x.Stage v) (hm : x.machine.WellFormed) (hx : x.InOrder) (cs : List Call) :
    (x.reports cs).flatten.Nodup ∧ ∀ i ∈ (x.reports cs).flatten, x.Reportable i := by
  induction cs generalizing x v with
  | nil => simp [reports]
  | cons c cs ih =>
    obtain ⟨w, h'⟩ := (h.after hm c).stage
    obtain ⟨hnd, hall⟩ := ih h' (after_machine x c ▸ hm) (hx.after h hm c)
    have hbefore : ∀ i ∈ ((x.after c).reports cs).flatten, x.Reportable i := fun i hi => (hall i hi).before h hm
    cases hr : x.report? c with
    | none =>
      rw [reports, hr]
      exact ⟨hnd, hbefore⟩
    | some ids =>
      obtain ⟨hids, hthen, hgone⟩ := h.report_once hm hx hr
      have hflat : (x.reports (c :: cs)).flatten = ids ++ ((x.after c).reports cs).flatten := by
        rw [reports, hr]
        simp
      rw [hflat]
      refine ⟨hids.append hnd fun i hi hi' => hgone i hi (hall i hi'), ?_⟩
      intro i hi
      rcases List.mem_append.mp hi with hi | hi
      · exact hthen i hi
      · exact hbefore i hi

/-! ## The firing that was entered -/

/-- The firing `f` was entered by one of the calls, and since then no transition was fired. -/
structure EnteredBy (x : Execution) (cs : List Call) (f : Firing) (bs : List Call) : Prop where
  prefixed : bs ++ [.enter (.ident f.id)] <+: cs
  offered : .firing f ∈ (x.afterAll bs).available
  fired : (x.afterAll bs).fired = (x.afterAll cs).fired

theorem EnteredBy.append {cs bs : List Call} {f : Firing} (h : x.EnteredBy cs f bs) (c : Call)
    (hf : (x.afterAll (cs ++ [c])).fired = (x.afterAll cs).fired) : x.EnteredBy (cs ++ [c]) f bs :=
  ⟨h.prefixed.trans (List.prefix_append _ _), h.offered, h.fired.trans hf.symm⟩

/-- An ongoing firing was entered. -/
theorem ongoing_entered {run : Nat} {m : Machine} (hm : m.WellFormed) (hx : Execution.start run m = .ok x)
    (cs : List Call) {f : Firing} (hf : (x.afterAll cs).ongoing = some f) : ∃ bs, x.EnteredBy cs f bs := by
  obtain ⟨_, -, hall⟩ := afterAll_stage hm hx
  induction cs using List.reverseRecOn with
  | nil =>
    obtain ⟨-, -, -, -, -, hi, -⟩ := start_eq_ok hx
    cases hi.ongoing.symm.trans hf
  | append_singleton cs c ih =>
    obtain ⟨hmach, v, hst, -⟩ := hall cs
    have hlast : x.afterAll (cs ++ [c]) = (x.afterAll cs).after c := afterAll_append x cs [c]
    have hg := hst.goes (hmach ▸ hm) c
    rw [← hlast] at hg
    generalize (x.afterAll cs).performed? c = p at hg
    generalize (x.afterAll cs).report? c = r at hg
    generalize hy : x.afterAll (cs ++ [c]) = y at hg hf
    cases hg with
    | nothing =>
      obtain ⟨bs, hbs⟩ := ih hf
      exact ⟨bs, hbs.append c (by rw [hy]; rfl)⟩
    | enters h =>
      obtain rfl := Option.some.inj (h.ongoing.symm.trans hf)
      obtain rfl := h.call
      exact ⟨cs, List.prefix_rfl, h.offered, by rw [hy, h.fired]⟩
    | event h => cases h.ongoing.symm.trans hf
    | works h =>
      obtain ⟨bs, hbs⟩ := ih (h.ongoing.symm.trans hf)
      exact ⟨bs, hbs.append c (by rw [hy, h.fired])⟩
    | moves h => cases h.ongoing.symm.trans hf
    | stalls h => cases h.ongoing.symm.trans hf

/-- A firing that is entered by a call was offered, so the call is answered. -/
theorem EnteredBy.answered {run : Nat} {m : Machine} (hm : m.WellFormed) (hx : Execution.start run m = .ok x)
    {cs bs : List Call} {f : Firing} (h : x.EnteredBy cs f bs) : ((x.afterAll bs).enter (.ident f.id)).2 = .ok () := by
  obtain ⟨_, -, hall⟩ := afterAll_stage hm hx
  obtain ⟨-, v, hst, -⟩ := hall bs
  exact hst.enters_firing h.offered

end Execution

/-! ## In a session -/

/-- The request that makes a call of the execution of a file. -/
def Call.request (name : String) : Call → Request
  | .execute id => .execute (.str name) id
  | .enter id => .enter (.str name) id
  | .check type id entries => .check (.str name) type id entries
  | .snapshot => .state (.str name)

/-- The steps that a reply reports as completed, if it is such a report. -/
def Reply.report? (r : Reply) : Option (List Ident) :=
  match r.result with
  | .ok (.completed ids) => some ids
  | _ => none

namespace Session

variable {s : Session} {name : String} {x : Execution}

/-- The session after calls of the execution of a file. -/
def passOn (s : Session) (name : String) (cs : List Call) : Session :=
  s.afterAll (cs.map fun c => .request (c.request name))

/-- The reports of completed steps that calls of the execution of a file are answered with. -/
def reports (s : Session) (name : String) : List Call → List (List Ident)
  | [] => []
  | c :: cs => (s.handle (c.request name)).2.report?.toList ++ (s.handle (c.request name)).1.reports name cs

theorem handle_execute (hx : s.executions.get? name = some x) (id : Value) :
    s.handle (.execute (.str name) id) = (s.keep name (x.execute id).1,
      ⟨[], (x.execute id).2.map fun ids => .completed (ids.map .minted)⟩) := by
  rw [handle, change_eq (read_str hx)]

theorem handle_enter (hx : s.executions.get? name = some x) (id : Value) :
    s.handle (.enter (.str name) id) = (s.keep name (x.enter id).1, ⟨[], (x.enter id).2.map fun _ => .done⟩) := by
  rw [handle, change_eq (read_str hx)]

theorem request_execution (hx : s.executions.get? name = some x) (c : Call) :
    (s.handle (c.request name)).1.executions.get? name = some (x.after c) := by
  cases c with
  | execute id =>
    rw [Call.request, handle_execute hx]
    exact Table.get?_put_self
  | enter id =>
    rw [Call.request, handle_enter hx]
    exact Table.get?_put_self
  | check type id entries =>
    rw [Call.request, handle_of_looks (.check _ _ _ _)]
    exact hx
  | snapshot =>
    rw [Call.request, handle, change_eq (read_str hx)]
    exact Table.get?_put_self

theorem request_report (hx : s.executions.get? name = some x) (c : Call) :
    (s.handle (c.request name)).2.report? = (x.report? c).map (·.map .minted) := by
  cases c with
  | execute id =>
    rw [Call.request, handle_execute hx, Execution.report?]
    cases (x.execute id).2 <;> rfl
  | enter id =>
    rw [Call.request, handle_enter hx]
    cases (x.enter id).2 <;> rfl
  | check type id entries =>
    simp only [Call.request, handle, look, read_str hx, Reply.report?]
    cases x.check type id entries <;> rfl
  | snapshot =>
    rw [Call.request, handle, change_eq (read_str hx)]
    rfl

theorem passOn_execution (hx : s.executions.get? name = some x) (cs : List Call) :
    (s.passOn name cs).executions.get? name = some (x.afterAll cs) := by
  induction cs generalizing s x with
  | nil => exact hx
  | cons c cs ih => exact ih (request_execution hx c)

theorem reports_eq (hx : s.executions.get? name = some x) (cs : List Call) :
    s.reports name cs = (x.reports cs).map (·.map .minted) := by
  induction cs generalizing s x with
  | nil => rfl
  | cons c cs ih =>
    rw [reports, Execution.reports, List.map_append, ih (request_execution hx c), request_report hx]
    cases x.report? c <;> rfl

/-- However the execution of a file is called from its start, what it reports adds up. Executing a step reports the
    step, and with a state change the firing that was entered for it. No step is reported twice. The events executed
    are the transitions fired, and one that is active. The transitions fired are the reports of two steps, and a
    state change that stalled. -/
theorem completions_add_up {load run : Nat} {t : Tree} {m : Machine} (hm : Machine.ofTree load t = .ok m)
    (hstart : Execution.start run m = .ok x) (hx : s.executions.get? name = some x) (cs : List Call) :
    let y := x.afterAll cs
    (s.passOn name cs).executions.get? name = some y ∧
    (∀ id a, ((s.passOn name cs).handle (.execute (.str name) id)).2.result = .ok a →
      ∃ st, .atomic st ∈ y.available ∧ id = .ident st.id ∧
        (st.action.isMove = false ∧ a = .completed [.minted st.id] ∨
          st.action.isMove = true ∧ ∃ f bs, x.EnteredBy cs f bs ∧
            ((s.passOn name bs).handle (.enter (.str name) (.ident f.id))).2.result = .ok .done ∧
            y.transition = some f.transition ∧ a = .completed [.minted st.id, .minted f.id])) ∧
    (s.reports name cs).flatten.Nodup ∧
    (x.performed cs).countP Action.isEvent = y.fired + (if y.event.isSome then 1 else 0) ∧
    (∀ bs c, bs ++ [c] <+: cs → (x.afterAll bs).Stalls c →
      (∃ a, (x.afterAll bs).performed? c = some a ∧ a.isMove = true) ∧
        ∃ f, ((s.passOn name bs).handle (c.request name)).2.result = .error f) ∧
    (x.Smooth cs ∧ y.fired = Execution.pairs (s.reports name cs) ∨
      ¬ x.Smooth cs ∧ y.fired = Execution.pairs (s.reports name cs) + 1) := by
  intro y
  have hwf := ofTree_wellFormed hm
  obtain ⟨_, -, hall⟩ := Execution.afterAll_stage hwf hstart
  obtain ⟨-, -, -, hmach, hfired, hi, -, ho⟩ := Execution.start_eq_ok hstart
  have hst : x.Stage x.env := .idle hi rfl ho
  have hxm : x.machine.WellFormed := hmach ▸ hwf
  refine ⟨passOn_execution hx cs, ?_, ?_, ?_, ?_, ?_⟩
  · intro id a ha
    obtain ⟨hmach', v, hst', -⟩ := hall cs
    rw [handle_execute (passOn_execution hx cs)] at ha
    obtain ⟨ids, hids, rfl⟩ : ∃ ids, (y.execute id).2 = .ok ids ∧ a = .completed (ids.map .minted) := by
      cases hex : (y.execute id).2 with
      | error f =>
        rw [hex] at ha
        cases ha
      | ok ids =>
        rw [hex] at ha
        cases ha
        exact ⟨ids, rfl, rfl⟩
    obtain ⟨st, hmem, hid, ⟨hmove, rfl⟩ | ⟨hmove, f, hong, htr, rfl⟩⟩ := hst'.reported (hmach' ▸ hwf) hids
    · exact ⟨st, hmem, hid, Or.inl ⟨hmove, rfl⟩⟩
    · obtain ⟨bs, hbs⟩ := Execution.ongoing_entered hwf hstart cs hong
      refine ⟨st, hmem, hid, Or.inr ⟨hmove, f, bs, hbs, ?_, htr, rfl⟩⟩
      rw [handle_enter (passOn_execution hx bs), hbs.answered hwf hstart]
      rfl
  · rw [reports_eq hx, ← List.map_flatten]
    exact (hst.reports_nodup hxm (Execution.start_inOrder hstart) cs).1.map fun i j h => Ident.minted.inj h
  · have hev := hst.events_performed hxm cs
    rw [hfired, Execution.active_of_none hi.event] at hev
    exact hev
  · intro bs c _ hs
    obtain ⟨hmach', v, hst', -⟩ := hall bs
    obtain ⟨id, a, f, rfl, hp, hmove, hf⟩ := hst'.stalls_moves (hmach' ▸ hwf) hs
    refine ⟨⟨a, hp, hmove⟩, f, ?_⟩
    rw [Call.request, handle_execute (passOn_execution hx bs), hf]
    rfl
  · have hp := hst.pairs_reported hxm cs
    rw [hfired, Nat.zero_add] at hp
    rw [reports_eq hx, Execution.pairs_map]
    exact hp

end Session

/-- A session in which the door is executed. -/
def Door.session : Session := ⟨[], [("door", Door.machine)], [("door", Door.execution)], 1⟩

theorem Door.session_execution : Door.session.executions.get? "door" = some Door.execution := by
  simp [session, Table.get?]

/-- The door is knocked at, and then it is pushed open. -/
def Door.knockedAndPushed : List Call :=
  [execute 0, enter 3, execute 4, execute 5, execute 7, enter 9, execute 10, execute 11, execute 12]

/-- The steps reported for it. -/
def Door.reported : List (List Ident) :=
  [[0], [4], [5, 3], [7], [10], [11]].map (·.map fun k => .minted (.step 0 k))

/-- The knock is reported together with the state change that completes it. The state change to the open door stalls:
    of two transitions fired one is reported. -/
theorem Session.pushed_door_adds_up :
    let cs := Door.knockedAndPushed
    let y := Door.execution.afterAll cs
    Door.session.reports "door" cs = Door.reported ∧ y.fired = 2 ∧ y.event = none ∧
      (Door.execution.performed cs).countP Action.isEvent = 2 ∧ ¬ Door.execution.Smooth cs := by
  intro cs y
  have hrun : Door.session.reports "door" cs = Door.reported ∧ y.fired = 2 ∧ y.event = none := by decide +kernel
  obtain ⟨hreports, hfired, hevent⟩ := hrun
  obtain ⟨-, -, -, hevents, -, hpairs⟩ := completions_add_up Door.built Door.starts Door.session_execution cs
  refine ⟨hreports, hfired, hevent, ?_, ?_⟩
  · have hcount : (Door.execution.performed cs).countP Action.isEvent = y.fired + if y.event.isSome then 1 else 0 :=
      hevents
    rw [hcount, hfired, hevent]
    rfl
  · rcases hpairs with ⟨-, hno⟩ | ⟨hs, -⟩
    · rw [hreports] at hno
      have hone : Execution.pairs Door.reported = 1 := by decide
      cases hfired.symm.trans (hno.trans hone)
    · exact hs

end Statechart
