/-
  Statechart.Proofs.Stage — where an execution can be on its way through a big step.

  Between two big steps an execution is `Idle`. It is then `Chosen` (an event is active),
  `Entered` (a firing was entered, nothing of it done) and `Fires` (the transition is
  active and some of its assignments were run). An idle execution can also be stuck: the
  last step was performed, but a guard in the new state has no value, so that only that
  step, already executed, is offered.

  Each stage has one lemma for the step that leaves it: `idle_event`, `chosen_enter`,
  `entered_activate`, `fires_assign`, `fires_move`. Of these only the last can find a
  guard without a value. `Stage` is the union of the stages, together with the variables
  at the last big step; a call keeps an execution at a stage (`Stage.after`), and every
  execution is at one after any calls (`afterAll_stage`).
-/

import Statechart.Proofs.Offer
import Mathlib.Data.List.Induction

namespace Statechart

namespace Execution

variable {x y : Execution} {v : Env} {e : String} {ts : List Transition} {f : Firing} {s : Atomic}

/-! ## The stages -/

/-- Nothing is under way. -/
structure Idle (x : Execution) : Prop where
  event : x.event = none
  transition : x.transition = none
  ongoing : x.ongoing = none
  assigned : x.assigned = 0

/-- An event is active. With the variables `v` the transitions `ts` were enabled, and one of them has that trigger. -/
structure Reacts (x : Execution) (v : Env) (e : String) (ts : List Transition) : Prop where
  event : x.event = some e
  enabled : enabledAmong v x.candidates = .ok ts
  answered : ∃ t ∈ ts, t.trigger = e
  offered : x.Offered

structure Chosen (x : Execution) (v : Env) (e : String) (ts : List Transition) : Prop extends Reacts x v e ts where
  ongoing : x.ongoing = none
  transition : x.transition = none
  assigned : x.assigned = 0
  env : x.env = v

/-- One of the transitions with the trigger is being fired. -/
structure Within (x : Execution) (v : Env) (e : String) (ts : List Transition) (f : Firing) : Prop
    extends Reacts x v e ts where
  ongoing : x.ongoing = some f
  mem : f.transition ∈ ts
  trigger : f.transition.trigger = e

structure Entered (x : Execution) (v : Env) (e : String) (ts : List Transition) (f : Firing) : Prop
    extends Within x v e ts f where
  transition : x.transition = none
  assigned : x.assigned = 0
  env : x.env = v

structure Fires (x : Execution) (v : Env) (e : String) (ts : List Transition) (f : Firing) : Prop
    extends Within x v e ts f where
  transition : x.transition = some f.transition
  assigned : x.assigned ≤ f.transition.assignments.length
  run : Assignment.SetsAll (f.transition.assignments.take x.assigned) v x.env

/-! ## What is offered at each stage -/

theorem mem_enabledAmong {t : Transition} (h : enabledAmong v x.candidates = .ok ts) :
    t ∈ ts ↔ t ∈ x.candidates ∧ t.Enabled v := by
  rw [(enabledAmong_eq_ok.mp h).2]
  simp

theorem candidates_state {t : Transition} (h : t ∈ x.candidates) : ∃ n, x.current = .state n := by
  unfold candidates at h
  split at h
  · exact ⟨_, ‹_›⟩
  · cases h

theorem candidates_congr (hc : y.current = x.current) (hm : y.machine = x.machine) : y.candidates = x.candidates := by
  unfold candidates
  rw [hc, hm]

theorem Reacts.notFinal (h : x.Reacts v e ts) : x.current.isFinal = false := by
  obtain ⟨t, ht, -⟩ := h.answered
  exact isFinal_eq_false.mpr (candidates_state ((mem_enabledAmong h.enabled).mp ht).1)

/-- The transitions that react to an event are the enabled ones with that trigger. -/
theorem reactions_eq (h : enabledAmong x.env x.candidates = .ok ts) :
    x.reactions e = .ok (ts.filter fun t => t.trigger = e) := by
  obtain ⟨hg, rfl⟩ := enabledAmong_eq_ok.mp h
  refine enabledAmong_eq_ok.mpr ⟨hg.filter _, ?_⟩
  rw [List.filter_filter, List.filter_filter]
  exact List.filter_congr fun t _ => Bool.and_comm _ _

theorem forall₂_zipIdx {α β : Type} {R : α → β → Prop} {g : α × Nat → β} (h : ∀ a i, R a (g (a, i))) (as : List α)
    (k : Nat) : List.Forall₂ R as ((as.zipIdx k).map g) := by
  induction as generalizing k with
  | nil => exact .nil
  | cons a as ih => exact .cons (h a k) (ih (k + 1))

theorem Offered.final (h : x.Offered) (hf : x.current.isFinal = true) : x.available = [] := by
  obtain ⟨c, hc⟩ := h
  rw [offer_final (x := x.counted c) hf] at hc
  exact (Except.ok.inj hc).symm

theorem Offered.within (h : x.Offered) (hf : x.current.isFinal = false) (ho : x.ongoing = some f) :
    ∃ i, x.available = [.atomic ⟨i, x.next f, some f, false⟩] := by
  obtain ⟨c, hc⟩ := h
  rw [offer_within (x := x.counted c) hf ho] at hc
  exact ⟨_, (Except.ok.inj hc).symm⟩

/-- Idle, the triggers of the enabled transitions are offered, each once. -/
theorem Offered.idle (h : x.Offered) (hi : x.Idle) (hf : x.current.isFinal = false) :
    ∃ ts, enabledAmong x.env x.candidates = .ok ts ∧
      List.Forall₂ (fun e s => ∃ i, s = .atomic ⟨i, .event e, none, false⟩) (ascending (ts.map (·.trigger)))
        x.available := by
  obtain ⟨c, hc⟩ := h
  rw [offer_idle (x := x.counted c) hf hi.ongoing hi.event] at hc
  obtain ⟨es, he, hc⟩ := bind_eq_ok.mp hc
  obtain ⟨ts, ht, he⟩ := bind_eq_ok.mp he
  refine ⟨ts, ht, ?_⟩
  rw [← pure_eq_ok.mp hc, pure_eq_ok.mp he]
  exact forall₂_zipIdx (fun e i => ⟨_, rfl⟩) es 0

/-- Idle, what keeps an execution from offering anything is a guard without a value. -/
theorem Idle.offer_error {err : EvalError} (hi : x.Idle) (ho : x.offer = .error err) :
    enabledAmong x.env x.candidates = .error err := by
  cases hf : x.current.isFinal with
  | true => rw [offer_final hf] at ho; cases ho
  | false =>
    rw [offer_idle hf hi.ongoing hi.event] at ho
    rcases bind_eq_error.mp ho with ho | ⟨_, _, ho⟩
    · rcases bind_eq_error.mp ho with ho | ⟨_, _, ho⟩
      · exact ho
      · cases ho
    · cases ho

/-- With an event chosen, a firing of each enabled transition with that trigger is offered, in order. -/
theorem Chosen.offers (h : x.Chosen v e ts) :
    List.Forall₂ (fun t s => ∃ i, s = .firing ⟨i, t⟩) (ts.filter fun t => t.trigger = e) x.available := by
  obtain ⟨c, hc⟩ := h.offered
  rw [offer_chosen (x := x.counted c) h.notFinal h.ongoing h.event] at hc
  obtain ⟨rs, hr, hc⟩ := bind_eq_ok.mp hc
  have hrs : (x.counted c).reactions e = .ok (ts.filter fun t => t.trigger = e) :=
    reactions_eq (x := x) (h.env ▸ h.enabled)
  obtain rfl := Except.ok.inj (hrs.symm.trans hr)
  rw [← pure_eq_ok.mp hc]
  exact forall₂_zipIdx (fun t i => ⟨_, rfl⟩) _ 0

theorem Within.offers (h : x.Within v e ts f) : ∃ i, x.available = [.atomic ⟨i, x.next f, some f, false⟩] :=
  h.offered.within h.notFinal h.ongoing

/-! ## Leaving a stage -/

/-- Activating the trigger of an enabled transition chooses it. -/
theorem idle_event (hi : x.Idle) (ht : enabledAmong x.env x.candidates = .ok ts) (he : ∃ t ∈ ts, t.trigger = e)
    (hw : s.within = none) (hp : x.perform (.event e) = .ok y) :
    ∃ steps, (y.past s).offer = .ok steps ∧ ((y.past s).offering steps).Chosen x.env e ts := by
  cases hp
  set z := ({ x with event := some e } : Execution).past s
  have hf : z.current.isFinal = false := by
    obtain ⟨t, htm, -⟩ := he
    exact isFinal_eq_false.mpr (candidates_state ((mem_enabledAmong ht).mp htm).1)
  have ho : z.ongoing = none := hw
  have hoffer : z.offer = .ok ((ts.filter fun t => t.trigger = e).zipIdx.map z.firingStep) := by
    rw [offer_chosen hf ho rfl, reactions_eq (x := z) ht]
    rfl
  exact ⟨_, hoffer, ⟨rfl, ht, he, offered_offering hoffer⟩, ho, hi.transition, hi.assigned, rfl⟩

/-- Entering one of the firings offered. -/
theorem chosen_enter (h : x.Chosen v e ts) (hm : .firing f ∈ x.available) :
    ∃ steps, (x.inside f).offer = .ok steps ∧ ((x.inside f).offering steps).Entered v e ts f := by
  obtain ⟨t, ht, i, hi⟩ := exists_of_forall₂ h.offers _ hm
  cases hi
  obtain ⟨htm, htr⟩ := List.mem_filter.mp ht
  have hoffer := offer_within (x := x.inside ⟨i, t⟩) h.notFinal rfl
  exact ⟨_, hoffer, ⟨⟨h.event, h.enabled, h.answered, offered_offering hoffer⟩, rfl, htm, by simpa using htr⟩,
    h.transition, h.assigned, h.env⟩

/-- A step of a firing that leaves the event active stays in the firing. -/
theorem Within.past (h : x.Within v e ts f) (hw : s.within = some f) (hc : y.current = x.current)
    (hm : y.machine = x.machine) (he : y.event = x.event) :
    ∃ steps, (y.past s).offer = .ok steps ∧ ((y.past s).offering steps).Within v e ts f := by
  have hev : y.event = some e := he.trans h.event
  have ho : (y.past s).ongoing = some f := by
    show (if y.event.isNone then none else s.within) = some f
    rw [hev, hw]
    rfl
  have hf : (y.past s).current.isFinal = false := by
    show y.current.isFinal = false
    rw [hc]
    exact h.notFinal
  have hcand : (y.past s).candidates = x.candidates := candidates_congr hc hm
  have hoffer := offer_within hf ho
  exact ⟨_, hoffer, ⟨hev, hcand ▸ h.enabled, h.answered, offered_offering hoffer⟩, ho, h.mem, h.trigger⟩

theorem entered_activate (h : x.Entered v e ts f) (hw : s.within = some f)
    (hp : x.perform (.activate f.transition) = .ok y) :
    ∃ steps, (y.past s).offer = .ok steps ∧ ((y.past s).offering steps).Fires v e ts f := by
  cases hp
  obtain ⟨steps, hoffer, hin⟩ := h.toWithin.past (y := { x with transition := some f.transition }) hw rfl rfl rfl
  refine ⟨steps, hoffer, hin, rfl, ?_, ?_⟩
  · show x.assigned ≤ _
    rw [h.assigned]
    exact Nat.zero_le _
  · show Assignment.SetsAll (f.transition.assignments.take x.assigned) v x.env
    rw [h.assigned, h.env]
    exact .nil v

theorem fires_assign {a : Assignment} (h : x.Fires v e ts f) (hw : s.within = some f)
    (ha : f.transition.assignments[x.assigned]? = some a) (hp : x.perform (.assign a) = .ok y) :
    ∃ steps, (y.past s).offer = .ok steps ∧ ((y.past s).offering steps).Fires v e ts f := by
  cases hr : a.run x.env with
  | error e => simp [perform, hr] at hp
  | ok w =>
    obtain rfl : { x with env := w, assigned := x.assigned + 1 } = y := by simpa [perform, hr] using hp
    obtain ⟨steps, hoffer, hin⟩ :=
      h.toWithin.past (y := { x with env := w, assigned := x.assigned + 1 }) hw rfl rfl rfl
    obtain ⟨hlt, -⟩ := List.getElem?_eq_some_iff.mp ha
    exact ⟨steps, hoffer, hin, h.transition, hlt, h.run.take_succ ha (Assignment.run_eq_ok.mp hr)⟩

/-- The state change ends a firing all of whose assignments were run; it is one big step. -/
theorem fires_move (h : x.Fires v e ts f) (hm : x.machine.WellFormed)
    (hl : x.assigned = f.transition.assignments.length)
    (hp : x.perform (.move f.transition.source f.transition.target) = .ok y) :
    (y.past s).Idle ∧ (y.past s).env = x.env ∧ (y.past s).fired = x.fired + 1 ∧
      x.machine.Arrives f.transition.target (y.past s).current ∧
      x.machine.BigStep ⟨x.current, v⟩ ⟨(y.past s).current, x.env⟩ := by
  cases ha : arrive x.machine f.transition.target with
  | error err => simp [perform, ha] at hp
  | ok t =>
    simp only [perform, ha] at hp
    cases hp
    obtain ⟨hc, hen⟩ := (mem_enabledAmong h.enabled).mp h.mem
    obtain ⟨n, hn⟩ := candidates_state hc
    have hout : f.transition ∈ (x.machine.lineage n).flatMap x.machine.outgoing := by
      simpa [candidates, hn] using hc
    obtain ⟨k, -, hk⟩ := List.mem_flatMap.mp hout
    have harr := arrive_arrives hm hk ha
    have hrun := h.run
    rw [hl, List.take_length] at hrun
    refine ⟨⟨rfl, rfl, rfl, rfl⟩, rfl, rfl, harr, ?_⟩
    rw [hn]
    exact .fire (hm.chain_lineage n) hout hen hrun harr

/-! ## Every call -/

/-- An execution is at one of the stages; `v` are the variables at the last big step. -/
inductive Stage (x : Execution) (v : Env) : Prop
  | idle : x.Idle → x.env = v → x.Offered → Stage x v
  | stuck {s : Atomic} {err : EvalError} : x.Idle → x.env = v → enabledAmong x.env x.candidates = .error err →
      s.completed = true → x.available = [.atomic s] → Stage x v
  | chosen {e : String} {ts : List Transition} : x.Chosen v e ts → Stage x v
  | entered {e : String} {ts : List Transition} {f : Firing} : x.Entered v e ts f → Stage x v
  | fires {e : String} {ts : List Transition} {f : Firing} : x.Fires v e ts f → Stage x v

/-- What performing an offered step can be. -/
inductive Performs (x : Execution) (v : Env) (s : Atomic) : Prop
  | event {e : String} {ts : List Transition} : x.Idle → x.env = v → enabledAmong x.env x.candidates = .ok ts →
      (∃ t ∈ ts, t.trigger = e) → s.within = none → s.action = .event e → Performs x v s
  | activate {e : String} {ts : List Transition} {f : Firing} : x.Entered v e ts f → s.within = some f →
      s.action = .activate f.transition → Performs x v s
  | assign {e : String} {ts : List Transition} {f : Firing} {a : Assignment} : x.Fires v e ts f → s.within = some f →
      f.transition.assignments[x.assigned]? = some a → s.action = .assign a → Performs x v s
  | move {e : String} {ts : List Transition} {f : Firing} : x.Fires v e ts f → s.within = some f →
      x.assigned = f.transition.assignments.length → s.action = .move f.transition.source f.transition.target →
      x.available = [.atomic s] → Performs x v s

theorem Entered.next (h : x.Entered v e ts f) : x.next f = .activate f.transition := by
  simp [Execution.next, h.transition]

theorem Fires.next_assign {a : Assignment} (h : x.Fires v e ts f)
    (ha : f.transition.assignments[x.assigned]? = some a) : x.next f = .assign a := by
  simp [Execution.next, h.transition, ha]

theorem Fires.next_move (h : x.Fires v e ts f) (hl : x.assigned = f.transition.assignments.length) :
    x.next f = .move f.transition.source f.transition.target := by
  simp [Execution.next, h.transition, hl]

theorem Stage.performs (h : x.Stage v) (hs : .atomic s ∈ x.available) (hc : s.completed = false) : x.Performs v s := by
  cases h with
  | idle hi hv ho =>
    cases hf : x.current.isFinal with
    | true => rw [ho.final hf] at hs; cases hs
    | false =>
      obtain ⟨ts, ht, hall⟩ := ho.idle hi hf
      obtain ⟨e, he, i, hstep⟩ := exists_of_forall₂ hall _ hs
      cases hstep
      obtain ⟨t, htm, htr⟩ := List.mem_map.mp (mem_ascending.mp he)
      exact .event hi hv ht ⟨t, htm, htr⟩ rfl rfl
  | stuck _ _ _ hdone ha =>
    rw [ha] at hs
    cases List.mem_singleton.mp hs
    rw [hdone] at hc
    cases hc
  | chosen h =>
    obtain ⟨t, -, i, hstep⟩ := exists_of_forall₂ h.offers _ hs
    cases hstep
  | entered h =>
    obtain ⟨i, hav⟩ := h.toWithin.offers
    rw [hav] at hs
    cases List.mem_singleton.mp hs
    exact .activate h rfl h.next
  | @fires e ts f h =>
    obtain ⟨i, hav⟩ := h.toWithin.offers
    rw [hav] at hs
    cases List.mem_singleton.mp hs
    cases ha : f.transition.assignments[x.assigned]? with
    | some a => exact .assign h rfl ha (h.next_assign ha)
    | none =>
      have hl : x.assigned = f.transition.assignments.length :=
        Nat.le_antisymm h.assigned (List.getElem?_eq_none_iff.mp ha)
      exact .move h rfl hl (h.next_move hl) hav

theorem candidates_eq (hm : x.machine.WellFormed) {n : String} {ns : List String} (hn : x.current = .state n)
    (hc : x.machine.Chain n ns) : x.candidates = ns.flatMap x.machine.outgoing := by
  rw [hc.unique (hm.chain_lineage n)]
  simp [candidates, hn]

theorem clear_of_enabled (hm : x.machine.WellFormed) (h : enabledAmong v x.candidates = .ok ts) :
    (⟨x.current, v⟩ : Configuration).Clear x.machine := by
  intro n ns hn hc
  rw [← candidates_eq hm hn hc]
  exact (enabledAmong_eq_ok.mp h).1

/-- Where the enabled transitions are not found, a guard on the chain of parents has no value. -/
theorem blind_of_enabledAmong {err : EvalError} (hm : x.machine.WellFormed)
    (h : enabledAmong x.env x.candidates = .error err) :
    ∃ n ns t g, x.current = .state n ∧ x.machine.Chain n ns ∧ t ∈ ns.flatMap x.machine.outgoing ∧
      t.guard = some g ∧ g.eval x.env = .error err := by
  obtain ⟨t, ht, g, hg, herr⟩ := enabledAmong_eq_error h
  obtain ⟨n, hn⟩ := candidates_state ht
  have hc := hm.chain_lineage n
  rw [candidates_eq hm hn hc] at ht
  exact ⟨n, _, t, g, hn, hc, ht, hg, herr⟩

/-- What a call comes to: the execution stays within a big step, or it completes one. -/
inductive Advances (x : Execution) (v : Env) (y : Execution) : Prop
  | stays : y.Stage v → y.current = x.current → y.fired = x.fired → Advances x v y
  | moves {w : Env} : y.Stage w → (⟨x.current, v⟩ : Configuration).Clear x.machine →
      x.machine.BigStep ⟨x.current, v⟩ ⟨y.current, w⟩ → y.fired = x.fired + 1 → Advances x v y

theorem perform_available {a : Action} (hp : x.perform a = .ok y) : y.available = x.available := by
  unfold perform at hp
  (repeat' split at hp) <;> cases hp <;> rfl

theorem perform_machine {a : Action} (hp : x.perform a = .ok y) : y.machine = x.machine := by
  unfold perform at hp
  (repeat' split at hp) <;> cases hp <;> rfl

theorem past_machine {a : Action} (hp : x.perform a = .ok y) : (y.past s).machine = x.machine := by
  show y.machine = x.machine
  exact perform_machine hp

/-- A step offered alone is the only one offered after it was marked. -/
theorem past_available (ha : y.available = [.atomic s]) :
    (y.past s).available = [.atomic { s with completed := true }] := by
  show (y.available.map _) = _
  rw [ha]
  simp

/-- After any step but a state change there is something to offer. -/
theorem Performs.stalls {err : EvalError} (h : x.Performs v s) (hp : x.perform s.action = .ok y)
    (ho : (y.past s).offer = .error err) :
    ∃ e ts f, x.Fires v e ts f ∧ x.assigned = f.transition.assignments.length ∧
      s.action = .move f.transition.source f.transition.target ∧ x.available = [.atomic s] := by
  cases h with
  | event hi _ ht he hw ha =>
    obtain ⟨steps, hok, -⟩ := idle_event hi ht he hw (ha ▸ hp)
    rw [hok] at ho; cases ho
  | activate h hw ha =>
    obtain ⟨steps, hok, -⟩ := entered_activate h hw (ha ▸ hp)
    rw [hok] at ho; cases ho
  | assign h hw hget ha =>
    obtain ⟨steps, hok, -⟩ := fires_assign h hw hget (ha ▸ hp)
    rw [hok] at ho; cases ho
  | move h _ hl ha hav => exact ⟨_, _, _, h, hl, ha, hav⟩

theorem Performs.advances {steps : List Step} (h : x.Performs v s) (hm : x.machine.WellFormed)
    (hp : x.perform s.action = .ok y) (ho : (y.past s).offer = .ok steps) :
    x.Advances v ((y.past s).offering steps) := by
  cases h with
  | event hi hv ht he hw ha =>
    subst hv
    rw [ha] at hp
    obtain ⟨steps', hok, hnew⟩ := idle_event hi ht he hw hp
    obtain rfl := Except.ok.inj (ho.symm.trans hok)
    cases hp
    exact .stays (.chosen hnew) rfl rfl
  | activate h hw ha =>
    rw [ha] at hp
    obtain ⟨steps', hok, hnew⟩ := entered_activate h hw hp
    obtain rfl := Except.ok.inj (ho.symm.trans hok)
    cases hp
    exact .stays (.fires hnew) rfl rfl
  | @assign _ _ _ a h hw hget ha =>
    rw [ha] at hp
    obtain ⟨steps', hok, hnew⟩ := fires_assign h hw hget hp
    obtain rfl := Except.ok.inj (ho.symm.trans hok)
    cases hr : a.run x.env with
    | error err => simp [perform, hr] at hp
    | ok w =>
      simp only [perform, hr] at hp
      cases hp
      exact .stays (.fires hnew) rfl rfl
  | move h _ hl ha _ =>
    obtain ⟨hi, hv, hn, -, hb⟩ := fires_move (s := s) h hm hl (ha ▸ hp)
    exact .moves (.idle ⟨hi.event, hi.transition, hi.ongoing, hi.assigned⟩ hv (offered_offering ho))
      (clear_of_enabled hm h.enabled) hb hn

theorem Stage.execute (h : x.Stage v) (hm : x.machine.WellFormed) (id : Value) : x.Advances v (x.execute id).1 := by
  have hx := x.executes id
  generalize x.execute id = r at hx
  cases hx with
  | refused => exact .stays h rfl rfl
  | done hs hc hp ho => exact (h.performs hs hc).advances hm hp ho
  | stalled hs hc hp ho =>
    obtain ⟨e, ts, f, hfire, hl, ha, hav⟩ := (h.performs hs hc).stalls hp ho
    obtain ⟨hi, hv, hn, -, hb⟩ := fires_move hfire hm hl (ha ▸ hp)
    exact .moves (.stuck hi hv (hi.offer_error ho) rfl (past_available ((perform_available hp).trans hav)))
      (clear_of_enabled hm hfire.enabled) hb hn

/-- Firings are offered only while an event is chosen. -/
theorem Stage.chosen_of_firing (h : x.Stage v) (hs : .firing f ∈ x.available) : ∃ e ts, x.Chosen v e ts := by
  cases h with
  | idle hi _ ho =>
    cases hf : x.current.isFinal with
    | true => rw [ho.final hf] at hs; cases hs
    | false =>
      obtain ⟨ts, -, hall⟩ := ho.idle hi hf
      obtain ⟨e, -, i, hstep⟩ := exists_of_forall₂ hall _ hs
      cases hstep
  | stuck _ _ _ _ ha =>
    rw [ha] at hs
    cases List.mem_singleton.mp hs
  | chosen h => exact ⟨_, _, h⟩
  | entered h =>
    obtain ⟨i, hav⟩ := h.toWithin.offers
    rw [hav] at hs
    cases List.mem_singleton.mp hs
  | fires h =>
    obtain ⟨i, hav⟩ := h.toWithin.offers
    rw [hav] at hs
    cases List.mem_singleton.mp hs

theorem Stage.enter (h : x.Stage v) (id : Value) : x.Advances v (x.enter id).1 := by
  have hx := x.enters id
  generalize x.enter id = r at hx
  cases hx with
  | refused => exact .stays h rfl rfl
  | stalled hs ho =>
    obtain ⟨e, ts, hch⟩ := h.chosen_of_firing hs
    obtain ⟨steps, hok, -⟩ := chosen_enter hch hs
    rw [hok] at ho; cases ho
  | done hs ho =>
    obtain ⟨e, ts, hch⟩ := h.chosen_of_firing hs
    obtain ⟨steps, hok, hnew⟩ := chosen_enter hch hs
    obtain rfl := Except.ok.inj (ho.symm.trans hok)
    exact .stays (.entered hnew) rfl rfl

end Execution

/-! ## Runs -/

/-- What a client can ask of an execution. -/
inductive Call where
  | execute (id : Value)
  | enter (id : Value)
  | check (type id entries : Value)
  | snapshot

namespace Execution

variable {x y : Execution} {v : Env}

/-- The execution after a call, whether it is answered or refused. A snapshot only uses up an identifier. -/
def after (x : Execution) : Call → Execution
  | .execute id => (x.execute id).1
  | .enter id => (x.enter id).1
  | .check _ _ _ => x
  | .snapshot => x.counted (x.count + 1)

def afterAll (x : Execution) (cs : List Call) : Execution := cs.foldl after x

theorem afterAll_append (x : Execution) (cs ds : List Call) : x.afterAll (cs ++ ds) = (x.afterAll cs).afterAll ds :=
  List.foldl_append

theorem after_machine (x : Execution) (c : Call) : (x.after c).machine = x.machine := by
  cases c with
  | execute id =>
    show (x.execute id).1.machine = _
    have hx := x.executes id
    generalize x.execute id = r at hx
    cases hx with
    | refused => rfl
    | stalled _ _ hp _ => exact past_machine hp
    | @done s y _ _ _ hp _ =>
      show (y.past s).machine = x.machine
      exact past_machine hp
  | enter id =>
    show (x.enter id).1.machine = _
    have hx := x.enters id
    generalize x.enter id = r at hx
    cases hx <;> rfl
  | check _ _ _ => rfl
  | snapshot => rfl

/-- No stage depends on how many identifiers were made. -/
theorem Stage.counted (h : x.Stage v) (c : Nat) : (x.counted c).Stage v := by
  have react : ∀ {e ts}, x.Reacts v e ts → (x.counted c).Reacts v e ts :=
    fun h => ⟨h.event, h.enabled, h.answered, h.offered⟩
  have within : ∀ {e ts f}, x.Within v e ts f → (x.counted c).Within v e ts f :=
    fun h => ⟨react h.toReacts, h.ongoing, h.mem, h.trigger⟩
  cases h with
  | idle hi hv ho => exact .idle ⟨hi.event, hi.transition, hi.ongoing, hi.assigned⟩ hv ho
  | stuck hi hv he hs ha => exact .stuck ⟨hi.event, hi.transition, hi.ongoing, hi.assigned⟩ hv he hs ha
  | chosen h => exact .chosen ⟨react h.toReacts, h.ongoing, h.transition, h.assigned, h.env⟩
  | entered h => exact .entered ⟨within h.toWithin, h.transition, h.assigned, h.env⟩
  | fires h => exact .fires ⟨within h.toWithin, h.transition, h.assigned, h.run⟩

theorem Stage.after (h : x.Stage v) (hm : x.machine.WellFormed) (c : Call) : x.Advances v (x.after c) := by
  cases c with
  | execute id => exact h.execute hm id
  | enter id => exact h.enter id
  | check _ _ _ => exact .stays h rfl rfl
  | snapshot => exact .stays (h.counted _) rfl rfl

theorem start_eq_ok {run : Nat} {m : Machine} (h : Execution.start run m = .ok x) :
    ∃ n, m.start = .ok n ∧ x.current = .state n ∧ x.machine = m ∧ x.fired = 0 ∧ x.Idle ∧ x.env = .empty ∧
      x.Offered := by
  unfold Execution.start at h
  split at h
  · cases h
  · rename_i n hn
    dsimp only at h
    split at h
    · cases h
    · rename_i steps ho
      cases h
      exact ⟨n, hn, rfl, rfl, rfl, ⟨rfl, rfl, rfl, rfl⟩, rfl, offered_offering ho⟩

/-- After any calls an execution is on its way through a big step, from where as many big steps as transitions were
    fired have led. -/
theorem afterAll_stage {run : Nat} {m : Machine} (hm : m.WellFormed) (hx : Execution.start run m = .ok x) :
    ∃ n, m.start = .ok n ∧ ∀ cs, (x.afterAll cs).machine = m ∧ ∃ v, (x.afterAll cs).Stage v ∧
      m.ClearSteps (x.afterAll cs).fired ⟨.state n, .empty⟩ ⟨(x.afterAll cs).current, v⟩ := by
  obtain ⟨n, hn, hcur, hmach, hfired, hi, hv, ho⟩ := start_eq_ok hx
  refine ⟨n, hn, fun cs => ?_⟩
  -- Calls are added at the end of the run: the invariant is about where it has led, not about where it goes.
  induction cs using List.reverseRecOn with
  | nil =>
    refine ⟨hmach, .empty, .idle hi hv ho, ?_⟩
    show m.ClearSteps x.fired _ ⟨x.current, _⟩
    rw [hfired, hcur]
    exact .none _
  | append_singleton cs c ih =>
    obtain ⟨hmach', v, hst, hsteps⟩ := ih
    have hlast : x.afterAll (cs ++ [c]) = (x.afterAll cs).after c := afterAll_append x cs [c]
    rw [hlast]
    refine ⟨(after_machine _ c).trans hmach', ?_⟩
    cases hst.after (hmach' ▸ hm) c with
    | stays hst' hcur hfir => exact ⟨v, hst', by rw [hcur, hfir]; exact hsteps⟩
    | moves hst' hclear hb hfir =>
      rw [hmach'] at hclear hb
      exact ⟨_, hst', by rw [hfir]; exact .more hsteps hclear hb⟩

/-! ## Runs in which something can always be offered -/

/-- The step is performed, and then a guard has no value. -/
def Stalls (x : Execution) : Call → Prop
  | .execute id => ∃ s y err, x.get id = .ok (.atomic s) ∧ s.completed = false ∧ x.perform s.action = .ok y ∧
      (y.past s).offer = .error err
  | _ => False

/-- A step that is executed and answered does not stall. -/
theorem not_stalls {id : Value} (h : (x.execute id).2.isOk = true) : ¬ x.Stalls (.execute id) := by
  rintro ⟨s, y, err, hget, hc, hp, ho⟩
  obtain ⟨-, rfl⟩ := get_eq_ok hget
  have : x.execute (.ident s.id) = (y.past s, .error (.eval err)) := by
    rw [execute_of_get hget hc]
    simp only [hp, ho]
  rw [show x.execute (.ident (Step.atomic s).id) = _ from this] at h
  cases h

/-- No call stalls. -/
def Smooth (x : Execution) : List Call → Prop
  | [] => True
  | c :: cs => ¬ x.Stalls c ∧ (x.after c).Smooth cs

theorem Stage.offered_after (h : x.Stage v) (ho : x.Offered) {c : Call} (hc : ¬ x.Stalls c) : (x.after c).Offered := by
  cases c with
  | execute id =>
    show (x.execute id).1.Offered
    have hx := x.executes id
    generalize x.execute id = r at hx
    cases hx with
    | refused => exact ho
    | done _ _ _ hok => exact offered_offering hok
    | stalled hs hcomp hp herr => exact absurd ⟨_, _, _, get_of_mem ho.ids hs, hcomp, hp, herr⟩ hc
  | enter id =>
    show (x.enter id).1.Offered
    have hx := x.enters id
    generalize x.enter id = r at hx
    cases hx with
    | refused => exact ho
    | done _ hok => exact offered_offering hok
    | stalled hs herr =>
      obtain ⟨e, ts, hch⟩ := h.chosen_of_firing hs
      obtain ⟨steps, hok, -⟩ := chosen_enter hch hs
      rw [hok] at herr; cases herr
  | check _ _ _ => exact ho
  | snapshot => exact ho

theorem Stage.offered_afterAll (h : x.Stage v) (hm : x.machine.WellFormed) (ho : x.Offered) {cs : List Call}
    (hs : x.Smooth cs) : (x.afterAll cs).Offered := by
  induction cs generalizing x v with
  | nil => exact ho
  | cons c cs ih =>
    have ho' := h.offered_after ho hs.1
    have hm' : (x.after c).machine.WellFormed := after_machine x c ▸ hm
    cases h.after hm c with
    | stays h' _ _ => exact ih h' hm' ho' hs.2
    | moves h' _ _ _ => exact ih h' hm' ho' hs.2

/-- As long as no call stalls, what is offered is up to date. -/
theorem smooth_offered {run : Nat} {m : Machine} (hm : m.WellFormed) (hx : Execution.start run m = .ok x)
    {cs : List Call} (hs : x.Smooth cs) : (x.afterAll cs).Offered := by
  obtain ⟨-, -, -, hmach, -, hi, hv, ho⟩ := start_eq_ok hx
  exact (Stage.idle hi hv ho).offered_afterAll (hmach ▸ hm) ho hs

/-- A stuck execution does not offer what is to be offered. -/
theorem Idle.not_stuck {err : EvalError} (hi : x.Idle) (ho : x.Offered)
    (he : enabledAmong x.env x.candidates = .error err) : False := by
  obtain ⟨t, ht, -⟩ := enabledAmong_eq_error he
  obtain ⟨ts, hts, -⟩ := ho.idle hi (isFinal_eq_false.mpr (candidates_state ht))
  rw [he] at hts
  cases hts

end Execution

/-! ## A door

  The machine on which the theorems about executions are tried out. A closed door can be knocked at, removed, or pushed
  open, which sets a variable. To pull the open door shut looks at another one, which nothing sets. -/

namespace Door

def word (k : Kind) (text : String) : Token := ⟨k, text, 1, 0, 0, 0⟩

def node (r : Rule) (cs : List Tree) : Tree := .node ⟨r, word .endOfText "", none, none, none⟩ cs

def initial (target : String) : Tree :=
  .node ⟨.initial, word .initial "INITIAL", none, some (word .name target), none⟩ []

def transition (target trigger : String) (cs : List Tree) : Tree :=
  .node ⟨.transition, word .arrow "->", none, some (word .name target), some (word .text trigger)⟩
    (.leaf (word .arrow "->") :: cs)

def state (r : Rule) (k : Kind) (name : String) (cs : List Tree) : Tree :=
  node .state [node r (.leaf (word k "") :: .leaf (word .name name) :: cs)]

def nameOf (x : String) : Tree := node .variable [.leaf (word .variable x)]

/-- `opened = 1`, an assignment. -/
def assignment : Tree :=
  .node ⟨.separated, word .variable "opened", some (word .semicolon ";"), none, none⟩
    [node .assignment [nameOf "opened",
      node .expression [node .atom [node .number [.leaf (word .number "1")]]]]]

/-- `opened = hand`, a guard. -/
def guard : Tree :=
  node .guard [nameOf "opened", .leaf (word .equal "="), node .expression [node .atom [nameOf "hand"]]]

def tree : Tree :=
  node .machine [.leaf (word .name "Door"), initial "Closed",
    state .simple .state "Closed" [transition "Open" "'push'" [assignment], transition "Closed" "'knock'" [],
      transition "FINAL" "'remove'" []],
    state .composite .composite "Open" [transition "Closed" "'pull'" [guard], initial "Wide",
      state .simple .state "Wide" [transition "FINAL" "'break'" []]]]

/-- The value of a result that is there. -/
def valueOf {ε α : Type} (r : Except ε α) (h : r.isOk = true) : α :=
  match r, h with
  | .ok a, _ => a

theorem eq_ok_valueOf {ε α : Type} (r : Except ε α) (h : r.isOk = true) : r = .ok (valueOf r h) := by
  cases r with
  | ok a => rfl
  | error e => cases h

def machine : Machine := valueOf (Machine.ofTree 0 tree) (by decide +kernel)

theorem built : Machine.ofTree 0 tree = .ok machine := eq_ok_valueOf _ _

def execution : Execution := valueOf (Execution.start 0 machine) (by decide +kernel)

theorem starts : Execution.start 0 machine = .ok execution := eq_ok_valueOf _ _

/-- Execute, or enter, the step that was the `n`-th to be made. -/
def execute (n : Nat) : Call := .execute (.ident (.step 0 n))

def enter (n : Nat) : Call := .enter (.ident (.step 0 n))

/-- The door is pushed: the event is chosen, its firing is entered, and the transition is active. -/
def pushed : List Call := [execute 1, enter 3, execute 4]

theorem pushed_smooth : execution.Smooth pushed :=
  And.intro (Execution.not_stalls (by decide +kernel))
    (And.intro id (And.intro (Execution.not_stalls (by decide +kernel)) trivial))

end Door

end Statechart
