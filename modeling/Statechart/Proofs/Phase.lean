/-
  Statechart.Proofs.Phase — what a client sees of an execution, whatever it called before.

  (1) An execution is in exactly one of four phases (`in_one_phase`): idle, an event
      chosen, a firing entered, its transition firing. What is fired has the chosen event
      as its trigger and starts in the current state or further up its chain of parents.
      The current state is simple or final. In a final state it is idle, offers nothing,
      and stays so whatever is called.
  (2) As long as no call stalled, what is offered is exactly what can be done
      (`offers_what_can_be_done`): idle, the triggers of the enabled transitions; with an
      event chosen, the enabled transitions with that trigger, of which there is one at
      least; in a firing, the one step that comes next. Only a final state, or an idle
      one with nothing enabled, offers nothing. An offered event can be executed.
-/

import Statechart.Proofs.Failure
import Mathlib.Logic.ExistsUnique

namespace Statechart

inductive Phase where
  | idle
  | chosen
  | entered
  | firing
  deriving DecidableEq, Repr

namespace Execution

variable {x : Execution} {v : Env} {m : Machine}

/-- The phase by the event, the transition, the firing entered and the number of assignments executed. -/
def In (x : Execution) : Phase → Prop
  | .idle => x.event = none ∧ x.transition = none ∧ x.ongoing = none ∧ x.assigned = 0
  | .chosen => (∃ e, x.event = some e) ∧ x.transition = none ∧ x.ongoing = none ∧ x.assigned = 0
  | .entered => (∃ e, x.event = some e) ∧ x.transition = none ∧ (∃ f, x.ongoing = some f) ∧ x.assigned = 0
  | .firing => (∃ e, x.event = some e) ∧ ∃ f, x.ongoing = some f ∧ x.transition = some f.transition ∧
      x.assigned ≤ f.transition.assignments.length

theorem In.unique {p q : Phase} (hp : x.In p) (hq : x.In q) : p = q := by
  cases p <;> cases q <;> simp_all [In]

theorem Idle.inPhase (h : x.Idle) : x.In .idle := ⟨h.event, h.transition, h.ongoing, h.assigned⟩

theorem In.toIdle (h : x.In .idle) : x.Idle := ⟨h.1, h.2.1, h.2.2.1, h.2.2.2⟩

theorem Stage.inPhase (h : x.Stage v) : ∃ p, x.In p := by
  cases h with
  | idle hi _ _ => exact ⟨.idle, hi.inPhase⟩
  | stuck hi _ _ _ _ => exact ⟨.idle, hi.inPhase⟩
  | chosen h => exact ⟨.chosen, ⟨_, h.event⟩, h.transition, h.ongoing, h.assigned⟩
  | entered h => exact ⟨.entered, ⟨_, h.event⟩, h.transition, ⟨_, h.ongoing⟩, h.assigned⟩
  | fires h => exact ⟨.firing, ⟨_, h.event⟩, _, h.ongoing, h.transition, h.assigned⟩

/-- A firing under way is one of a transition that was enabled when the event was chosen. -/
theorem Stage.within {f : Firing} (h : x.Stage v) (hf : x.ongoing = some f) : ∃ e ts, x.Within v e ts f := by
  cases h with
  | idle hi _ _ => rw [hi.ongoing] at hf; cases hf
  | stuck hi _ _ _ _ => rw [hi.ongoing] at hf; cases hf
  | chosen h => rw [h.ongoing] at hf; cases hf
  | entered h =>
    obtain rfl := Option.some.inj (h.ongoing.symm.trans hf)
    exact ⟨_, _, h.toWithin⟩
  | fires h =>
    obtain rfl := Option.some.inj (h.ongoing.symm.trans hf)
    exact ⟨_, _, h.toWithin⟩

theorem Within.source {e : String} {ts : List Transition} {f : Firing} (h : x.Within v e ts f)
    (hm : x.machine.WellFormed) :
    ∃ n ns, x.current = .state n ∧ x.machine.Chain n ns ∧ f.transition.source ∈ ns := by
  have hc := ((mem_enabledAmong h.enabled).mp h.mem).1
  obtain ⟨n, hn⟩ := candidates_state hc
  have hchain := hm.chain_lineage n
  rw [candidates_eq hm hn hchain] at hc
  obtain ⟨k, hk, hout⟩ := List.mem_flatMap.mp hc
  refine ⟨n, _, hn, hchain, ?_⟩
  rw [hm.source_eq hout]
  exact hk

theorem Stage.final (h : x.Stage v) (hf : x.current.isFinal = true) : x.Idle ∧ x.available = [] := by
  have hno : ∀ {e ts}, x.Reacts v e ts → False := fun h => by
    rw [h.notFinal] at hf
    cases hf
  cases h with
  | idle hi _ ho => exact ⟨hi, ho.final hf⟩
  | stuck _ _ he _ _ =>
    obtain ⟨t, ht, -⟩ := enabledAmong_eq_error he
    obtain ⟨n, hn⟩ := candidates_state ht
    rw [hn] at hf
    cases hf
  | chosen h => exact (hno h.toReacts).elim
  | entered h => exact (hno h.toReacts).elim
  | fires h => exact (hno h.toReacts).elim

/-- After any calls, an execution is in exactly one phase, and its parts agree with it. -/
theorem in_one_phase {load run : Nat} {t : Tree} (hm : Machine.ofTree load t = .ok m)
    (hx : Execution.start run m = .ok x) (cs : List Call) :
    let y := x.afterAll cs
    (∃! p, y.In p) ∧
    (∀ f, y.ongoing = some f → y.event = some f.transition.trigger ∧
      ∃ n ns, y.current = .state n ∧ m.Chain n ns ∧ f.transition.source ∈ ns) ∧
    (∀ n, y.current = .state n → ∃ s, m.find? n = some (.simple s)) ∧
    (y.current.isFinal = true → y.In .idle ∧ y.available = [] ∧ ∀ ds, ∃ k, y.afterAll ds = y.counted k) := by
  intro y
  have hwf := ofTree_wellFormed hm
  obtain ⟨n, hn, hall⟩ := afterAll_stage hwf hx
  obtain ⟨hmach, v, hst, hsteps⟩ := hall cs
  refine ⟨?_, ?_, ?_, ?_⟩
  · obtain ⟨p, hp⟩ := hst.inPhase
    exact ⟨p, hp, fun q hq => hq.unique hp⟩
  · intro f hf
    obtain ⟨e, ts, hw⟩ := hst.within hf
    refine ⟨by rw [hw.trigger]; exact hw.event, ?_⟩
    obtain ⟨k, ns, hk, hchain, hsrc⟩ := hw.source (hmach ▸ hwf)
    exact ⟨k, ns, hk, hmach ▸ hchain, hsrc⟩
  · intro k hk
    obtain ⟨_, _, -, hns⟩ := start_settles hwf hn
    have hrest : m.Rests y.current := bigSteps_rest hns.rests hsteps.bigSteps
    rw [hk] at hrest
    exact hrest
  · intro hf
    obtain ⟨hi, ha⟩ := hst.final hf
    exact ⟨hi.inPhase, ha, spent_afterAll (spent_of_empty ha)⟩

/-- A pushed door is in exactly one phase, and it is firing. -/
theorem pushed_door_in_one_phase :
    let y := Door.execution.afterAll Door.pushed
    y.transition.isSome = true ∧ y.assigned = 0 ∧ ∃! p, y.In p :=
  ⟨by decide +kernel, by decide +kernel, (in_one_phase Door.built Door.starts _).1⟩

/-! ## What is offered -/

/-- What is offered is what can be done. -/
structure OffersExactly (m : Machine) (y : Execution) : Prop where
  ids : (y.available.map Step.id).Nodup
  /-- Idle, one event for each trigger of an enabled transition. -/
  idle : y.In .idle → ∀ n, y.current = .state n → ∃ ns es, m.Chain n ns ∧ es.Nodup ∧
    (∀ e, e ∈ es ↔ ∃ t ∈ ns.flatMap m.outgoing, t.Enabled y.env ∧ t.trigger = e) ∧
    List.Forall₂ (fun e s => ∃ i, s = .atomic ⟨i, .event e, none, false⟩) es y.available
  /-- With an event chosen, one firing for each enabled transition with that trigger, the nearest state first. -/
  chosen : y.In .chosen → ∃ n ns e, y.current = .state n ∧ m.Chain n ns ∧ y.event = some e ∧
    ((ns.flatMap m.outgoing).map (·.id)).Nodup ∧ y.available ≠ [] ∧
    List.Forall₂ (fun t s => ∃ i, s = .firing ⟨i, t⟩)
      ((ns.flatMap m.outgoing).filter fun t => t.trigger = e ∧ t.Enabled y.env) y.available
  entered : y.In .entered → ∃ f i, y.ongoing = some f ∧
    y.available = [.atomic ⟨i, .activate f.transition, some f, false⟩]
  firing : y.In .firing → ∃ f i, y.ongoing = some f ∧
    y.available = [.atomic ⟨i, match f.transition.assignments[y.assigned]? with
      | some a => .assign a
      | none => .move f.transition.source f.transition.target, some f, false⟩]
  /-- Nothing is offered in a final state, and where nothing is enabled. -/
  empty : y.available = [] ↔ y.current.isFinal = true ∨ (y.In .idle ∧ ∃ n ns, y.current = .state n ∧ m.Chain n ns ∧
    ∀ t ∈ ns.flatMap m.outgoing, ¬ t.Enabled y.env)

theorem Stage.chosen_of_in (h : x.Stage v) (hp : x.In .chosen) : ∃ e ts, x.Chosen v e ts := by
  cases h with
  | idle hi _ _ => cases hi.inPhase.unique hp
  | stuck hi _ _ _ _ => cases hi.inPhase.unique hp
  | chosen h => exact ⟨_, _, h⟩
  | entered h => have := h.ongoing; rw [hp.2.2.1] at this; cases this
  | fires h => have := h.ongoing; rw [hp.2.2.1] at this; cases this

theorem Stage.entered_of_in (h : x.Stage v) (hp : x.In .entered) : ∃ e ts f, x.Entered v e ts f := by
  obtain ⟨-, ht, ⟨f, hf⟩, -⟩ := hp
  cases h with
  | idle hi _ _ => have := hi.ongoing; rw [hf] at this; cases this
  | stuck hi _ _ _ _ => have := hi.ongoing; rw [hf] at this; cases this
  | chosen h => have := h.ongoing; rw [hf] at this; cases this
  | entered h => exact ⟨_, _, _, h⟩
  | fires h => have := h.transition; rw [ht] at this; cases this

theorem Stage.fires_of_in (h : x.Stage v) (hp : x.In .firing) : ∃ e ts f, x.Fires v e ts f := by
  obtain ⟨-, f, -, ht, -⟩ := hp
  cases h with
  | idle hi _ _ => have := hi.transition; rw [ht] at this; cases this
  | stuck hi _ _ _ _ => have := hi.transition; rw [ht] at this; cases this
  | chosen h => have := h.transition; rw [ht] at this; cases this
  | entered h => have := h.transition; rw [ht] at this; cases this
  | fires h => exact ⟨_, _, _, h⟩

/-- Idle, the events offered are the triggers of the enabled transitions. -/
theorem Idle.events (hi : x.Idle) (hm : x.machine.WellFormed) (ho : x.Offered) {n : String}
    (hn : x.current = .state n) :
    ∃ ns es, x.machine.Chain n ns ∧ es.Nodup ∧
      (∀ e, e ∈ es ↔ ∃ t ∈ ns.flatMap x.machine.outgoing, t.Enabled x.env ∧ t.trigger = e) ∧
      List.Forall₂ (fun e s => ∃ i, s = .atomic ⟨i, .event e, none, false⟩) es x.available := by
  obtain ⟨ts, ht, hall⟩ := ho.idle hi (isFinal_eq_false.mpr ⟨n, hn⟩)
  have hc := hm.chain_lineage n
  refine ⟨_, _, hc, ascending_nodup _, fun e => ?_, hall⟩
  simp only [mem_ascending, List.mem_map, mem_enabledAmong ht, candidates_eq hm hn hc, and_assoc]

theorem Chosen.firings {e : String} {ts : List Transition} (h : x.Chosen v e ts) (hm : x.machine.WellFormed) :
    ∃ n ns, x.current = .state n ∧ x.machine.Chain n ns ∧ x.available ≠ [] ∧
      List.Forall₂ (fun t s => ∃ i, s = .firing ⟨i, t⟩)
        ((ns.flatMap x.machine.outgoing).filter fun t => t.trigger = e ∧ t.Enabled x.env) x.available := by
  obtain ⟨n, hn⟩ := isFinal_eq_false.mp h.notFinal
  have hc := hm.chain_lineage n
  have hall := h.offers
  refine ⟨n, _, hn, hc, ?_, ?_⟩
  · intro hnil
    rw [hnil, List.forall₂_nil_right_iff] at hall
    obtain ⟨t, ht, htr⟩ := h.answered
    have : t ∈ ts.filter fun t => t.trigger = e := List.mem_filter.mpr ⟨ht, by simpa using htr⟩
    rw [hall] at this
    cases this
  · rw [(enabledAmong_eq_ok.mp h.enabled).2, List.filter_filter, candidates_eq hm hn hc] at hall
    simpa only [Bool.decide_and, h.env] using hall

theorem Stage.empty_iff (h : x.Stage v) (hm : x.machine.WellFormed) (ho : x.Offered) :
    x.available = [] ↔ x.current.isFinal = true ∨ (x.In .idle ∧ ∃ n ns, x.current = .state n ∧ x.machine.Chain n ns ∧
      ∀ t ∈ ns.flatMap x.machine.outgoing, ¬ t.Enabled x.env) := by
  constructor
  · intro hnil
    cases h with
    | idle hi _ _ =>
      cases hf : x.current.isFinal with
      | true => exact Or.inl rfl
      | false =>
        obtain ⟨n, hn⟩ := isFinal_eq_false.mp hf
        obtain ⟨ns, es, hc, -, hes, hall⟩ := hi.events hm ho hn
        rw [hnil, List.forall₂_nil_right_iff] at hall
        refine Or.inr ⟨hi.inPhase, n, ns, hn, hc, fun t ht hen => ?_⟩
        have := (hes t.trigger).mpr ⟨t, ht, hen, rfl⟩
        rw [hall] at this
        cases this
    | stuck hi _ he _ _ => exact (hi.not_stuck ho he).elim
    | chosen h =>
      obtain ⟨_, _, -, -, hne, -⟩ := h.firings hm
      exact absurd hnil hne
    | entered h =>
      obtain ⟨i, ha⟩ := h.toWithin.offers
      rw [ha] at hnil
      cases hnil
    | fires h =>
      obtain ⟨i, ha⟩ := h.toWithin.offers
      rw [ha] at hnil
      cases hnil
  · rintro (hf | ⟨hp, n, ns, hn, hc, hno⟩)
    · exact (h.final hf).2
    · obtain ⟨ns', es, hc', -, hes, hall⟩ := hp.toIdle.events hm ho hn
      obtain rfl := hc.unique hc'
      obtain rfl : es = [] := by
        refine List.eq_nil_iff_forall_not_mem.mpr fun e he => ?_
        obtain ⟨t, ht, hen, -⟩ := (hes e).mp he
        exact hno t ht hen
      exact List.forall₂_nil_left_iff.mp hall

theorem Stage.exact (h : x.Stage v) (hm : x.machine.WellFormed) (ho : x.Offered) : OffersExactly x.machine x := by
  refine ⟨ho.ids, fun hp n hn => hp.toIdle.events hm ho hn, fun hp => ?_, fun hp => ?_, fun hp => ?_,
    h.empty_iff hm ho⟩
  · obtain ⟨e, ts, hch⟩ := h.chosen_of_in hp
    obtain ⟨n, ns, hn, hc, hne, hall⟩ := hch.firings hm
    exact ⟨n, ns, e, hn, hc, hch.event, hm.chain_ids hc, hne, hall⟩
  · obtain ⟨e, ts, f, hen⟩ := h.entered_of_in hp
    obtain ⟨i, ha⟩ := hen.toWithin.offers
    rw [hen.next] at ha
    exact ⟨f, i, hen.ongoing, ha⟩
  · obtain ⟨e, ts, f, hfi⟩ := h.fires_of_in hp
    obtain ⟨i, ha⟩ := hfi.toWithin.offers
    rw [Execution.next, hfi.transition] at ha
    exact ⟨f, i, hfi.ongoing, ha⟩

/-- An event that is offered can be executed. -/
theorem Stage.event_executes (h : x.Stage v) (ho : x.Offered) {s : Atomic} {e : String}
    (hs : .atomic s ∈ x.available) (ha : s.action = .event e) : ∃ ids, (x.execute (.ident s.id)).2 = .ok ids := by
  have hfresh := ho.fresh hs
  rw [execute_of_get (get_of_mem ho.ids hs) hfresh, ha]
  cases h.performs hs hfresh with
  | event hi _ ht he hw ha' =>
    obtain ⟨steps, hok, -⟩ := idle_event (s := s) (y := { x with event := some e }) hi ht
      (by rw [ha] at ha'; cases ha'; exact he) hw rfl
    simp only [perform, hok]
    exact ⟨_, rfl⟩
  | activate _ _ ha' => rw [ha] at ha'; cases ha'
  | assign _ _ _ ha' => rw [ha] at ha'; cases ha'
  | move _ _ _ ha' _ => rw [ha] at ha'; cases ha'

/-- After any calls none of which stalled, what is offered is what can be done, and an offered event can be
    executed. -/
theorem offers_what_can_be_done {load run : Nat} {t : Tree} (hm : Machine.ofTree load t = .ok m)
    (hx : Execution.start run m = .ok x) (cs : List Call) (hs : x.Smooth cs) :
    let y := x.afterAll cs
    OffersExactly m y ∧
      ∀ s e, .atomic s ∈ y.available → s.action = .event e → ∃ ids, (y.execute (.ident s.id)).2 = .ok ids := by
  intro y
  have hwf := ofTree_wellFormed hm
  have hoff : y.Offered := smooth_offered hwf hx hs
  obtain ⟨_, -, hall⟩ := afterAll_stage hwf hx
  obtain ⟨hmach, v, hst, -⟩ := hall cs
  refine ⟨?_, fun s e hs ha => hst.event_executes hoff hs ha⟩
  have := hst.exact (hmach ▸ hwf) hoff
  rwa [hmach] at this

/-- Once the door is pushed, its one assignment is offered, and nothing else. -/
theorem pushed_door_offers_what_can_be_done :
    let y := Door.execution.afterAll Door.pushed
    y.available.map Step.name = ["opened = 1.0"] ∧ OffersExactly Door.machine y :=
  ⟨by decide +kernel, (offers_what_can_be_done Door.built Door.starts _ Door.pushed_smooth).1⟩

end Execution

end Statechart
