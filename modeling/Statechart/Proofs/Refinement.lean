/-
  Statechart.Proofs.Refinement — step by step, a machine does what it does in big steps.

  Whatever is called, an execution is never elsewhere than on its way through a big step:
  idle, it is where as many big steps have led as transitions were fired; in between, it
  is there but for the assignments of the active transition that were run.

  And every big step can be done step by step. Where all guards have a value, the event is
  offered, then the firing, then its activation, its assignments one after the other, and
  its state change: `idle_leads`, `chosen_leads`, `entered_leads`, `fires_leads` and
  `fires_lands` each go on from where the one before has led. So idle executions reach
  exactly the configurations that big steps from clear configurations reach
  (`refines_bigSteps`). A configuration that is not clear is reached, but not left: its
  guards cannot all be looked at, although one transition may be enabled.
-/

import Statechart.Proofs.Stage

namespace Statechart

/-- A call that executes or enters a step. -/
inductive Call.Steps : Call → Prop
  | execute (id : Value) : Steps (.execute id)
  | enter (id : Value) : Steps (.enter id)

namespace Execution

variable {x y z : Execution} {v w : Env} {e : String} {ts : List Transition} {f : Firing} {s : Atomic} {m : Machine}

/-! ## Ways through a big step -/

/-- Executing and entering steps leads from `x` to `y`, within one big step. -/
structure Leads (x y : Execution) : Prop where
  calls : ∃ cs : List Call, (∀ c ∈ cs, c.Steps) ∧ x.afterAll cs = y
  machine : y.machine = x.machine
  current : y.current = x.current
  fired : y.fired = x.fired

theorem Leads.refl (x : Execution) : x.Leads x := ⟨⟨[], by simp, rfl⟩, rfl, rfl, rfl⟩

theorem Leads.trans (h : x.Leads y) (h' : y.Leads z) : x.Leads z := by
  obtain ⟨cs, hcs, hy⟩ := h.calls
  obtain ⟨ds, hds, hz⟩ := h'.calls
  exact ⟨⟨cs ++ ds, List.forall_mem_append.mpr ⟨hcs, hds⟩, by rw [afterAll_append, hy, hz]⟩,
    h'.machine.trans h.machine, h'.current.trans h.current, h'.fired.trans h.fired⟩

/-- Executing an offered step, if its effect is there and something can be offered next. -/
theorem Leads.execute {steps : List Step} (ho : x.Offered) (hs : .atomic s ∈ x.available)
    (hp : x.perform s.action = .ok y) (hok : (y.past s).offer = .ok steps) (hc : y.current = x.current)
    (hf : y.fired = x.fired) : x.Leads ((y.past s).offering steps) := by
  refine ⟨⟨[.execute (.ident s.id)], by simpa using .execute _, ?_⟩, ?_, hc, hf⟩
  · show (x.execute (.ident s.id)).1 = _
    rw [execute_of_get (get_of_mem ho.ids hs) (ho.fresh hs)]
    simp only [hp, hok]
  · show (y.past s).machine = x.machine
    exact past_machine hp

theorem idle_leads {t : Transition} (hi : x.Idle) (ho : x.Offered) (ht : enabledAmong x.env x.candidates = .ok ts)
    (hmem : t ∈ ts) : ∃ y, x.Leads y ∧ y.Chosen x.env t.trigger ts := by
  have hf := isFinal_eq_false.mpr (candidates_state ((mem_enabledAmong ht).mp hmem).1)
  obtain ⟨ts', ht', hall⟩ := ho.idle hi hf
  obtain rfl := Except.ok.inj (ht.symm.trans ht')
  have he : t.trigger ∈ ascending (ts.map (·.trigger)) := mem_ascending.mpr (List.mem_map_of_mem hmem)
  obtain ⟨_, hs, i, rfl⟩ := exists_of_forall₂ (List.Forall₂.flip hall) _ he
  obtain ⟨steps, hok, hnew⟩ := idle_event (s := ⟨i, .event t.trigger, none, false⟩) hi ht ⟨t, hmem, rfl⟩ rfl rfl
  exact ⟨_, .execute ho hs rfl hok rfl rfl, hnew⟩

theorem chosen_leads {t : Transition} (h : x.Chosen v e ts) (hmem : t ∈ ts) (htr : t.trigger = e) :
    ∃ y f, x.Leads y ∧ y.Entered v e ts f ∧ f.transition = t := by
  have hreact : t ∈ ts.filter fun t => t.trigger = e := List.mem_filter.mpr ⟨hmem, by simpa using htr⟩
  obtain ⟨_, hs, i, rfl⟩ := exists_of_forall₂ (List.Forall₂.flip h.offers) _ hreact
  obtain ⟨steps, hok, hnew⟩ := chosen_enter h hs
  refine ⟨(x.inside ⟨i, t⟩).offering steps, _, ⟨⟨[.enter (.ident i)], by simpa using .enter _, ?_⟩, rfl, rfl, rfl⟩,
    hnew, rfl⟩
  show (x.enter (.ident (Firing.id ⟨i, t⟩))).1 = _
  rw [enter_of_get (get_of_mem h.offered.ids hs)]
  simp only [hok]

theorem entered_leads (h : x.Entered v e ts f) : ∃ y, x.Leads y ∧ y.Fires v e ts f ∧ y.assigned = 0 := by
  obtain ⟨i, hav⟩ := h.toWithin.offers
  rw [h.next] at hav
  have hs : .atomic ⟨i, .activate f.transition, some f, false⟩ ∈ x.available := by simp [hav]
  obtain ⟨steps, hok, hnew⟩ := entered_activate (s := ⟨i, .activate f.transition, some f, false⟩) h rfl rfl
  exact ⟨_, .execute h.offered hs rfl hok rfl rfl, hnew, h.assigned⟩

theorem fires_leads_one (h : x.Fires v e ts f) (hw : Assignment.SetsAll f.transition.assignments v w)
    (hlt : x.assigned < f.transition.assignments.length) :
    ∃ y, x.Leads y ∧ y.Fires v e ts f ∧ y.assigned = x.assigned + 1 := by
  obtain ⟨a, ha⟩ : ∃ a, f.transition.assignments[x.assigned]? = some a := ⟨_, List.getElem?_eq_getElem hlt⟩
  obtain ⟨u, hsets⟩ := hw.next h.run ha
  have hu : a.run x.env = .ok u := Assignment.run_eq_ok.mpr hsets
  obtain ⟨i, hav⟩ := h.toWithin.offers
  rw [h.next_assign ha] at hav
  have hs : .atomic ⟨i, .assign a, some f, false⟩ ∈ x.available := by simp [hav]
  have hp : x.perform (.assign a) = .ok { x with env := u, assigned := x.assigned + 1 } := by simp [perform, hu]
  obtain ⟨steps, hok, hnew⟩ := fires_assign (s := ⟨i, .assign a, some f, false⟩) h rfl ha hp
  exact ⟨_, .execute h.offered hs hp hok rfl rfl, hnew, rfl⟩

/-- The assignments that are left are executed one after the other. -/
theorem fires_leads (h : x.Fires v e ts f) (hw : Assignment.SetsAll f.transition.assignments v w) :
    ∃ y, x.Leads y ∧ y.Fires v e ts f ∧ y.assigned = f.transition.assignments.length := by
  -- By induction on how many are left.
  induction hk : f.transition.assignments.length - x.assigned generalizing x with
  | zero => exact ⟨x, .refl x, h, by have := h.assigned; omega⟩
  | succ k ih =>
    obtain ⟨y, hxy, hy, hone⟩ := fires_leads_one h hw (by omega)
    obtain ⟨z, hyz, hz, hall⟩ := ih hy (by omega)
    exact ⟨z, hxy.trans hyz, hz, hall⟩

/-- The state change ends the big step, whether or not anything can be offered then. -/
theorem fires_lands {t : Target} (h : x.Fires v e ts f) (hm : x.machine.WellFormed)
    (hl : x.assigned = f.transition.assignments.length) (ha : x.machine.Arrives f.transition.target t) :
    ∃ id y, x.after (.execute id) = y ∧ y.event = none ∧ y.current = t ∧ y.env = x.env ∧ y.fired = x.fired + 1 := by
  obtain ⟨i, hav⟩ := h.toWithin.offers
  rw [h.next_move hl] at hav
  set s : Atomic := ⟨i, .move f.transition.source f.transition.target, some f, false⟩
  have hs : .atomic s ∈ x.available := by simp [hav]
  obtain ⟨y, hp⟩ : ∃ y, x.perform s.action = .ok y := by simp [s, perform, ha.arrive]
  obtain ⟨hi, henv, hfired, harr, -⟩ := fires_move (s := s) h hm hl hp
  have hcur : (y.past s).current = t := Except.ok.inj (harr.arrive.symm.trans ha.arrive)
  have hafter := execute_of_get (get_of_mem h.offered.ids hs) rfl
  simp only [hp] at hafter
  cases ho : (y.past s).offer with
  | error err =>
    rw [ho] at hafter
    exact ⟨_, _, congrArg Prod.fst hafter, hi.event, hcur, henv, hfired⟩
  | ok steps =>
    rw [ho] at hafter
    exact ⟨_, _, congrArg Prod.fst hafter, hi.event, hcur, henv, hfired⟩

/-! ## Every big step can be done -/

def configuration (x : Execution) : Configuration := ⟨x.current, x.env⟩

/-- Executing and entering steps can bring an execution to a configuration in which no event is active, by firing `k`
    transitions. -/
def Reaches (x : Execution) (k : Nat) (c : Configuration) : Prop :=
  ∃ cs : List Call, (∀ d ∈ cs, d.Steps) ∧
    (x.afterAll cs).event = none ∧ (x.afterAll cs).configuration = c ∧ (x.afterAll cs).fired = x.fired + k

theorem Stage.idle_of_event (h : x.Stage v) (he : x.event = none) : x.Idle ∧ x.env = v := by
  cases h with
  | idle hi hv _ => exact ⟨hi, hv⟩
  | stuck hi hv _ _ _ => exact ⟨hi, hv⟩
  | chosen h => rw [h.event] at he; cases he
  | entered h => rw [h.event] at he; cases he
  | fires h => rw [h.event] at he; cases he

/-- An idle execution that offers what is to be offered has found a value for every guard. -/
theorem Idle.clear (hi : x.Idle) (hm : x.machine.WellFormed) (ho : x.Offered) : x.configuration.Clear x.machine := by
  intro n ns hn hc
  obtain ⟨ts, hts, -⟩ := ho.idle hi (isFinal_eq_false.mpr ⟨n, hn⟩)
  exact clear_of_enabled hm hts n ns hn hc

/-- Conversely it is not stuck where all guards have a value. -/
theorem Stage.offered_of_clear (h : x.Stage v) (hm : x.machine.WellFormed)
    (hc : x.configuration.Clear x.machine) : x.Offered := by
  cases h with
  | idle _ _ ho => exact ho
  | stuck _ _ herr _ _ =>
    obtain ⟨n, ns, t, g, hn, hchain, ht, hg, hno⟩ := blind_of_enabledAmong hm herr
    obtain ⟨b, hb⟩ := hc n ns hn hchain t ht g hg
    rw [show g.eval x.env = .ok b from hb] at hno
    cases hno
  | chosen h => exact h.offered
  | entered h => exact h.offered
  | fires h => exact h.offered

/-- A big step that is possible where all guards have a value can be done step by step. -/
theorem Stage.bigStep {c : Configuration} (h : x.Stage v) (hm : x.machine.WellFormed) (he : x.event = none)
    (hc : x.configuration.Clear x.machine) (hb : x.machine.BigStep x.configuration c) : x.Reaches 1 c := by
  obtain ⟨hi, -⟩ := h.idle_of_event he
  have ho := h.offered_of_clear hm hc
  generalize hcfg : x.configuration = a at hb
  cases hb with
  | @fire n ns t _ w target hchain ht hen hrun harr =>
    obtain ⟨hn, rfl⟩ : x.current = .state n ∧ x.env = _ := by simpa [configuration] using hcfg
    obtain ⟨ts, hts, -⟩ := ho.idle hi (isFinal_eq_false.mpr ⟨n, hn⟩)
    have hmem : t ∈ ts := (mem_enabledAmong hts).mpr ⟨by rwa [candidates_eq hm hn hchain], hen⟩
    obtain ⟨_, hl₁, hchosen⟩ := idle_leads hi ho hts hmem
    obtain ⟨_, f, hl₂, hentered, rfl⟩ := chosen_leads hchosen hmem rfl
    obtain ⟨_, hl₃, hfires, -⟩ := entered_leads hentered
    obtain ⟨y, hl₄, hlast, hall⟩ := fires_leads hfires hrun
    have hl := hl₁.trans (hl₂.trans (hl₃.trans hl₄))
    have henv : y.env = w := by
      have hy := hlast.run
      rw [hall, List.take_length] at hy
      exact hy.unique hrun
    obtain ⟨id, z, hz, hev, hcur, henv', hfired⟩ :=
      fires_lands hlast (hl.machine ▸ hm) hall (hl.machine.symm ▸ harr)
    obtain ⟨cs, hcs, hy⟩ := hl.calls
    have hafter : x.afterAll (cs ++ [.execute id]) = z := by
      rw [afterAll_append, hy]
      exact hz
    refine ⟨cs ++ [.execute id], List.forall_mem_append.mpr ⟨hcs, by simpa using .execute id⟩, ?_, ?_, ?_⟩
    · rw [hafter, hev]
    · rw [hafter, configuration, hcur, henv', henv]
    · rw [hafter, hfired, hl.fired]

/-- The configurations that big steps from clear configurations lead to are reached, one big step after the other. -/
theorem clearSteps_reach {run k : Nat} {n : String} {c : Configuration} (hm : m.WellFormed)
    (hx : Execution.start run m = .ok x) (hn : m.start = .ok n) (h : m.ClearSteps k ⟨.state n, .empty⟩ c) :
    x.Reaches k c := by
  generalize ha : (⟨.state n, .empty⟩ : Configuration) = a at h
  induction h with
  | none c =>
    obtain ⟨n', hn', hcur, -, -, hi, hv, -⟩ := start_eq_ok hx
    obtain rfl := Except.ok.inj (hn.symm.trans hn')
    refine ⟨[], by simp, hi.event, ?_, rfl⟩
    rw [← ha, ← hcur, ← hv]
    rfl
  | more _ hclear hb ih =>
    obtain ⟨cs, hcs, he, rfl, hk⟩ := ih ha
    obtain ⟨_, -, hall⟩ := afterAll_stage hm hx
    obtain ⟨hmach, v, hst, -⟩ := hall cs
    obtain ⟨ds, hds, he', hc', hk'⟩ := hst.bigStep (hmach ▸ hm) he (hmach.symm ▸ hclear) (hmach.symm ▸ hb)
    rw [← afterAll_append] at he' hc' hk'
    exact ⟨cs ++ ds, List.forall_mem_append.mpr ⟨hcs, hds⟩, he', hc', by rw [hk', hk, Nat.add_assoc]⟩

/-! ## The refinement -/

/-- Since the last big step, the variables changed by the assignments that were executed. -/
theorem Stage.env_eq (h : x.Stage v) :
    (x.transition = none → x.env = v) ∧
      ∀ t, x.transition = some t → Assignment.SetsAll (t.assignments.take x.assigned) v x.env := by
  have hnone : x.transition = none → x.env = v → (x.transition = none → x.env = v) ∧
      ∀ t, x.transition = some t → Assignment.SetsAll (t.assignments.take x.assigned) v x.env := by
    intro hn hv
    refine ⟨fun _ => hv, fun t ht => ?_⟩
    rw [hn] at ht
    cases ht
  cases h with
  | idle hi hv _ => exact hnone hi.transition hv
  | stuck hi hv _ _ _ => exact hnone hi.transition hv
  | chosen h => exact hnone h.transition h.env
  | entered h => exact hnone h.transition h.env
  | fires h =>
    refine ⟨fun hn => ?_, fun t ht => ?_⟩
    · rw [h.transition] at hn
      cases hn
    · obtain rfl := Option.some.inj (h.transition.symm.trans ht)
      exact h.run

/-- An execution goes where big steps go. After any calls it is on its way through a big step. Where all guards have a
    value, as they have between big steps unless a call stalled, every big step can be done. Without an event, exactly
    the configurations are reached that big steps from clear configurations reach, firing as many transitions. -/
theorem refines_bigSteps {load run : Nat} {t : Tree} (hm : Machine.ofTree load t = .ok m)
    (hx : Execution.start run m = .ok x) :
    ∃ i ns n, m.initial = some i ∧ m.Settles i.target ns n ∧
      (∀ cs, let y := x.afterAll cs
        (y.event = none → m.BigSteps y.fired ⟨.state n, .empty⟩ y.configuration) ∧
        (∀ e, y.event = some e → ∃ v, m.BigSteps y.fired ⟨.state n, .empty⟩ ⟨y.current, v⟩ ∧
          (y.transition = none → y.env = v) ∧
          ∀ t, y.transition = some t → Assignment.SetsAll (t.assignments.take y.assigned) v y.env) ∧
        (x.Smooth cs → y.event = none → y.configuration.Clear m) ∧
        ∀ c, y.event = none → y.configuration.Clear m → m.BigStep y.configuration c → y.Reaches 1 c) ∧
      ∀ k c, m.ClearSteps k ⟨.state n, .empty⟩ c ↔ x.Reaches k c := by
  have hwf := ofTree_wellFormed hm
  obtain ⟨n, hn, hall⟩ := afterAll_stage hwf hx
  have hclear : ∀ cs, (x.afterAll cs).event = none →
      m.ClearSteps (x.afterAll cs).fired ⟨.state n, .empty⟩ (x.afterAll cs).configuration := by
    intro cs he
    obtain ⟨-, v, hst, hsteps⟩ := hall cs
    rw [configuration, (hst.idle_of_event he).2]
    exact hsteps
  obtain ⟨i, ns, hi, hns⟩ := start_settles hwf hn
  refine ⟨i, ns, n, hi, hns, fun cs => ?_, fun k c => ⟨clearSteps_reach hwf hx hn, ?_⟩⟩
  · obtain ⟨hmach, v, hst, hsteps⟩ := hall cs
    refine ⟨fun he => (hclear cs he).bigSteps, fun e _ => ⟨v, hsteps.bigSteps, hst.env_eq⟩, fun hs he => ?_,
      fun c he hc hb => ?_⟩
    · have := (hst.idle_of_event he).1.clear (hmach ▸ hwf) (smooth_offered hwf hx hs)
      rwa [hmach] at this
    · exact hst.bigStep (hmach ▸ hwf) he (hmach.symm ▸ hc) (hmach.symm ▸ hb)
  · rintro ⟨cs, -, he, rfl, hk⟩
    obtain ⟨_, -, -, -, hzero, -⟩ := start_eq_ok hx
    rw [hzero, Nat.zero_add] at hk
    rw [← hk]
    exact hclear cs he

/-- The door that was pushed open is where one big step has led. -/
theorem opened_door_refines_bigSteps :
    let y := Door.execution.afterAll (Door.pushed ++ [Door.execute 5, Door.execute 6])
    y.event = none ∧ y.fired = 1 ∧
      ∃ i ns n, Door.machine.initial = some i ∧ Door.machine.Settles i.target ns n ∧
        Door.machine.BigSteps 1 ⟨.state n, .empty⟩ y.configuration := by
  intro y
  have he : y.event = none := by decide +kernel
  have hf : y.fired = 1 := by decide +kernel
  obtain ⟨i, ns, n, hi, hns, hall, -⟩ := refines_bigSteps Door.built Door.starts
  have hsteps := (hall _).1 he
  rw [show (Execution.afterAll _ _).fired = 1 from hf] at hsteps
  exact ⟨he, hf, i, ns, n, hi, hns, hsteps⟩

end Execution

end Statechart
