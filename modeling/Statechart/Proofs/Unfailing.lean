/-
  Statechart.Proofs.Unfailing — machines whose executions never fail.

  Executing an offered step can fail in three ways: an assignment has no value, a target
  leads nowhere, or a guard in the new state has no value. A transition is `Sure` if it
  has no guard, its assignments run whatever was set before, and its target leads
  somewhere. A machine is `Unfailing` if it can be started, all its transitions are sure,
  and every simple state has one.

  Proved: such a machine can be started (`Machine.Unfailing.start`). No call stalls
  (`Stage.smooth`), so that what is offered is always up to date; after any calls every
  atomic step that is offered can be executed, every firing can be entered, and only a
  final state offers nothing (`Machine.Unfailing.afterAll`).
-/

import Statechart.Proofs.Beginning
import Statechart.Proofs.Phase

namespace Statechart

/-! ## The condition -/

/-- A transition that can always be fired. -/
structure Transition.Sure (m : Machine) (t : Transition) : Prop where
  unguarded : t.guard = none
  runs : ∀ v, ∃ w, Assignment.SetsAll t.assignments v w
  arrives : ∃ s, m.Arrives t.target s

structure Machine.Unfailing (m : Machine) : Prop where
  starts : ∃ i ns n, m.initial = some i ∧ m.Settles i.target ns n
  leads : ∀ s, .simple s ∈ m.declared → s.outgoing ≠ []
  sure : ∀ d ∈ m.declared, ∀ t ∈ d.state.outgoing, t.Sure m

variable {m : Machine}

theorem Transition.Sure.enabled {t : Transition} (h : t.Sure m) (v : Env) : t.Enabled v := Or.inl h.unguarded

theorem Machine.Chain.self_mem {n : String} {ns : List String} (h : m.Chain n ns) : n ∈ ns := by
  cases h with
  | top _ => exact List.mem_singleton_self n
  | inside _ _ => exact List.mem_cons_self

theorem Machine.outgoing_of_find? {n : String} {d : Declared} (h : m.find? n = some d) :
    m.outgoing n = d.state.outgoing := by
  rw [Machine.outgoing, Machine.state?, h]
  rfl

theorem Machine.Unfailing.outgoing (h : m.Unfailing) {ns : List String} {t : Transition}
    (ht : t ∈ ns.flatMap m.outgoing) : t.Sure m := by
  obtain ⟨n, -, hout⟩ := List.mem_flatMap.mp ht
  obtain ⟨d, hd, -, hmem⟩ := Machine.WellFormed.mem_outgoing hout
  exact h.sure d hd t hmem

theorem Machine.Unfailing.start (h : m.Unfailing) (hm : m.WellFormed) (run : Nat) :
    ∃ x, Execution.start run m = .ok x := by
  obtain ⟨i, ns, n, hi, hns⟩ := h.starts
  exact (Execution.start_isOk_iff run hm).mpr
    ⟨n, i, ns, _, hi, hns, hm.chain_lineage n, fun t ht => (h.outgoing ht).unguarded⟩

namespace Execution

variable {x y : Execution} {v : Env} {s : Atomic}

/-! ## Every offered step can be taken -/

theorem sure_of_candidate (h : x.machine.Unfailing) {t : Transition} (ht : t ∈ x.candidates) : t.Sure x.machine := by
  obtain ⟨n, hn⟩ := candidates_state ht
  have hout : t ∈ (x.machine.lineage n).flatMap x.machine.outgoing := by simpa [candidates, hn] using ht
  exact h.outgoing hout

theorem Within.sure {e : String} {ts : List Transition} {f : Firing} (h : x.Within v e ts f)
    (hm : x.machine.Unfailing) : f.transition.Sure x.machine :=
  sure_of_candidate hm ((mem_enabledAmong h.enabled).mp h.mem).1

/-- Idle, there is always something to offer. -/
theorem Idle.offer_isOk (h : x.Idle) (hm : x.machine.Unfailing) : ∃ steps, x.offer = .ok steps := by
  cases ho : x.offer with
  | ok steps => exact ⟨steps, rfl⟩
  | error err =>
    obtain ⟨t, ht, g, hg, -⟩ := enabledAmong_eq_error (h.offer_error ho)
    rw [(sure_of_candidate hm ht).unguarded] at hg
    cases hg

/-- An offered step can be performed, and then there is something to offer. -/
theorem Performs.isOk (h : x.Performs v s) (hwf : x.machine.WellFormed) (hm : x.machine.Unfailing) :
    ∃ y steps, x.perform s.action = .ok y ∧ (y.past s).offer = .ok steps := by
  cases h with
  | @event e _ hi _ ht he hw ha =>
    have hp : x.perform s.action = .ok { x with event := some e } := by rw [ha, perform]
    obtain ⟨steps, ho, -⟩ := idle_event hi ht he hw (ha ▸ hp)
    exact ⟨_, steps, hp, ho⟩
  | @activate _ _ f h hw ha =>
    have hp : x.perform s.action = .ok { x with transition := some f.transition } := by rw [ha, perform]
    obtain ⟨steps, ho, -⟩ := entered_activate h hw (ha ▸ hp)
    exact ⟨_, steps, hp, ho⟩
  | @assign _ _ f a h hw hget ha =>
    obtain ⟨u, hall⟩ := (h.toWithin.sure hm).runs v
    obtain ⟨w, hsets⟩ := hall.next h.run hget
    have hp : x.perform s.action = .ok { x with env := w, assigned := x.assigned + 1 } := by
      rw [ha, perform, Assignment.run_eq_ok.mpr hsets]
    obtain ⟨steps, ho, -⟩ := fires_assign h hw hget (ha ▸ hp)
    exact ⟨_, steps, hp, ho⟩
  | @move _ _ f h _ hl ha _ =>
    obtain ⟨target, harr⟩ := (h.toWithin.sure hm).arrives
    obtain ⟨y, hp⟩ : ∃ y, x.perform s.action = .ok y := by
      rw [ha, perform, harr.arrive]
      exact ⟨_, rfl⟩
    have hidle := (fires_move (s := s) h hwf hl (ha ▸ hp)).1
    have hmach : (y.past s).machine = x.machine := past_machine hp
    obtain ⟨steps, ho⟩ := hidle.offer_isOk (hmach ▸ hm)
    exact ⟨y, steps, hp, ho⟩

theorem Stage.execute_isOk (h : x.Stage v) (hwf : x.machine.WellFormed) (hm : x.machine.Unfailing) (ho : x.Offered)
    (hs : .atomic s ∈ x.available) : ∃ ids, (x.execute (.ident s.id)).2 = .ok ids := by
  have hfresh := ho.fresh hs
  obtain ⟨y, steps, hp, hoffer⟩ := (h.performs hs hfresh).isOk hwf hm
  rw [execute_of_get (get_of_mem ho.ids hs) hfresh]
  simp only [hp, hoffer]
  exact ⟨_, rfl⟩

theorem Stage.enter_isOk (h : x.Stage v) (ho : x.Offered) {f : Firing} (hf : .firing f ∈ x.available) :
    (x.enter (.ident f.id)).2 = .ok () := by
  obtain ⟨e, ts, hchosen⟩ := h.chosen_of_firing hf
  obtain ⟨steps, hoffer, -⟩ := chosen_enter hchosen hf
  rw [enter_of_get (get_of_mem ho.ids hf)]
  simp only [hoffer]

/-! ## Every run -/

theorem Stage.not_stalls (h : x.Stage v) (hwf : x.machine.WellFormed) (hm : x.machine.Unfailing) (ho : x.Offered)
    (c : Call) : ¬ x.Stalls c := by
  cases c with
  | execute id =>
    rintro ⟨s, y, err, hget, hrest⟩
    obtain ⟨hs, rfl⟩ := get_eq_ok hget
    obtain ⟨ids, hids⟩ := h.execute_isOk hwf hm ho hs
    have hok : (x.execute (.ident (Step.atomic s).id)).2.isOk = true := congrArg Except.isOk hids
    exact Execution.not_stalls hok ⟨s, y, err, hget, hrest⟩
  | enter _ => exact id
  | check _ _ _ => exact id
  | snapshot => exact id

theorem Stage.smooth (h : x.Stage v) (hwf : x.machine.WellFormed) (hm : x.machine.Unfailing) (ho : x.Offered)
    (cs : List Call) : x.Smooth cs := by
  induction cs generalizing x v with
  | nil => trivial
  | cons c cs ih =>
    have hc := h.not_stalls hwf hm ho c
    have ho' := h.offered_after ho hc
    have hmach := after_machine x c
    cases h.after hwf c with
    | stays h' _ _ => exact ⟨hc, ih h' (hmach ▸ hwf) (hmach ▸ hm) ho'⟩
    | moves h' _ _ _ => exact ⟨hc, ih h' (hmach ▸ hwf) (hmach ▸ hm) ho'⟩

theorem Stage.empty_iff_final (h : x.Stage v) (hwf : x.machine.WellFormed) (hm : x.machine.Unfailing) (ho : x.Offered)
    (hrest : x.machine.Rests x.current) : x.available = [] ↔ x.current.isFinal = true := by
  rw [h.empty_iff hwf ho]
  refine or_iff_left ?_
  rintro ⟨-, n, ns, hn, hchain, hno⟩
  rw [hn] at hrest
  obtain ⟨s, hs⟩ := hrest
  obtain ⟨t, ht⟩ := List.exists_mem_of_ne_nil _ (hm.leads s (List.mem_of_find?_eq_some hs))
  have hout : t ∈ x.machine.outgoing n := by
    rw [Machine.outgoing_of_find? hs]
    exact ht
  have hmem : t ∈ ns.flatMap x.machine.outgoing := List.mem_flatMap.mpr ⟨n, hchain.self_mem, hout⟩
  exact hno t hmem ((hm.outgoing hmem).enabled _)

end Execution

theorem Machine.Unfailing.afterAll {run : Nat} {x : Execution} (h : m.Unfailing) (hm : m.WellFormed)
    (hx : Execution.start run m = .ok x) (cs : List Call) :
    (∀ s, .atomic s ∈ (x.afterAll cs).available → ∃ ids, ((x.afterAll cs).execute (.ident s.id)).2 = .ok ids) ∧
    (∀ f, .firing f ∈ (x.afterAll cs).available → ((x.afterAll cs).enter (.ident f.id)).2 = .ok ()) ∧
    ((x.afterAll cs).available = [] ↔ (x.afterAll cs).current.isFinal = true) := by
  obtain ⟨n, hn, hall⟩ := Execution.afterAll_stage hm hx
  obtain ⟨hmach, v, hstage, hsteps⟩ := hall cs
  have hwf : (x.afterAll cs).machine.WellFormed := hmach ▸ hm
  have hsure : (x.afterAll cs).machine.Unfailing := hmach ▸ h
  have hsmooth : x.Smooth cs := by
    obtain ⟨-, -, -, hmach', -, hidle, henv, hoffered⟩ := Execution.start_eq_ok hx
    exact (Execution.Stage.idle hidle henv hoffered).smooth (hmach' ▸ hm) (hmach' ▸ h) hoffered cs
  have hoffered := Execution.smooth_offered hm hx hsmooth
  have hrest : (x.afterAll cs).machine.Rests (x.afterAll cs).current := by
    obtain ⟨_, _, -, hns⟩ := start_settles hm hn
    rw [hmach]
    exact bigSteps_rest hns.rests hsteps.bigSteps
  exact ⟨fun s hs => hstage.execute_isOk hwf hsure hoffered hs, fun f hf => hstage.enter_isOk hoffered hf,
    hstage.empty_iff_final hwf hsure hoffered hrest⟩

end Statechart
