/-
  Statechart.Proofs.Failure — what is left of an execution when executing a step fails.

  A step can fail before it has any effect: there is no such step, it was executed
  before, it is a firing, its expression has no value, or its target leads nowhere. Then
  the execution is as it was.

  It can also fail after its effect, when what to offer next is looked for. Only a state
  change fails like this, and only because a guard in the new state, or further up its
  chain of parents, has no value. The transition was fired, and the step offered is still
  the state change, already executed. An execution that offers only such steps is
  `Spent`: it refuses every call for good (`spent_afterAll`).
-/

import Statechart.Proofs.Stage

namespace Statechart

namespace Execution

variable {x y : Execution} {v : Env} {m : Machine} {s : Atomic}

/-! ## Executions that refuse everything -/

/-- Nothing is offered but steps that were executed. -/
def Spent (x : Execution) : Prop := ∀ step ∈ x.available, ∃ s, step = .atomic s ∧ s.completed = true

theorem spent_of_empty (h : x.available = []) : x.Spent := by
  intro step hstep
  rw [h] at hstep
  cases hstep

theorem Spent.execute (h : x.Spent) (id : Value) : ∃ f, x.execute id = (x, .error f) := by
  have hno : ∀ s, .atomic s ∈ x.available → s.completed ≠ false := by
    intro s hs hc
    obtain ⟨_, heq, hdone⟩ := h _ hs
    cases heq
    rw [hc] at hdone
    cases hdone
  have hx := x.executes id
  generalize x.execute id = r at hx
  cases hx with
  | refused => exact ⟨_, rfl⟩
  | stalled hs hc _ _ => exact absurd hc (hno _ hs)
  | done hs hc _ _ => exact absurd hc (hno _ hs)

theorem Spent.enter (h : x.Spent) (id : Value) : ∃ f, x.enter id = (x, .error f) := by
  have hno : ∀ f, .firing f ∉ x.available := by
    intro f hf
    obtain ⟨_, heq, -⟩ := h _ hf
    cases heq
  have hx := x.enters id
  generalize x.enter id = r at hx
  cases hx with
  | refused => exact ⟨_, rfl⟩
  | stalled hf _ => exact absurd hf (hno _)
  | done hf _ => exact absurd hf (hno _)

/-- A call changes nothing of a spent execution, but a snapshot still uses up an identifier. -/
theorem Spent.after (h : x.Spent) (c : Call) : ∃ k, x.after c = x.counted k := by
  cases c with
  | execute id =>
    obtain ⟨f, hf⟩ := h.execute id
    exact ⟨x.count, congrArg Prod.fst hf⟩
  | enter id =>
    obtain ⟨f, hf⟩ := h.enter id
    exact ⟨x.count, congrArg Prod.fst hf⟩
  | check _ _ _ => exact ⟨x.count, rfl⟩
  | snapshot => exact ⟨x.count + 1, rfl⟩

theorem spent_afterAll (h : x.Spent) (ds : List Call) : ∃ k, x.afterAll ds = x.counted k := by
  induction ds using List.reverseRecOn with
  | nil => exact ⟨x.count, rfl⟩
  | append_singleton ds d ih =>
    obtain ⟨k, hk⟩ := ih
    have hk' : (x.counted k).Spent := h
    obtain ⟨k', hlast⟩ := hk'.after d
    refine ⟨k', ?_⟩
    rw [afterAll_append, hk]
    exact hlast

/-! ## Failing after the effect -/

/-- The step `s` changes the state and so fires the transition under way, and a guard has no value there. -/
structure MovesBlindly (m : Machine) (x : Execution) (s : Atomic) (y : Execution) (f : Fault) : Prop where
  pending : s.completed = false
  offered : x.available = [.atomic s]
  fired : ∃ t target, x.transition = some t ∧ s.action = .move t.source t.target ∧
    x.assigned = t.assignments.length ∧ m.Arrives t.target target ∧
    y = { x with
      current := target, event := none, transition := none, assigned := 0, fired := x.fired + 1, ongoing := none
      available := [.atomic { s with completed := true }] }
  blind : ∃ n ns t g err, y.current = .state n ∧ m.Chain n ns ∧ t ∈ ns.flatMap m.outgoing ∧ t.guard = some g ∧
    g.eval y.env = .error err ∧ f = .eval err

theorem MovesBlindly.spent {f : Fault} (h : MovesBlindly m x s y f) : y.Spent := by
  obtain ⟨t, target, -, -, -, -, rfl⟩ := h.fired
  intro step hstep
  exact ⟨_, List.mem_singleton.mp hstep, rfl⟩

/-- What the state change leaves behind. -/
theorem past_move {target : Target} {t : Transition} (ha : arrive x.machine t.target = .ok target)
    (hav : x.available = [.atomic s]) (hp : x.perform (.move t.source t.target) = .ok y) :
    y.past s = { x with
      current := target, event := none, transition := none, assigned := 0, fired := x.fired + 1, ongoing := none
      available := [.atomic { s with completed := true }] } := by
  have hpast := past_available ((perform_available hp).trans hav)
  simp only [perform, ha] at hp
  cases hp
  rw [← hpast]
  rfl

theorem Stage.movesBlindly {err : EvalError} (h : x.Stage v) (hm : x.machine.WellFormed)
    (hs : .atomic s ∈ x.available) (hc : s.completed = false) (hp : x.perform s.action = .ok y)
    (ho : (y.past s).offer = .error err) : MovesBlindly x.machine x s (y.past s) (.eval err) := by
  obtain ⟨e, ts, f, hfire, hl, haction, hav⟩ := (h.performs hs hc).stalls hp ho
  rw [haction] at hp
  obtain ⟨hi, -, -, ha, -⟩ := fires_move (s := s) hfire hm hl hp
  have hmach : (y.past s).machine = x.machine := past_machine hp
  obtain ⟨n, ns, t, g, hn, hchain, ht, hg, herr⟩ :=
    blind_of_enabledAmong (x := y.past s) (hmach ▸ hm) (hi.offer_error ho)
  rw [hmach] at hchain ht
  exact ⟨hc, hav, ⟨_, _, hfire.transition, haction, hl, ha, past_move ha.arrive hav hp⟩,
    n, ns, t, g, err, hn, hchain, ht, hg, herr, rfl⟩

/-- Executing a step that fails changes nothing, or it has changed the state, and every later call is refused. -/
theorem failed_execute_refused_or_spent {load run : Nat} {t : Tree} (hm : Machine.ofTree load t = .ok m)
    (hx : Execution.start run m = .ok x) (cs : List Call) {id : Value} {f : Fault}
    (hf : (x.afterAll cs).execute id = (y, .error f)) :
    y = x.afterAll cs ∨
    (∃ s, id = .ident s.id ∧ MovesBlindly m (x.afterAll cs) s y f) ∧
      ∀ ds, let z := y.afterAll ds
        (∃ k, z = y.counted k) ∧
          ∀ id', (∃ f', z.execute id' = (z, .error f')) ∧ ∃ f', z.enter id' = (z, .error f') := by
  have hwf := ofTree_wellFormed hm
  obtain ⟨_, -, hall⟩ := afterAll_stage hwf hx
  obtain ⟨hmach, v, hst, -⟩ := hall cs
  have hex := (x.afterAll cs).executes id
  rw [hf] at hex
  cases hex with
  | refused => exact Or.inl rfl
  | @stalled s y' _ hs hc hp ho =>
    have hblind := hst.movesBlindly (hmach ▸ hwf) hs hc hp ho
    rw [hmach] at hblind
    refine Or.inr ⟨⟨s, rfl, hblind⟩, fun ds => ?_⟩
    obtain ⟨k, hk⟩ := spent_afterAll hblind.spent ds
    have hspent : ((y'.past s).afterAll ds).Spent := by
      rw [hk]
      exact hblind.spent
    exact ⟨⟨k, hk⟩, fun id' => ⟨hspent.execute id', hspent.enter id'⟩⟩

/-- An open door has a guard without a value: it opens, and that was the last thing it did. -/
theorem opened_door_refused_or_spent :
    let z := Door.execution.afterAll (Door.pushed ++ [Door.execute 5])
    let y := (z.execute (.ident (.step 0 6))).1
    (∃ f, z.execute (.ident (.step 0 6)) = (y, .error f)) ∧ y.fired = 1 ∧ (∃ s f, MovesBlindly Door.machine z s y f) ∧
      ∀ ds id, ∃ f, ((y.afterAll ds).execute id).2 = .error f := by
  intro z y
  have hfired : y.fired = 1 := by decide +kernel
  have hbefore : z.fired = 0 := by decide +kernel
  have herr : (z.execute (.ident (.step 0 6))).2.isOk = false := by decide +kernel
  obtain ⟨f, hf⟩ : ∃ f, z.execute (.ident (.step 0 6)) = (y, .error f) := by
    cases hr : (z.execute (.ident (.step 0 6))).2 with
    | ok ids => rw [hr] at herr; cases herr
    | error f => exact ⟨f, Prod.ext rfl hr⟩
  rcases failed_execute_refused_or_spent Door.built Door.starts _ hf with hsame | ⟨⟨s, -, hs⟩, hlater⟩
  · have : y.fired = z.fired := congrArg Execution.fired hsame
    omega
  · refine ⟨⟨f, hf⟩, hfired, ⟨s, f, hs⟩, fun ds id => ?_⟩
    obtain ⟨f', hf'⟩ := ((hlater ds).2 id).1
    exact ⟨f', congrArg Prod.snd hf'⟩

end Execution

end Statechart
