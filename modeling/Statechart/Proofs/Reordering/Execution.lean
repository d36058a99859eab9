/-
  Statechart.Proofs.Reordering.Execution — twins are executed alike.

  A user of an execution sees names and descriptions of steps and chooses by them. A
  `Choice` is what such a user says: a name, a description, and which one of the steps
  with both; a `Scene` is what there is to see, without identifiers and places.

  `Like` relates executions of twins that look the same. Everything an execution does is
  shown to keep it, one operation after the other: finding what to offer (`offer`),
  performing an action (`perform`), executing and entering a step (`execute`, `enter`).
  By induction over the choices, `play` shows the same scenes and errors.

  Proved (`order_of_states_irrelevant`): reordering the states of a machine changes
  neither whether it can be built nor what can be seen of it.
-/

import Statechart.Proofs.Reordering.Machine
import Statechart.Proofs.History

namespace Statechart

/-! ## Steps without identifiers and places -/

/-- Of an identifier only the place in the execution is left, if it has one. -/
def Id.stripped : Id → Id
  | .step _ count => .step 0 count
  | _ => .blank

def Firing.stripped (f : Firing) : Firing := ⟨f.id.stripped, f.transition.stripped⟩

def Action.stripped : Action → Action
  | .event e => .event e
  | .activate t => .activate t.stripped
  | .assign a => .assign a.stripped
  | .move source target => .move source target.stripped

def Atomic.stripped (s : Atomic) : Atomic :=
  ⟨s.id.stripped, s.action.stripped, s.within.map Firing.stripped, s.completed⟩

def Step.stripped : Step → Step
  | .atomic s => .atomic s.stripped
  | .firing f => .firing f.stripped

theorem Atomic.completed_of_stripped {s s' : Atomic} (h : s.stripped = s'.stripped) : s.completed = s'.completed := by
  show s.stripped.completed = s'.stripped.completed
  rw [h]

theorem Target.isFinal_stripped (t : Target) : t.stripped.isFinal = t.isFinal := by cases t <;> rfl

theorem Target.text_stripped (t : Target) : t.stripped.text = t.text := by cases t <;> rfl

theorem Transition.display_stripped (t : Transition) : t.stripped.display = t.display := by
  unfold Transition.display
  simp only [Transition.stripped, Target.isFinal_stripped, Target.text_stripped]

namespace Step

theorem name_stripped (s : Step) : s.stripped.name = s.name := by
  cases s with
  | firing f => exact f.transition.display_stripped
  | atomic s =>
    obtain ⟨id, action, within, completed⟩ := s
    cases action with
    | event e => rfl
    | activate t => exact t.display_stripped
    | assign a => rfl
    | move source target => exact congrArg ("New state: " ++ ·) target.text_stripped

theorem description?_stripped (s : Step) : s.stripped.description? = s.description? := by
  cases s with
  | firing f => rfl
  | atomic s =>
    obtain ⟨id, action, within, completed⟩ := s
    cases action <;> rfl

/-- An offered step once the step with an identifier was executed. -/
def mark (id : Id) : Step → Step
  | .atomic s => if s.id = id then .atomic { s with completed := true } else .atomic s
  | .firing f => .firing f

theorem id_mark (id : Id) (s : Step) : (s.mark id).id = s.id := by
  cases s with
  | firing f => rfl
  | atomic s =>
    rw [mark]
    split <;> rfl

theorem mark_stripped {run i j : Nat} {s : Step} (hs : s.id = .step run i) :
    (s.mark (.step run j)).stripped = s.stripped.mark (.step 0 j) := by
  cases s with
  | firing f => rfl
  | atomic s =>
    have hid : s.id = .step run i := hs
    have hid' : s.stripped.id = .step 0 i := by rw [Atomic.stripped, hid, Id.stripped]
    by_cases hij : i = j
    · rw [mark, if_pos (by rw [hid, hij]), stripped, stripped, mark, if_pos (by rw [hid', hij])]
      rfl
    · rw [mark, if_neg (by simpa [hid] using hij), stripped, mark, if_neg (by simpa [hid'] using hij)]

end Step

/-! ## Guards -/

theorem Transition.enabled_stripped (v : Env) (t : Transition) : t.stripped.enabled v = t.enabled v := by
  unfold Transition.enabled Transition.stripped
  cases t.guard <;> rfl

theorem enabledAmong_stripped (v : Env) (ts : List Transition) :
    enabledAmong v (ts.map Transition.stripped) = (enabledAmong v ts).map (List.map Transition.stripped) := by
  induction ts with
  | nil => rfl
  | cons t ts ih =>
    rw [List.map_cons, enabledAmong, enabledAmong, t.enabled_stripped, ih]
    simp only [map_bind', bind_map, map_pure']
    refine bind_congr fun e => bind_congr fun rest => ?_
    cases e <;> rfl

/-! ## Executions that look alike -/

/-- Steps that are told apart by identifiers of one execution. -/
structure Tagged (run : Nat) (steps : List Step) : Prop where
  distinct : (steps.map Step.id).Nodup
  made : ∀ s ∈ steps, ∃ i, s.id = .step run i

/-- Executions of twins that stand at the same point. -/
structure Execution.Like (x y : Execution) : Prop where
  machine : x.machine.Twin y.machine
  count : x.count = y.count
  event : x.event = y.event
  transition : x.transition.map Transition.stripped = y.transition.map Transition.stripped
  assigned : x.assigned = y.assigned
  current : x.current.stripped = y.current.stripped
  env : x.env = y.env
  fired : x.fired = y.fired
  ongoing : x.ongoing.map Firing.stripped = y.ongoing.map Firing.stripped
  available : x.available.map Step.stripped = y.available.map Step.stripped
  tagged : Tagged x.run x.available
  tagged' : Tagged y.run y.available

namespace Execution

variable {x y : Execution}

theorem tagged_offer {steps : List Step} (h : x.offer = .ok steps) : Tagged x.run steps := by
  refine ⟨offer_ids h, ?_⟩
  intro s hs
  rcases offer_cases h with rfl | ⟨f, rfl⟩ | ⟨es, rfl⟩ | ⟨ts, rfl⟩
  · cases hs
  · cases List.mem_singleton.mp hs
    exact ⟨_, rfl⟩
  · obtain ⟨p, -, rfl⟩ := List.mem_map.mp hs
    exact ⟨_, rfl⟩
  · obtain ⟨p, -, rfl⟩ := List.mem_map.mp hs
    exact ⟨_, rfl⟩

theorem complete_available (x : Execution) (id : Id) : (x.complete id).available = x.available.map (Step.mark id) := by
  unfold complete
  refine List.map_congr_left fun s _ => ?_
  cases s <;> rfl

namespace Like

theorem isFinal (h : x.Like y) : x.current.isFinal = y.current.isFinal := by
  rw [← Target.isFinal_stripped, h.current, Target.isFinal_stripped]

theorem candidates (h : x.Like y) :
    x.candidates.map Transition.stripped = y.candidates.map Transition.stripped := by
  have hcurrent := h.current
  unfold Execution.candidates
  cases hx : x.current with
  | final i as =>
    cases hy : y.current with
    | final j bs => rfl
    | state n =>
      rw [hx, hy] at hcurrent
      cases hcurrent
  | state n =>
    cases hy : y.current with
    | final j bs =>
      rw [hx, hy] at hcurrent
      cases hcurrent
    | state n' =>
      rw [hx, hy] at hcurrent
      cases hcurrent
      dsimp only
      rw [h.machine.lineage, List.map_flatMap, List.map_flatMap]
      exact List.flatMap_congr fun k _ => h.machine.outgoing k

theorem events (h : x.Like y) : x.events = y.events := by
  -- triggers can be read off stripped transitions
  have hread (z : Execution) : z.events = enabledAmong z.env (z.candidates.map Transition.stripped) >>= fun ts =>
      pure (ascending (ts.map (·.trigger))) := by
    rw [enabledAmong_stripped, bind_map]
    refine bind_congr fun ts => ?_
    rw [List.map_map]
    rfl
  rw [hread x, hread y, h.env, h.candidates]

theorem reactions (h : x.Like y) (e : String) : (x.reactions e).map (List.map Transition.stripped) =
    (y.reactions e).map (List.map Transition.stripped) := by
  have hread (z : Execution) : (z.reactions e).map (List.map Transition.stripped) =
      enabledAmong z.env ((z.candidates.map Transition.stripped).filter fun t => t.trigger = e) := by
    rw [Execution.reactions, ← enabledAmong_stripped, List.filter_map]
    rfl
  rw [hread x, hread y, h.env, h.candidates]

theorem next (h : x.Like y) {f g : Firing} (hfg : f.stripped = g.stripped) :
    (x.next f).stripped = (y.next g).stripped := by
  have htransition : f.transition.stripped = g.transition.stripped := congrArg Firing.transition hfg
  have hassignments : f.transition.assignments.map Assignment.stripped =
      g.transition.assignments.map Assignment.stripped := congrArg Transition.assignments htransition
  have hassignment : (f.transition.assignments[x.assigned]?).map Assignment.stripped =
      (g.transition.assignments[y.assigned]?).map Assignment.stripped := by
    rw [← List.getElem?_map, ← List.getElem?_map, hassignments, h.assigned]
  have hx := h.transition
  unfold Execution.next
  cases ht : x.transition with
  | none =>
    rw [ht] at hx
    rw [Option.map_eq_none_iff.mp hx.symm]
    exact congrArg Action.activate htransition
  | some t =>
    rw [ht] at hx
    obtain ⟨t', ht', hstripped⟩ := Option.map_eq_some_iff.mp hx.symm
    rw [ht']
    dsimp only
    cases ha : f.transition.assignments[x.assigned]? with
    | none =>
      rw [ha] at hassignment
      rw [Option.map_eq_none_iff.mp hassignment.symm]
      have hsource : t'.source = t.source := by
        show t'.stripped.source = t.stripped.source
        rw [hstripped]
      have htarget : t'.target.stripped = t.target.stripped := congrArg Transition.target hstripped
      simp only [Action.stripped, hsource, htarget]
    | some a =>
      rw [ha] at hassignment
      obtain ⟨a', ha', hstripped⟩ := Option.map_eq_some_iff.mp hassignment.symm
      rw [ha']
      exact congrArg Action.assign hstripped.symm

/-- The same is offered. -/
theorem offer (h : x.Like y) : x.offer.map (List.map Step.stripped) = y.offer.map (List.map Step.stripped) := by
  have hid (i : Nat) : (x.stepId i).stripped = (y.stepId i).stripped := by
    rw [stepId, stepId, Id.stripped, Id.stripped, h.count]
  by_cases hf : x.current.isFinal = true
  · rw [offer_final hf, offer_final (h.isFinal ▸ hf)]
  have hf : x.current.isFinal = false := by simpa using hf
  have hf' : y.current.isFinal = false := h.isFinal ▸ hf
  have hongoing := h.ongoing
  cases ho : x.ongoing with
  | some f =>
    rw [ho] at hongoing
    obtain ⟨g, ho', hfg⟩ := Option.map_eq_some_iff.mp hongoing.symm
    rw [offer_within hf ho, offer_within hf' ho']
    simp only [Except.map, List.map_cons, List.map_nil, Step.stripped, Atomic.stripped, hid, h.next hfg.symm,
      Option.map_some, hfg]
  | none =>
    rw [ho] at hongoing
    have ho' : y.ongoing = none := Option.map_eq_none_iff.mp hongoing.symm
    cases he : x.event with
    | none =>
      rw [offer_idle hf ho he, offer_idle hf' ho' (h.event ▸ he), h.events, map_bind', map_bind']
      refine bind_congr fun es => ?_
      rw [map_pure', map_pure', List.map_map, List.map_map]
      refine congrArg pure (List.map_congr_left fun p _ => ?_)
      simp only [Function.comp, eventStep, Step.stripped, Atomic.stripped, hid]
    | some e =>
      rw [offer_chosen hf ho he, offer_chosen hf' ho' (h.event ▸ he), map_bind', map_bind']
      refine bind_alike (h.reactions e) fun ts ts' hts => ?_
      -- a firing, stripped, is made of its transition, stripped
      have hread (z : Execution) (us : List Transition) : (us.zipIdx.map z.firingStep).map Step.stripped =
          (us.map Transition.stripped).zipIdx.map fun p => Step.firing ⟨(z.stepId p.2).stripped, p.1⟩ := by
        rw [List.zipIdx_map, List.map_map, List.map_map]
        rfl
      rw [map_pure', map_pure', hread, hread, hts]
      simp only [hid]

theorem offering (h : x.Like y) {steps steps' : List Step} (hx : x.offer = .ok steps) (hy : y.offer = .ok steps')
    (hsteps : steps.map Step.stripped = steps'.map Step.stripped) :
    (x.offering steps).Like (y.offering steps') := by
  have hlength : steps.length = steps'.length := by simpa using congrArg List.length hsteps
  have htagged := tagged_offer hx
  have htagged' := tagged_offer hy
  refine { h with count := ?_, available := hsteps, tagged := htagged, tagged' := htagged' }
  show x.count + steps.length = y.count + steps'.length
  rw [h.count, hlength]

/-- What to offer cannot be found out in both executions, or they look alike once it is offered. -/
theorem offering_cases (h : x.Like y) :
    (∃ e, x.offer = .error e ∧ y.offer = .error e) ∨
      ∃ steps steps', x.offer = .ok steps ∧ y.offer = .ok steps' ∧ (x.offering steps).Like (y.offering steps') := by
  have hoffer := h.offer
  cases hx : x.offer with
  | error e =>
    cases hy : y.offer with
    | error e' =>
      rw [hx, hy] at hoffer
      cases hoffer
      exact Or.inl ⟨e, rfl, rfl⟩
    | ok steps' =>
      rw [hx, hy] at hoffer
      cases hoffer
  | ok steps =>
    obtain ⟨steps', hy, hsteps⟩ := exists_alike hoffer hx
    exact Or.inr ⟨steps, steps', rfl, hy, h.offering hx hy hsteps.symm⟩

/-! ## Performing an action -/

theorem arrive (h : x.Like y) {t t' : Target} (ht : t.stripped = t'.stripped) :
    (Execution.arrive x.machine t).map Target.stripped = (Execution.arrive y.machine t').map Target.stripped := by
  cases t with
  | final i as =>
    cases t' with
    | final j bs => exact congrArg Except.ok ht
    | state n => cases ht
  | state n =>
    cases t' with
    | final j bs => cases ht
    | state n' =>
      cases ht
      rw [Execution.arrive, Execution.arrive, h.machine.nested]

/-- An action fails in both executions, or leads to executions that look alike. -/
theorem perform (h : x.Like y) {a a' : Action} (ha : a.stripped = a'.stripped) :
    (∃ e, x.perform a = .error e ∧ y.perform a' = .error e) ∨
      ∃ x' y', x.perform a = .ok x' ∧ y.perform a' = .ok y' ∧ x'.Like y' := by
  cases a with
  | event e =>
    cases a' <;> cases ha
    exact Or.inr ⟨_, _, rfl, rfl, { h with event := rfl }⟩
  | activate t =>
    cases a' with
    | activate t' =>
      have ht : t.stripped = t'.stripped := Action.activate.inj ha
      exact Or.inr ⟨_, _, rfl, rfl, { h with transition := congrArg some ht }⟩
    | _ => cases ha
  | assign a =>
    cases a' with
    | assign a' =>
      have hstripped : a.stripped = a'.stripped := Action.assign.inj ha
      have hrun (b : Assignment) (v : Env) : b.stripped.run v = b.run v := rfl
      have hruns : a.run x.env = a'.run y.env := by rw [← hrun a, ← hrun a', hstripped, h.env]
      unfold Execution.perform
      dsimp only
      rw [hruns]
      cases a'.run y.env with
      | error e => exact Or.inl ⟨_, rfl, rfl⟩
      | ok v =>
        have hassigned : x.assigned + 1 = y.assigned + 1 := by rw [h.assigned]
        exact Or.inr ⟨_, _, rfl, rfl, { h with assigned := hassigned, env := rfl }⟩
    | _ => cases ha
  | move source target =>
    cases a' with
    | move source' target' =>
      have harrive := h.arrive (Action.move.inj ha).2
      unfold Execution.perform
      dsimp only
      cases hx : Execution.arrive x.machine target with
      | error e =>
        cases hy : Execution.arrive y.machine target' with
        | error e' =>
          rw [hx, hy] at harrive
          cases harrive
          exact Or.inl ⟨_, rfl, rfl⟩
        | ok t' =>
          rw [hx, hy] at harrive
          cases harrive
      | ok t =>
        obtain ⟨t', hy, ht⟩ := exists_alike harrive hx
        rw [hy]
        have hfired : x.fired + 1 = y.fired + 1 := by rw [h.fired]
        refine Or.inr ⟨_, _, rfl, rfl, ?_⟩
        exact { h with event := rfl, transition := rfl, assigned := rfl, current := ht.symm, fired := hfired }
    | _ => cases ha

/-! ## Executing and entering -/

theorem past (h : x.Like y) {s s' : Atomic} (hs : s.stripped = s'.stripped) (hid : ∃ i, s.id = .step x.run i)
    (hid' : ∃ i, s'.id = .step y.run i) : (x.past s).Like (y.past s') := by
  obtain ⟨i, hi⟩ := hid
  obtain ⟨j, hj⟩ := hid'
  have hij : s.id.stripped = s'.id.stripped := congrArg Atomic.id hs
  rw [hi, hj, Id.stripped, Id.stripped] at hij
  cases hij
  have hmark (z : Execution) (hz : Tagged z.run z.available) :
      (z.complete (.step z.run i)).available.map Step.stripped =
        (z.available.map Step.stripped).map (Step.mark (.step 0 i)) := by
    rw [complete_available, List.map_map, List.map_map]
    refine List.map_congr_left fun t ht => ?_
    obtain ⟨k, hk⟩ := hz.made t ht
    exact Step.mark_stripped hk
  have htagged (z : Execution) (hz : Tagged z.run z.available) (id : Id) :
      Tagged z.run (z.complete id).available := by
    rw [complete_available]
    refine ⟨?_, ?_⟩
    · have hids : (z.available.map (Step.mark id)).map Step.id = z.available.map Step.id := by
        rw [List.map_map]
        exact List.map_congr_left fun t _ => Step.id_mark id t
      rw [hids]
      exact hz.distinct
    · intro t ht
      obtain ⟨u, hu, rfl⟩ := List.mem_map.mp ht
      rw [Step.id_mark]
      exact hz.made u hu
  have hwithin : s.within.map Firing.stripped = s'.within.map Firing.stripped := congrArg Atomic.within hs
  have hopen : (if x.event.isNone then none else s.within).map Firing.stripped =
      (if y.event.isNone then none else s'.within).map Firing.stripped := by
    rw [h.event]
    split
    · rfl
    · exact hwithin
  have havailable : (x.complete s.id).available.map Step.stripped = (y.complete s'.id).available.map Step.stripped := by
    rw [hi, hj, hmark x h.tagged, hmark y h.tagged', h.available]
  exact { h with
    ongoing := hopen, available := havailable, tagged := htagged x h.tagged s.id
    tagged' := htagged y h.tagged' s'.id }

theorem isCompleted (h : x.Like y) {s s' : Step} (hs : s.stripped = s'.stripped) :
    x.isCompleted s = y.isCompleted s' := by
  cases s with
  | atomic s =>
    cases s' with
    | atomic s' =>
      simp only [Step.stripped, Step.atomic.injEq] at hs
      exact Atomic.completed_of_stripped hs
    | firing f' => cases hs
  | firing f =>
    cases s' with
    | atomic s' => cases hs
    | firing f' =>
      show x.event.isNone = y.event.isNone
      rw [h.event]

theorem completedWith (h : x.Like y) {s s' : Atomic} (hs : s.stripped = s'.stripped) :
    (x.completedWith (.atomic s)).map Id.stripped = (y.completedWith (.atomic s')).map Id.stripped := by
  have hdone : s.completed = s'.completed := Atomic.completed_of_stripped hs
  have hid : s.id.stripped = s'.id.stripped := congrArg Atomic.id hs
  have hwithin : s.within.map Firing.stripped = s'.within.map Firing.stripped := congrArg Atomic.within hs
  -- what is said of a step, stripped, depends on the event and the step, stripped
  have hread (z : Execution) (t : Atomic) : (z.completedWith (.atomic t)).map Id.stripped =
      (if t.completed then [t.id.stripped] else []) ++
        ((t.within.map Firing.stripped).toList.flatMap fun f => if z.event.isNone then [f.id] else []) := by
    unfold Execution.completedWith
    simp only [Execution.isCompleted, Step.id, Step.parent?, List.map_append]
    congr 1
    · by_cases hc : t.completed = true
      · simp [hc]
      · simp [hc]
    · cases t.within with
      | none => rfl
      | some f =>
        by_cases he : z.event.isNone = true
        · simp [he, Firing.stripped]
        · simp [he]
  rw [hread, hread, hdone, hid, hwithin, h.event]

/-- The same offered step is executed alike. -/
theorem execute (h : x.Like y) {s s' : Step} (hmem : s ∈ x.available) (hmem' : s' ∈ y.available)
    (hs : s.stripped = s'.stripped) :
    (x.execute (.ident s.id)).1.Like (y.execute (.ident s'.id)).1 ∧
      (x.execute (.ident s.id)).2.map (List.map Id.stripped) =
        (y.execute (.ident s'.id)).2.map (List.map Id.stripped) := by
  have hget := get_of_mem h.tagged.distinct hmem
  have hget' := get_of_mem h.tagged'.distinct hmem'
  cases s with
  | firing f =>
    cases s' with
    | atomic s' => cases hs
    | firing f' =>
      have hdone := h.isCompleted hs
      unfold Execution.execute
      simp only [hget, hget', hdone]
      split
      · exact ⟨h, rfl⟩
      · exact ⟨h, rfl⟩
  | atomic s =>
    cases s' with
    | firing f' => cases hs
    | atomic s' =>
      have hstripped : s.stripped = s'.stripped := Step.atomic.inj hs
      have hcompleted : s.completed = s'.completed := Atomic.completed_of_stripped hstripped
      cases hc : s.completed with
      | true =>
        have hc' : s'.completed = true := hcompleted ▸ hc
        have hx : x.execute (.ident (Step.atomic s).id) = (x, .error .stepCompleted) := by
          simp [Execution.execute, hget, Execution.isCompleted, hc]
        have hy : y.execute (.ident (Step.atomic s').id) = (y, .error .stepCompleted) := by
          simp [Execution.execute, hget', Execution.isCompleted, hc']
        rw [hx, hy]
        exact ⟨h, rfl⟩
      | false =>
        have hc' : s'.completed = false := hcompleted ▸ hc
        show (x.execute (.ident s.id)).1.Like (y.execute (.ident s'.id)).1 ∧
          (x.execute (.ident s.id)).2.map _ = (y.execute (.ident s'.id)).2.map _
        rw [execute_of_get hget hc, execute_of_get hget' hc']
        have haction : s.action.stripped = s'.action.stripped := congrArg Atomic.action hstripped
        rcases h.perform haction with ⟨e, hx, hy⟩ | ⟨x', y', hx, hy, hlike⟩
        · rw [hx, hy]
          exact ⟨h, rfl⟩
        · have hpast : (x'.past s).Like (y'.past s') := by
            refine hlike.past hstripped ?_ ?_
            · rw [(perform_numbers hx).1]
              exact h.tagged.made _ hmem
            · rw [(perform_numbers hy).1]
              exact h.tagged'.made _ hmem'
          have hdone : ({ s with completed := true } : Atomic).stripped =
              ({ s' with completed := true } : Atomic).stripped := by
            simp only [Atomic.stripped, Atomic.mk.injEq] at hstripped ⊢
            exact ⟨hstripped.1, hstripped.2.1, hstripped.2.2.1, trivial⟩
          rw [hx, hy]
          dsimp only
          rcases hpast.offering_cases with ⟨e, hox, hoy⟩ | ⟨steps, steps', hox, hoy, hnext⟩
          · rw [hox, hoy]
            exact ⟨hpast, rfl⟩
          · rw [hox, hoy]
            exact ⟨hnext, congrArg Except.ok (hpast.completedWith hdone)⟩

/-- The same offered step is entered alike. -/
theorem enter (h : x.Like y) {s s' : Step} (hmem : s ∈ x.available) (hmem' : s' ∈ y.available)
    (hs : s.stripped = s'.stripped) :
    (x.enter (.ident s.id)).1.Like (y.enter (.ident s'.id)).1 ∧
      (x.enter (.ident s.id)).2 = (y.enter (.ident s'.id)).2 := by
  have hget := get_of_mem h.tagged.distinct hmem
  have hget' := get_of_mem h.tagged'.distinct hmem'
  cases s with
  | atomic s =>
    cases s' with
    | firing f' => cases hs
    | atomic s' =>
      unfold Execution.enter
      simp only [hget, hget']
      exact ⟨h, trivial⟩
  | firing f =>
    cases s' with
    | atomic s' => cases hs
    | firing f' =>
      have hinside : (x.inside f).Like (y.inside f') := { h with ongoing := congrArg some (Step.firing.inj hs) }
      show (x.enter (.ident f.id)).1.Like (y.enter (.ident f'.id)).1 ∧
        (x.enter (.ident f.id)).2 = (y.enter (.ident f'.id)).2
      rw [enter_of_get hget, enter_of_get hget']
      rcases hinside.offering_cases with ⟨e, hox, hoy⟩ | ⟨steps, steps', hox, hoy, hnext⟩
      · rw [hox, hoy]
        exact ⟨hinside, rfl⟩
      · rw [hox, hoy]
        exact ⟨hnext, rfl⟩

end Like

end Execution

/-! ## Choosing steps by what is seen of them -/

/-- What a user says: to execute or to enter the step with a name and a description, which one if there are several. -/
structure Choice where
  name : String
  description : Option String
  place : Nat
  enters : Bool

/-- What is seen of an execution, without identifiers and places. -/
structure Scene where
  current : Target
  event : Option String
  transition : Option Transition
  env : Env
  fired : Nat
  ongoing : Option Firing
  offered : List Step

namespace Execution

def scene (x : Execution) : Scene :=
  ⟨x.current.stripped, x.event, x.transition.map Transition.stripped, x.env, x.fired, x.ongoing.map Firing.stripped,
    x.available.map Step.stripped⟩

/-- The offered step that a choice means. -/
def pick (x : Execution) (c : Choice) : Option Step :=
  (x.available.filter fun s => s.name = c.name ∧ s.description? = c.description)[c.place]?

/-- Make a choice; the answer is the steps completed, or why not, and there is none if no such step is offered. -/
def choose (x : Execution) (c : Choice) : Execution × Option (Except Fault (List Id)) :=
  match x.pick c with
  | none => (x, none)
  | some s =>
    if c.enters then ((x.enter (.ident s.id)).1, some ((x.enter (.ident s.id)).2.map fun _ => []))
    else ((x.execute (.ident s.id)).1, some ((x.execute (.ident s.id)).2.map (List.map Id.stripped)))

/-- The answers to some choices, each with what is seen then. -/
def play (x : Execution) : List Choice → List (Option (Except Fault (List Id)) × Scene)
  | [] => []
  | c :: cs => ((x.choose c).2, (x.choose c).1.scene) :: (x.choose c).1.play cs

variable {x y : Execution}

theorem pick_mem {c : Choice} {s : Step} (h : x.pick c = some s) : s ∈ x.available :=
  (List.mem_filter.mp (List.mem_of_getElem? h)).1

theorem Like.scene (h : x.Like y) : x.scene = y.scene := by
  simp only [Execution.scene, h.current, h.event, h.transition, h.env, h.fired, h.ongoing, h.available]

theorem Like.pick (h : x.Like y) (c : Choice) : (x.pick c).map Step.stripped = (y.pick c).map Step.stripped := by
  -- name and description can be read off a stripped step
  have hread (z : Execution) : (z.pick c).map Step.stripped = ((z.available.map Step.stripped).filter fun s =>
      s.name = c.name ∧ s.description? = c.description)[c.place]? := by
    rw [Execution.pick, ← List.getElem?_map, List.filter_map]
    simp only [Function.comp_def, Step.name_stripped, Step.description?_stripped]
  rw [hread x, hread y, h.available]

/-- One choice is answered alike and leads to executions that look alike. -/
theorem Like.choose (h : x.Like y) (c : Choice) :
    (x.choose c).1.Like (y.choose c).1 ∧ (x.choose c).2 = (y.choose c).2 := by
  have hpick := h.pick c
  unfold Execution.choose
  cases hx : x.pick c with
  | none =>
    rw [hx] at hpick
    rw [Option.map_eq_none_iff.mp hpick.symm]
    exact ⟨h, rfl⟩
  | some s =>
    rw [hx] at hpick
    obtain ⟨s', hy, hs⟩ := Option.map_eq_some_iff.mp hpick.symm
    rw [hy]
    dsimp only
    by_cases hc : c.enters = true
    · obtain ⟨hlike, hanswer⟩ := h.enter (pick_mem hx) (pick_mem hy) hs.symm
      rw [if_pos hc, if_pos hc, hanswer]
      exact ⟨hlike, rfl⟩
    · obtain ⟨hlike, hanswer⟩ := h.execute (pick_mem hx) (pick_mem hy) hs.symm
      rw [if_neg hc, if_neg hc, hanswer]
      exact ⟨hlike, rfl⟩

/-- Any choices are answered alike, and the same is seen after each. -/
theorem Like.play (h : x.Like y) (cs : List Choice) : x.play cs = y.play cs := by
  induction cs generalizing x y with
  | nil => rfl
  | cons c cs ih =>
    obtain ⟨hlike, hanswer⟩ := h.choose c
    rw [Execution.play, Execution.play, hanswer, hlike.scene, ih hlike]

/-- Twins start alike. -/
theorem start_twin {m m' : Machine} (h : m.Twin m') (run run' : Nat) (cs : List Choice) :
    (start run m).map (fun x => (x.scene, x.play cs)) = (start run' m').map fun x => (x.scene, x.play cs) := by
  unfold start
  rw [h.start]
  cases m'.start with
  | error e => rfl
  | ok name =>
    dsimp only
    generalize hx : (Execution.mk m run 0 none none 0 (.state name) .empty 0 none []) = x
    generalize hy : (Execution.mk m' run' 0 none none 0 (.state name) .empty 0 none []) = y
    have hlike : x.Like y := by
      subst hx hy
      exact ⟨h, rfl, rfl, rfl, rfl, rfl, rfl, rfl, rfl, rfl, ⟨List.nodup_nil, by simp⟩, ⟨List.nodup_nil, by simp⟩⟩
    rcases hlike.offering_cases with ⟨e, hox, hoy⟩ | ⟨steps, steps', hox, hoy, hnext⟩
    · rw [hox, hoy]
    · rw [hox, hoy]
      exact congrArg Except.ok (Prod.ext hnext.scene (hnext.play cs))

end Execution

/-- The order of the states does not matter: of two trees that differ in it, at any levels, both have a machine or none
    has. The machines then agree name by name, and whatever is chosen by name and description, both executions
    answer alike and show the same states, variables, steps and errors. -/
theorem Machine.order_of_states_irrelevant {t t' : Tree} (h : t.Reorders t') (ht : t.hasRule .machine = true)
    (load load' : Nat) :
    ((∃ e, Machine.ofTree load t = .error e) ∧ ∃ e, Machine.ofTree load' t' = .error e) ∨
      ∃ m m', Machine.ofTree load t = .ok m ∧ Machine.ofTree load' t' = .ok m' ∧ m.Agrees m' ∧
        ∀ (run run' : Nat) (cs : List Choice), (Execution.start run m).map (fun x => (x.scene, x.play cs)) =
          (Execution.start run' m').map fun x => (x.scene, x.play cs) := by
  rcases ofTree_reordered h ht load load' with herror | ⟨m, m', hm, hm', htwin⟩
  · exact Or.inl herror
  · exact Or.inr ⟨m, m', hm, hm', htwin.agrees, fun run run' cs => Execution.start_twin htwin run run' cs⟩

namespace Lift

/-- A lift: its cabin is open or shut, and stops in the hall. Both the cabin and its first state lead to a state further
    down. -/
def text : String :=
  r"StateMachine M{INITIAL->C;" ++
  r"composite state C{->H:'s';INITIAL->O;state O{->S:'p';}state S{->O:'p'/{x=1;};}}" ++
  r"state H{}}"

def tree : Tree := (parse .machine text).tree

/-- Push the button and close the doors. -/
def choices : List Choice :=
  [⟨"p", some "activateEvent", 0, false⟩, ⟨"O --'p'--> S", some "fireTransition", 0, true⟩,
   ⟨"O --'p'--> S", some "activateTransition", 0, false⟩, ⟨"New state: S", none, 0, false⟩]

/-- The names of the states in order, and where the choices lead. -/
structure Seen where
  names : List String
  visits : List Target
  deriving DecidableEq

def seen? (t : Tree) : Option Seen := do
  let m ← (Machine.ofTree 0 t).toOption
  let x ← (Execution.start 0 m).toOption
  return ⟨m.declared.map (·.state.name), (x.play choices).map (·.2.current)⟩

/-- What is seen of a parsed machine and of its tree turned around, if there is no complaint. -/
def compared? (p : Parsed) : Option (Option Seen × Option Seen) :=
  if p.complaints = [] ∧ p.tree.hasRule .machine = true then some (seen? p.tree, seen? p.tree.flipped) else none

def visits : List Target := [.state "O", .state "O", .state "O", .state "S"]

theorem compared?_text : compared? (parse .machine text) =
    some (some ⟨["C", "O", "S", "H"], visits⟩, some ⟨["H", "C", "S", "O"], visits⟩) := by decide +kernel

end Lift

/-- The states of the lift can be declared in opposite order, inside the cabin as well. -/
theorem Machine.lift_order_irrelevant :
    (parse .machine Lift.text).complaints = [] ∧ Lift.tree.Reorders Lift.tree.flipped ∧
      Lift.tree.hasRule .machine = true ∧ Lift.seen? Lift.tree = some ⟨["C", "O", "S", "H"], Lift.visits⟩ ∧
      Lift.seen? Lift.tree.flipped = some ⟨["H", "C", "S", "O"], Lift.visits⟩ ∧
      ∃ m m', Machine.ofTree 0 Lift.tree = .ok m ∧ Machine.ofTree 1 Lift.tree.flipped = .ok m' ∧ m.Agrees m' ∧
        ∀ (run run' : Nat) (cs : List Choice), (Execution.start run m).map (fun x => (x.scene, x.play cs)) =
          (Execution.start run' m').map fun x => (x.scene, x.play cs) := by
  have hcompared := Lift.compared?_text
  unfold Lift.compared? at hcompared
  split at hcompared
  · rename_i hparsed
    obtain ⟨hcomplaints, hrule⟩ := hparsed
    simp only [Option.some.injEq, Prod.mk.injEq] at hcompared
    obtain ⟨hseen, hflipped⟩ := hcompared
    refine ⟨hcomplaints, Lift.tree.reorders_flipped, hrule, hseen, hflipped, ?_⟩
    rcases Machine.order_of_states_irrelevant Lift.tree.reorders_flipped hrule 0 1 with ⟨⟨e, he⟩, -⟩ | hbuilt
    · have herror : Machine.ofTree 0 (parse .machine Lift.text).tree = .error e := he
      rw [Lift.seen?, herror] at hseen
      cases hseen
    · exact hbuilt
  · cases hcompared

end Statechart
