/-
  Statechart.Proofs.Offer — what an execution offers, and what a call does to it.

  `offer` looks at the current state, the firing that was entered and the event. Each of
  its cases has one lemma here (`offer_final`, `offer_within`, `offer_idle`,
  `offer_chosen`), and the steps it makes have different identifiers (`offer_ids`), so
  that an offered step is the one found under its identifier (`get_of_mem`).

  A call either is refused and changes nothing, or finds an offered step, performs it and
  looks for what to offer next; `Executes` and `Enters` list the ways it can go, and
  nothing later opens `execute` or `enter` again.
-/

import Statechart.Proofs.BigStep

namespace Statechart

/-! ## Texts in ascending order -/

theorem mem_insertText {s t : String} {ts : List String} : t ∈ insertText s ts ↔ t = s ∨ t ∈ ts := by
  induction ts with
  | nil => simp [insertText]
  | cons u ts ih =>
    rw [insertText]
    split
    · rename_i h
      subst h
      simp
    · split
      · simp
      · simp only [List.mem_cons, ih]
        tauto

theorem insertText_ascends {s : String} {ts : List String} (h : ts.Pairwise (· < ·)) :
    (insertText s ts).Pairwise (· < ·) := by
  induction ts with
  | nil => simp [insertText]
  | cons u ts ih =>
    obtain ⟨hu, hts⟩ := List.pairwise_cons.mp h
    rw [insertText]
    split
    · exact h
    · rename_i hne
      split
      · rename_i hlt
        refine List.pairwise_cons.mpr ⟨fun t ht => ?_, h⟩
        rcases List.mem_cons.mp ht with rfl | ht
        · exact hlt
        · exact String.lt_trans hlt (hu t ht)
      · rename_i hlt
        have hgt : u < s := by
          by_contra hn
          exact hne (String.le_antisymm (String.not_lt.mp hn) (String.not_lt.mp hlt))
        refine List.pairwise_cons.mpr ⟨fun t ht => ?_, ih hts⟩
        rcases mem_insertText.mp ht with rfl | ht
        · exact hgt
        · exact hu t ht

@[simp] theorem mem_ascending {s : String} {ss : List String} : s ∈ ascending ss ↔ s ∈ ss := by
  induction ss with
  | nil => simp [ascending]
  | cons t ts ih =>
    show s ∈ insertText t (ascending ts) ↔ _
    rw [mem_insertText, ih, List.mem_cons]

theorem ascending_ascends (ss : List String) : (ascending ss).Pairwise (· < ·) := by
  induction ss with
  | nil => exact .nil
  | cons t ts ih => exact insertText_ascends ih

theorem ascending_nodup (ss : List String) : (ascending ss).Nodup := by
  refine (ascending_ascends ss).imp ?_
  rintro s _ h rfl
  exact String.lt_irrefl s h

/-! ## What is offered -/

theorem isFinal_eq_false {t : Target} : t.isFinal = false ↔ ∃ n, t = .state n := by
  cases t <;> simp [Target.isFinal]

namespace Execution

variable {x : Execution}

theorem offer_final (hf : x.current.isFinal = true) : x.offer = .ok [] := by
  unfold offer
  rw [if_pos hf]

theorem offer_within {f : Firing} (hf : x.current.isFinal = false) (ho : x.ongoing = some f) :
    x.offer = .ok [.atomic ⟨x.stepId 0, x.next f, some f, false⟩] := by
  unfold offer
  rw [if_neg (by simp [hf]), ho]

/-- An event as a step. -/
def eventStep (x : Execution) (p : String × Nat) : Step := .atomic ⟨x.stepId p.2, .event p.1, none, false⟩

/-- A transition as a step. -/
def firingStep (x : Execution) (p : Transition × Nat) : Step := .firing ⟨x.stepId p.2, p.1⟩

theorem offer_idle (hf : x.current.isFinal = false) (ho : x.ongoing = none) (he : x.event = none) :
    x.offer = (do return (← x.events).zipIdx.map x.eventStep) := by
  unfold offer
  rw [if_neg (by simp [hf]), ho, he]
  rfl

theorem offer_chosen {e : String} (hf : x.current.isFinal = false) (ho : x.ongoing = none) (he : x.event = some e) :
    x.offer = (do return (← x.reactions e).zipIdx.map x.firingStep) := by
  unfold offer
  rw [if_neg (by simp [hf]), ho, he]
  rfl

theorem numbered_ids {α : Type} (as : List α) {step : α × Nat → Step} (h : ∀ p, (step p).id = x.stepId p.2) :
    ((as.zipIdx.map step).map Step.id).Nodup := by
  have hids : (as.zipIdx.map step).map Step.id = (as.zipIdx.map (·.2)).map x.stepId := by
    rw [List.map_map, List.map_map]
    exact List.map_congr_left fun p _ => h p
  have hinj : Function.Injective x.stepId := fun i j hij => by
    injection hij with _ hij
    omega
  rw [hids, List.zipIdx_map_snd]
  exact List.Nodup.map hinj List.nodup_range'

theorem offer_cases {steps : List Step} (h : x.offer = .ok steps) :
    steps = [] ∨ (∃ f, steps = [.atomic ⟨x.stepId 0, x.next f, some f, false⟩]) ∨
      (∃ es : List String, steps = es.zipIdx.map x.eventStep) ∨
      ∃ ts : List Transition, steps = ts.zipIdx.map x.firingStep := by
  by_cases hf : x.current.isFinal = true
  · rw [offer_final hf] at h
    exact Or.inl (Except.ok.inj h).symm
  have hf : x.current.isFinal = false := by simpa using hf
  cases ho : x.ongoing with
  | some f =>
    rw [offer_within hf ho] at h
    exact Or.inr (Or.inl ⟨f, (Except.ok.inj h).symm⟩)
  | none =>
    cases he : x.event with
    | none =>
      rw [offer_idle hf ho he] at h
      obtain ⟨es, -, h⟩ := bind_eq_ok.mp h
      exact Or.inr (Or.inr (Or.inl ⟨es, (pure_eq_ok.mp h).symm⟩))
    | some e =>
      rw [offer_chosen hf ho he] at h
      obtain ⟨ts, -, h⟩ := bind_eq_ok.mp h
      exact Or.inr (Or.inr (Or.inr ⟨ts, (pure_eq_ok.mp h).symm⟩))

theorem offer_ids {steps : List Step} (h : x.offer = .ok steps) : (steps.map Step.id).Nodup := by
  rcases offer_cases h with rfl | ⟨f, rfl⟩ | ⟨es, rfl⟩ | ⟨ts, rfl⟩
  · exact List.nodup_nil
  · exact List.nodup_singleton _
  · exact numbered_ids es fun _ => rfl
  · exact numbered_ids ts fun _ => rfl

theorem offer_fresh {steps : List Step} (h : x.offer = .ok steps) {s : Atomic} (hs : .atomic s ∈ steps) :
    s.completed = false := by
  rcases offer_cases h with rfl | ⟨f, rfl⟩ | ⟨es, rfl⟩ | ⟨ts, rfl⟩
  · cases hs
  · cases List.mem_singleton.mp hs
    rfl
  · obtain ⟨p, -, hp⟩ := List.mem_map.mp hs
    cases hp
    rfl
  · obtain ⟨p, -, hp⟩ := List.mem_map.mp hs
    cases hp

/-- The execution when so many identifiers had been made for it. -/
def counted (x : Execution) (c : Nat) : Execution := { x with count := c }

/-- The steps offered are those to offer now, but for their identifiers. -/
def Offered (x : Execution) : Prop := ∃ c, (x.counted c).offer = .ok x.available

theorem offered_offering {steps : List Step} (h : x.offer = .ok steps) : (x.offering steps).Offered :=
  ⟨x.count, h⟩

theorem Offered.fresh (h : x.Offered) {s : Atomic} (hs : .atomic s ∈ x.available) : s.completed = false := by
  obtain ⟨c, hc⟩ := h
  exact offer_fresh hc hs

theorem Offered.ids (h : x.Offered) : (x.available.map Step.id).Nodup := by
  obtain ⟨c, hc⟩ := h
  exact offer_ids hc

/-! ## Finding a step -/

theorem get_eq_ok {id : Value} {s : Step} (h : x.get id = .ok s) : s ∈ x.available ∧ id = .ident s.id := by
  unfold get at h
  obtain ⟨o, ho, h⟩ := bind_eq_ok.mp h
  cases o with
  | none => cases h
  | some s' =>
    obtain rfl := pure_eq_ok.mp h
    cases id with
    | ident i =>
      have hfind : x.available.find? (fun s => s.id = i) = some s' := by simpa [find] using ho
      have hid : s'.id = i := by simpa using List.find?_some hfind
      exact ⟨List.mem_of_find?_eq_some hfind, by rw [hid]⟩
    | _ => simp [find] at ho

theorem get_of_mem (h : (x.available.map Step.id).Nodup) {s : Step} (hs : s ∈ x.available) :
    x.get (.ident s.id) = .ok s := by
  have hfound : (x.available.find? fun s' => s'.id = s.id).isSome := List.find?_isSome.mpr ⟨s, hs, by simp⟩
  obtain ⟨s', hs'⟩ := Option.isSome_iff_exists.mp hfound
  have hid : s'.id = s.id := by simpa using List.find?_some hs'
  obtain rfl := List.inj_on_of_nodup_map h (List.mem_of_find?_eq_some hs') hs hid
  simp [get, find, hs', bind, Except.bind, pure, Except.pure]

/-! ## Executing -/

/-- The execution once the effect of a step is there: the step is marked, and the firing it leaves open is ongoing. -/
def past (y : Execution) (s : Atomic) : Execution := (y.complete s.id).leaveOpen s

/-- The ways executing can go. -/
inductive Executes (x : Execution) : Value → Execution × Except Fault (List Id) → Prop
  | refused {id : Value} {e : Fault} : Executes x id (x, .error e)
  /-- The step is performed, and a guard has no value. -/
  | stalled {s : Atomic} {y : Execution} {e : EvalError} : .atomic s ∈ x.available → s.completed = false →
      x.perform s.action = .ok y → (y.past s).offer = .error e →
      Executes x (.ident s.id) (y.past s, .error (.eval e))
  | done {s : Atomic} {y : Execution} {steps : List Step} : .atomic s ∈ x.available → s.completed = false →
      x.perform s.action = .ok y → (y.past s).offer = .ok steps →
      Executes x (.ident s.id)
        ((y.past s).offering steps, .ok ((y.past s).completedWith (.atomic { s with completed := true })))

theorem execute_of_get {s : Atomic} (h : x.get (.ident s.id) = .ok (.atomic s)) (hc : s.completed = false) :
    x.execute (.ident s.id) =
      match x.perform s.action with
      | .error e => (x, .error e)
      | .ok y =>
        match (y.past s).offer with
        | .error e => (y.past s, .error (.eval e))
        | .ok steps =>
          ((y.past s).offering steps, .ok ((y.past s).completedWith (.atomic { s with completed := true }))) := by
  unfold execute
  simp only [h]
  rw [if_neg (by simp [isCompleted, hc])]
  rfl

theorem executes (x : Execution) (id : Value) : x.Executes id (x.execute id) := by
  cases hg : x.get id with
  | error e =>
    have : x.execute id = (x, .error e) := by simp only [execute, hg]
    rw [this]
    exact .refused
  | ok step =>
    obtain ⟨hmem, rfl⟩ := get_eq_ok hg
    cases step with
    | firing f =>
      have : ∃ e, x.execute (.ident (Step.firing f).id) = (x, .error e) := by
        unfold execute
        simp only [hg]
        split
        · exact ⟨_, rfl⟩
        · exact ⟨_, rfl⟩
      obtain ⟨e, he⟩ := this
      rw [he]
      exact .refused
    | atomic s =>
      cases hc : s.completed with
      | true =>
        have : x.execute (.ident (Step.atomic s).id) = (x, .error .stepCompleted) := by
          simp [execute, hg, isCompleted, hc]
        rw [this]
        exact .refused
      | false =>
        show x.Executes (.ident s.id) (x.execute (.ident s.id))
        rw [execute_of_get hg hc]
        cases hp : x.perform s.action with
        | error e => exact .refused
        | ok y =>
          dsimp only
          cases ho : (y.past s).offer with
          | error e => exact .stalled hmem hc hp ho
          | ok steps => exact .done hmem hc hp ho

/-! ## Entering -/

/-- The execution inside a firing. -/
def inside (x : Execution) (f : Firing) : Execution := { x with ongoing := some f }

/-- The ways entering can go. -/
inductive Enters (x : Execution) : Value → Execution × Except Fault Unit → Prop
  | refused {id : Value} {e : Fault} : Enters x id (x, .error e)
  | stalled {f : Firing} {e : EvalError} : .firing f ∈ x.available →
      (x.inside f).offer = .error e →
      Enters x (.ident f.id) (x.inside f, .error (.eval e))
  | done {f : Firing} {steps : List Step} : .firing f ∈ x.available →
      (x.inside f).offer = .ok steps →
      Enters x (.ident f.id) ((x.inside f).offering steps, .ok ())

theorem enter_of_get {f : Firing} (h : x.get (.ident f.id) = .ok (.firing f)) :
    x.enter (.ident f.id) =
      match (x.inside f).offer with
      | .error e => (x.inside f, .error (.eval e))
      | .ok steps => ((x.inside f).offering steps, .ok ()) := by
  unfold enter
  simp only [h]
  rfl

theorem enters (x : Execution) (id : Value) : x.Enters id (x.enter id) := by
  cases hg : x.get id with
  | error e =>
    have : x.enter id = (x, .error e) := by simp only [enter, hg]
    rw [this]
    exact .refused
  | ok step =>
    obtain ⟨hmem, rfl⟩ := get_eq_ok hg
    cases step with
    | atomic s =>
      have : x.enter (.ident (Step.atomic s).id) = (x, .error .stepNotComposite) := by simp only [enter, hg]
      rw [this]
      exact .refused
    | firing f =>
      show x.Enters (.ident f.id) (x.enter (.ident f.id))
      rw [enter_of_get hg]
      cases ho : (x.inside f).offer with
      | error e => exact .stalled hmem ho
      | ok steps => exact .done hmem ho

end Execution

end Statechart
