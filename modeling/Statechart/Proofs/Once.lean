/-
  Statechart.Proofs.Once — a step is taken at most once.

  The identifier of a step says to which execution it belongs and which number it has
  there, and numbers are given out in order. So an offered step was offered before the
  last turn, perhaps not yet executed, or its number is new (`Becomes.offers`). An
  identifier of which neither can be said is out of use for good:
  - Once a step was executed, or a firing entered, under an identifier, only a step that
    was executed can still be offered under it, whatever happens (`Over`).
  - A request that executes or enters a step and is answered withdraws all that was ever
    offered for the file (`withdrawn_of_answered`), and what is withdrawn does not come
    back.

  Proved (`steps_taken_once`): over any history no identifier is taken twice, and a
  withdrawn one is refused by every request about a step, without effect.
-/

import Statechart.Proofs.History

namespace Statechart

/-! ## The numbers of an execution -/

namespace Execution

variable {x y : Execution}

/-- Every step offered has one of the numbers that were given out. -/
def Numbered (x : Execution) : Prop := ∀ step ∈ x.available, ∃ k, step.id = .step x.run k ∧ k < x.count

theorem offer_numbers {steps : List Step} (h : x.offer = .ok steps) :
    ∀ step ∈ steps, ∃ i, step.id = x.stepId i ∧ i < steps.length := by
  intro step hstep
  rcases offer_cases h with rfl | ⟨f, rfl⟩ | ⟨es, rfl⟩ | ⟨ts, rfl⟩
  · cases hstep
  · obtain rfl := List.mem_singleton.mp hstep
    exact ⟨0, rfl, by simp⟩
  · obtain ⟨p, hp, rfl⟩ := List.mem_map.mp hstep
    exact ⟨p.2, rfl, by simpa using List.snd_lt_of_mem_zipIdx hp⟩
  · obtain ⟨p, hp, rfl⟩ := List.mem_map.mp hstep
    exact ⟨p.2, rfl, by simpa using List.snd_lt_of_mem_zipIdx hp⟩

/-- The steps offered in `y` have numbers that were not given out in `x`. -/
def Renewed (x y : Execution) : Prop :=
  ∀ step ∈ y.available, ∃ k, step.id = .step x.run k ∧ x.count ≤ k ∧ k < y.count

theorem renewed_offering {steps : List Step} (hr : y.run = x.run) (hc : y.count = x.count) (h : y.offer = .ok steps) :
    x.Renewed (y.offering steps) := by
  intro step hstep
  obtain ⟨i, hi, hlt⟩ := offer_numbers h step hstep
  refine ⟨x.count + i, ?_, by omega, ?_⟩
  · rw [hi, stepId, hr, hc]
  · show x.count + i < y.count + steps.length
    omega

/-- A step of `y` is one of `x`, or one of `x` that is executed now. -/
def Stays (x y : Execution) : Prop :=
  ∀ step ∈ y.available,
    step ∈ x.available ∨ ∃ s, .atomic s ∈ x.available ∧ step = .atomic { s with completed := true }

theorem stays_past {s : Atomic} (h : y.available = x.available) : x.Stays (y.past s) := by
  intro step hstep
  obtain ⟨step', hmem, hstep⟩ := List.mem_map.mp (show step ∈ y.available.map _ from hstep)
  rw [h] at hmem
  cases step' with
  | firing f => exact Or.inl (hstep ▸ hmem)
  | atomic s' =>
    dsimp only at hstep
    split at hstep
    · exact Or.inr ⟨s', hmem, hstep.symm⟩
    · exact Or.inl (hstep ▸ hmem)

theorem execute_renews {id : Value} {ids : List Id} (h : (x.execute id).2 = .ok ids) : x.Renewed (x.execute id).1 := by
  have hx := x.executes id
  generalize x.execute id = r at hx h
  cases hx with
  | refused => cases h
  | stalled => cases h
  | done _ _ hp ho => exact renewed_offering (perform_numbers hp).1 (perform_numbers hp).2 ho

theorem enter_renews {id : Value} (h : (x.enter id).2 = .ok ()) : x.Renewed (x.enter id).1 := by
  have hx := x.enters id
  generalize x.enter id = r at hx h
  cases hx with
  | refused => cases h
  | stalled => cases h
  | done _ ho => exact renewed_offering (y := x.inside _) rfl rfl ho

/-- A call leaves the steps offered as they are, but for executing them, or replaces them all. -/
theorem after_stays_or_renews (x : Execution) (c : Call) :
    x.count ≤ (x.after c).count ∧ (x.Stays (x.after c) ∨ x.Renewed (x.after c)) := by
  have hself : x.Stays x := fun step hstep => Or.inl hstep
  cases c with
  | execute id =>
    show x.count ≤ (x.execute id).1.count ∧ (x.Stays (x.execute id).1 ∨ x.Renewed (x.execute id).1)
    have hx := x.executes id
    generalize x.execute id = r at hx
    cases hx with
    | refused => exact ⟨Nat.le_refl _, Or.inl hself⟩
    | stalled _ _ hp _ =>
      exact ⟨Nat.le_of_eq (perform_numbers hp).2.symm, Or.inl (stays_past (perform_available hp))⟩
    | @done s y steps _ _ hp ho =>
      obtain ⟨hr, hc⟩ := perform_numbers hp
      refine ⟨?_, Or.inr (renewed_offering hr hc ho)⟩
      show x.count ≤ y.count + steps.length
      omega
  | enter id =>
    show x.count ≤ (x.enter id).1.count ∧ (x.Stays (x.enter id).1 ∨ x.Renewed (x.enter id).1)
    have hx := x.enters id
    generalize x.enter id = r at hx
    cases hx with
    | refused => exact ⟨Nat.le_refl _, Or.inl hself⟩
    | stalled => exact ⟨Nat.le_refl _, Or.inl hself⟩
    | done _ ho => exact ⟨Nat.le_add_right _ _, Or.inr (renewed_offering (y := x.inside _) rfl rfl ho)⟩
  | check _ _ _ => exact ⟨Nat.le_refl _, Or.inl hself⟩
  | snapshot => exact ⟨Nat.le_succ _, Or.inl hself⟩

theorem Numbered.after (h : x.Numbered) (c : Call) : (x.after c).Numbered := by
  obtain ⟨hle, hst | hnew⟩ := x.after_stays_or_renews c
  · intro step hstep
    rw [after_run]
    rcases hst step hstep with hold | ⟨s, hold, rfl⟩
    · obtain ⟨k, hk, hlt⟩ := h _ hold
      exact ⟨k, hk, by omega⟩
    · obtain ⟨k, hk, hlt⟩ := h _ hold
      exact ⟨k, hk, by omega⟩
  · intro step hstep
    rw [after_run]
    obtain ⟨k, hk, -, hlt⟩ := hnew step hstep
    exact ⟨k, hk, hlt⟩

theorem start_numbered {run : Nat} {m : Machine} (h : Execution.start run m = .ok x) : x.Numbered := by
  unfold Execution.start at h
  split at h
  · cases h
  · dsimp only at h
    split at h
    · cases h
    · rename_i steps ho
      cases h
      intro step hstep
      obtain ⟨k, hk, -, hlt⟩ := renewed_offering rfl rfl ho step hstep
      exact ⟨k, hk, hlt⟩

theorem afterAll_numbered (h : x.Numbered) (cs : List Call) : (x.afterAll cs).Numbered := by
  induction cs generalizing x with
  | nil => exact h
  | cons c cs ih => exact ih (h.after c)

end Execution

/-! ## Known identifiers -/

namespace Session

variable {s t : Session} {name : String} {id : Id} {step : Step}

/-- The session offers a step for a file. -/
def Offers (s : Session) (name : String) (step : Step) : Prop :=
  ∃ x, s.executions.get? name = some x ∧ step ∈ x.available

/-- The identifier of a step that can have been offered: its number was given out, if its execution is still there. -/
def Known (s : Session) (id : Id) : Prop :=
  ∃ r k, id = .step r k ∧ r < s.count ∧ ∀ name x, s.executions.get? name = some x → x.run = r → k < x.count

theorem Sound.numbered (hs : s.Sound) {x : Execution} (hx : s.executions.get? name = some x) : x.Numbered := by
  obtain ⟨-, m, -, x₀, cs, hstart, rfl⟩ := hs.execution hx
  exact Execution.afterAll_numbered (Execution.start_numbered hstart) cs

theorem Sound.known (hs : s.Sound) (h : s.Offers name step) : s.Known step.id := by
  obtain ⟨x, hx, hstep⟩ := h
  obtain ⟨k, hk, hlt⟩ := hs.numbered hx step hstep
  refine ⟨x.run, k, hk, (hs.execution hx).1, fun name' x' hx' hrun => ?_⟩
  obtain rfl := hs.apart hx' hx hrun
  obtain rfl := Option.some.inj (hx.symm.trans hx')
  exact hlt

/-- A step belongs to one file. -/
theorem Sound.offers_unique (hs : s.Sound) {name' : String} {step' : Step} (h : s.Offers name step)
    (h' : s.Offers name' step') (hid : step'.id = step.id) : name' = name := by
  obtain ⟨x, hx, hstep⟩ := h
  obtain ⟨x', hx', hstep'⟩ := h'
  obtain ⟨k, hk, -⟩ := hs.numbered hx step hstep
  obtain ⟨k', hk', -⟩ := hs.numbered hx' step' hstep'
  rw [hk, hk'] at hid
  injection hid with hrun _
  exact hs.apart hx' hx hrun

theorem Known.becomes (h : s.Known id) (hb : s.Becomes t) : t.Known id := by
  obtain ⟨r, k, rfl, hr, hk⟩ := h
  cases hb with
  | same => exact ⟨r, k, rfl, hr, hk⟩
  | written _ _ => exact ⟨r, k, rfl, hr, hk⟩
  | registered _ =>
    refine ⟨r, k, rfl, Nat.lt_succ_of_lt hr, fun n x hx => ?_⟩
    simp only [register, Table.get?_erase] at hx
    split at hx
    · cases hx
    · exact hk n x hx
  | @started _ _ y _ hy =>
    refine ⟨r, k, rfl, Nat.lt_succ_of_lt hr, fun n x hx hrun => ?_⟩
    simp only [launch, Table.get?_put] at hx
    split at hx
    · cases hx
      have := Execution.start_run hy
      omega
    · exact hk n x hx hrun
  | @called _ y c hy =>
    refine ⟨r, k, rfl, hr, fun n x hx hrun => ?_⟩
    simp only [keep, Table.get?_put] at hx
    split at hx
    · cases hx
      rw [Execution.after_run] at hrun
      exact Nat.lt_of_lt_of_le (hk _ y hy hrun) (y.after_stays_or_renews c).1
    · exact hk n x hx hrun

theorem not_known_of_le {x : Execution} {k : Nat} (hx : s.executions.get? name = some x) (hk : x.count ≤ k) :
    ¬ s.Known (.step x.run k) := by
  rintro ⟨r, k', heq, -, hlt⟩
  cases heq
  have := hlt name x hx rfl
  omega

/-- An offered step was offered before the turn, perhaps not yet executed, or its identifier was not known. -/
theorem Becomes.offers (hb : s.Becomes t) (h : t.Offers name step) :
    s.Offers name step ∨ (∃ a, s.Offers name (.atomic a) ∧ step = .atomic { a with completed := true }) ∨
      ¬ s.Known step.id := by
  obtain ⟨x, hx, hstep⟩ := h
  cases hb with
  | same => exact Or.inl ⟨x, hx, hstep⟩
  | written _ _ => exact Or.inl ⟨x, hx, hstep⟩
  | registered _ =>
    simp only [register, Table.get?_erase] at hx
    split at hx
    · cases hx
    · exact Or.inl ⟨x, hx, hstep⟩
  | started _ hy =>
    simp only [launch, Table.get?_put] at hx
    split at hx
    · cases hx
      obtain ⟨k, hk, -⟩ := Execution.start_numbered hy step hstep
      refine Or.inr (Or.inr ?_)
      rintro ⟨r, k', heq, hlt, -⟩
      rw [hk, Execution.start_run hy] at heq
      cases heq
      exact Nat.lt_irrefl _ hlt
    · exact Or.inl ⟨x, hx, hstep⟩
  | @called _ y c hy =>
    simp only [keep, Table.get?_put] at hx
    split at hx
    · rename_i hn
      subst hn
      cases hx
      rcases (y.after_stays_or_renews c).2 with hst | hnew
      · rcases hst step hstep with hold | ⟨a, hold, rfl⟩
        · exact Or.inl ⟨y, hy, hold⟩
        · exact Or.inr (Or.inl ⟨a, ⟨y, hy, hold⟩, rfl⟩)
      · obtain ⟨k, hk, hle, -⟩ := hnew step hstep
        exact Or.inr (Or.inr (hk ▸ not_known_of_le hy hle))
    · exact Or.inl ⟨x, hx, hstep⟩

/-! ## Identifiers under which only some steps are offered -/

/-- The identifier is known, and all that is offered under it, for whatever file, has a property. -/
structure OffersOnly (s : Session) (p : String → Step → Prop) (id : Id) : Prop where
  known : s.Known id
  only : ∀ name step, s.Offers name step → step.id = id → p name step

/-- As the identifier is known, nothing new is offered under it. -/
theorem OffersOnly.becomes {p : String → Step → Prop} (h : s.OffersOnly p id) (hb : s.Becomes t)
    (hp : ∀ n a, p n (.atomic a) → p n (.atomic { a with completed := true })) : t.OffersOnly p id := by
  refine ⟨h.known.becomes hb, fun n step hstep hid => ?_⟩
  rcases hb.offers hstep with hold | ⟨a, hold, rfl⟩ | hnew
  · exact h.only n step hold hid
  · exact hp n a (h.only n (.atomic a) hold hid)
  · exact absurd (hid ▸ h.known) hnew

/-- Nothing is offered for the file under the identifier any more. -/
def Withdrawn (s : Session) (name : String) (id : Id) : Prop := s.OffersOnly (fun n _ => n ≠ name) id

/-- Nothing is offered under the identifier any more but a step that was executed. -/
def Over (s : Session) (id : Id) : Prop := s.OffersOnly (fun _ step => ∃ a, step = .atomic a ∧ a.completed = true) id

theorem Over.becomes (h : s.Over id) (hb : s.Becomes t) : t.Over id := by
  refine OffersOnly.becomes h hb fun n a ha => ?_
  exact ⟨_, rfl, rfl⟩

theorem Known.afterAll (h : s.Known id) (ts : List Turn) : (s.afterAll ts).Known id := by
  induction ts generalizing s with
  | nil => exact h
  | cons t ts ih => exact ih (h.becomes (s.after_becomes t))

theorem Withdrawn.afterAll (h : s.Withdrawn name id) (ts : List Turn) : (s.afterAll ts).Withdrawn name id := by
  induction ts generalizing s with
  | nil => exact h
  | cons t ts ih => exact ih (OffersOnly.becomes h (s.after_becomes t) fun n a ha => ha)

theorem Withdrawn.get {x : Execution} (h : s.Withdrawn name id) (hx : s.executions.get? name = some x) :
    x.get (.ident id) = .error (.unknownStep (.ident id)) := by
  have hfind : x.available.find? (fun step => step.id = id) = none := by
    refine List.find?_eq_none.mpr fun step hstep hid => ?_
    exact h.only name step ⟨x, hx, hstep⟩ (by simpa using hid) rfl
  simp only [Execution.get, Execution.find, hfind]
  rfl

end Session

/-! ## Taking a step -/

/-- The step that a call takes: one that is executed and has its effect, or a firing that is entered. -/
def Execution.taken? (x : Execution) : Call → Option Id
  | .execute id =>
    match x.get id with
    | .ok (.atomic s) => if s.completed then none else (x.perform s.action).toOption.map fun _ => s.id
    | _ => none
  | .enter id =>
    match x.get id with
    | .ok (.firing f) => some f.id
    | _ => none
  | _ => none

namespace Execution

variable {x : Execution} {v : Env} {id : Id}

/-- What is known of a call that takes a step. -/
inductive Takes (x : Execution) : Call → Id → Prop
  | execute {s : Atomic} {y : Execution} : x.get (.ident s.id) = .ok (.atomic s) → s.completed = false →
      x.perform s.action = .ok y → Takes x (.execute (.ident s.id)) s.id
  | enter {f : Firing} : x.get (.ident f.id) = .ok (.firing f) → Takes x (.enter (.ident f.id)) f.id

theorem takes_of_taken? {c : Call} (h : x.taken? c = some id) : x.Takes c id := by
  cases c with
  | execute i =>
    simp only [taken?] at h
    split at h
    · rename_i s hget
      obtain ⟨-, rfl⟩ := get_eq_ok hget
      cases hc : s.completed with
      | true => simp [hc] at h
      | false =>
        cases hp : x.perform s.action with
        | error e => simp [hc, hp, Except.toOption] at h
        | ok y =>
          obtain rfl : s.id = id := by simpa [hc, hp, Except.toOption] using h
          exact .execute hget hc hp
    · cases h
  | enter i =>
    simp only [taken?] at h
    split at h
    · rename_i f hget
      obtain ⟨-, rfl⟩ := get_eq_ok hget
      cases h
      exact .enter hget
    · cases h
  | check _ _ _ => cases h
  | snapshot => cases h

theorem Takes.pending {c : Call} (h : x.Takes c id) :
    ∃ step ∈ x.available, step.id = id ∧ ∀ a, step = .atomic a → a.completed = false := by
  cases h with
  | execute hget hc _ =>
    refine ⟨_, (get_eq_ok hget).1, rfl, fun a ha => ?_⟩
    cases ha
    exact hc
  | enter hget => exact ⟨_, (get_eq_ok hget).1, rfl, fun a ha => nomatch ha⟩

/-- Executing a step that is not taken is refused and changes nothing. -/
theorem execute_of_not_taken {i : Value} (h : x.taken? (.execute i) = none) : ∃ f, x.execute i = (x, .error f) := by
  cases hget : x.get i with
  | error f => exact ⟨f, by simp only [execute, hget]⟩
  | ok step =>
    obtain ⟨-, rfl⟩ := get_eq_ok hget
    cases step with
    | firing f =>
      unfold execute
      simp only [hget]
      split
      · exact ⟨_, rfl⟩
      · exact ⟨_, rfl⟩
    | atomic s =>
      cases hc : s.completed with
      | true => exact ⟨.stepCompleted, by simp [execute, hget, isCompleted, hc]⟩
      | false =>
        cases hp : x.perform s.action with
        | ok y => simp [taken?, hget, hc, hp, Except.toOption] at h
        | error f =>
          refine ⟨f, ?_⟩
          rw [show (Step.atomic s).id = s.id from rfl, execute_of_get hget hc]
          simp only [hp]

theorem enter_of_not_taken {i : Value} (h : x.taken? (.enter i) = none) : ∃ f, x.enter i = (x, .error f) := by
  cases hget : x.get i with
  | error f => exact ⟨f, by simp only [enter, hget]⟩
  | ok step =>
    cases step with
    | atomic s => exact ⟨.stepNotComposite, by simp only [enter, hget]⟩
    | firing f => simp [taken?, hget] at h

/-- Once a step is taken, nothing is offered under its identifier but that step, executed. -/
theorem Takes.over {c : Call} (h : x.Takes c id) (hst : x.Stage v) (hn : x.Numbered) :
    ∀ step ∈ (x.after c).available, step.id = id → ∃ a, step = .atomic a ∧ a.completed = true := by
  obtain ⟨step₀, hmem₀, hid₀, -⟩ := h.pending
  obtain ⟨k₀, hk₀, hlt₀⟩ := hn step₀ hmem₀
  have hnew : x.Renewed (x.after c) →
      ∀ step ∈ (x.after c).available, step.id = id → ∃ a, step = .atomic a ∧ a.completed = true := by
    intro hr step hstep hid
    obtain ⟨k, hk, hle, -⟩ := hr step hstep
    rw [hk, ← hid₀, hk₀] at hid
    injection hid with _ hkk
    omega
  cases h with
  | @execute s y hget hc hp =>
    have hex := execute_of_get hget hc
    simp only [hp] at hex
    cases ho : (y.past s).offer with
    | ok steps =>
      rw [ho] at hex
      exact hnew (execute_renews (congrArg Prod.snd hex))
    | error err =>
      -- Only a state change stalls, and it is offered alone.
      rw [ho] at hex
      obtain ⟨_, _, _, -, -, -, hav⟩ := (hst.performs (get_eq_ok hget).1 hc).stalls hp ho
      intro step hstep hid
      have hafter : x.after (.execute (.ident s.id)) = y.past s := congrArg Prod.fst hex
      rw [hafter, past_available ((perform_available hp).trans hav)] at hstep
      exact ⟨_, List.mem_singleton.mp hstep, rfl⟩
  | @enter f hget =>
    obtain ⟨e, ts, hch⟩ := hst.chosen_of_firing (get_eq_ok hget).1
    obtain ⟨steps, hok, -⟩ := chosen_enter hch (get_eq_ok hget).1
    have hen := enter_of_get hget
    simp only [hok] at hen
    exact hnew (enter_renews (congrArg Prod.snd hen))

end Execution

/-! ## Over any history -/

namespace Session

variable {s t : Session} {name : String} {id : Id}

/-- The step that a turn takes. -/
def taken? (s : Session) : Turn → Option Id
  | .request (.execute file step) =>
    match s.executions.read file with
    | .ok (_, x) => x.taken? (.execute step)
    | .error _ => none
  | .request (.enter file step) =>
    match s.executions.read file with
    | .ok (_, x) => x.taken? (.enter step)
    | .error _ => none
  | _ => none

/-- The steps that turns take, one after the other. -/
def taken (s : Session) : List Turn → List Id
  | [] => []
  | t :: ts => (s.taken? t).toList ++ (s.after t).taken ts

theorem change_eq {file : Value} {x : Execution} {f : Execution → Execution × Except Fault Answer}
    (h : s.executions.read file = .ok (name, x)) : s.change file f = (s.keep name (f x).1, ⟨[], (f x).2⟩) := by
  simp only [change, h]
  rfl

theorem taken?_eq_some {u : Turn} (h : s.taken? u = some id) :
    ∃ name x c, s.executions.get? name = some x ∧ x.Takes c id ∧ s.after u = s.keep name (x.after c) := by
  unfold taken? at h
  split at h
  · split at h
    · rename_i step _ name x hread
      refine ⟨name, x, .execute step, (Table.read_eq_ok.mp hread).2, Execution.takes_of_taken? h, ?_⟩
      exact congrArg Prod.fst (change_eq hread)
    · cases h
  · split at h
    · rename_i step _ name x hread
      refine ⟨name, x, .enter step, (Table.read_eq_ok.mp hread).2, Execution.takes_of_taken? h, ?_⟩
      exact congrArg Prod.fst (change_eq hread)
    · cases h
  · cases h

theorem Sound.stage (hs : s.Sound) {x : Execution} (hx : s.executions.get? name = some x) : ∃ v, x.Stage v := by
  obtain ⟨-, m, hm, x₀, cs, hstart, rfl⟩ := hs.execution hx
  obtain ⟨-, text, hbuilt⟩ := hs.machine hm
  obtain ⟨_, -, hall⟩ := Execution.afterAll_stage (ofTree_wellFormed hbuilt) hstart
  obtain ⟨-, v, hst, -⟩ := hall cs
  exact ⟨v, hst⟩

theorem over_of_taken {u : Turn} (hs : s.Sound) (h : s.taken? u = some id) : (s.after u).Over id := by
  have hb := s.after_becomes u
  obtain ⟨name, x, c, hx, htakes, hafter⟩ := taken?_eq_some h
  obtain ⟨step₀, hmem₀, rfl, -⟩ := htakes.pending
  obtain ⟨v, hst⟩ := hs.stage hx
  have hoff : s.Offers name step₀ := ⟨x, hx, hmem₀⟩
  refine ⟨(hs.known hoff).becomes hb, fun name' step hstep hid => ?_⟩
  obtain ⟨y, hy, hmem⟩ := hstep
  rw [hafter] at hy
  simp only [keep, Table.get?_put] at hy
  split at hy
  · cases hy
    exact htakes.over hst (hs.numbered hx) step hmem hid
  · rename_i hne
    exact absurd (hs.offers_unique hoff ⟨y, hy, hmem⟩ hid) hne

theorem Over.not_taken {u : Turn} (h : s.Over id) : s.taken? u ≠ some id := by
  intro htaken
  obtain ⟨name, x, c, hx, htakes, -⟩ := taken?_eq_some htaken
  obtain ⟨step, hmem, hid, hpending⟩ := htakes.pending
  obtain ⟨a, rfl, hdone⟩ := h.only name step ⟨x, hx, hmem⟩ hid
  rw [hpending a rfl] at hdone
  cases hdone

theorem Over.not_mem_taken (h : s.Over id) (ts : List Turn) : id ∉ s.taken ts := by
  induction ts generalizing s with
  | nil => simp [taken]
  | cons t ts ih =>
    rw [taken, List.mem_append, not_or]
    exact ⟨by simpa using h.not_taken, ih (h.becomes (s.after_becomes t))⟩

theorem Sound.taken_nodup (hs : s.Sound) (ts : List Turn) : (s.taken ts).Nodup := by
  induction ts generalizing s with
  | nil => exact List.nodup_nil
  | cons t ts ih =>
    have hrest := ih (hs.becomes (s.after_becomes t))
    cases ht : s.taken? t with
    | none => simpa [taken, ht] using hrest
    | some i => simpa [taken, ht] using ⟨(over_of_taken hs ht).not_mem_taken ts, hrest⟩

end Session

/-! ## Requests about a step -/

/-- A request that executes or enters a step of a file. -/
inductive Request.Takes (name : String) : Request → Prop
  | execute (step : Value) : Takes name (.execute (.str name) step)
  | enter (step : Value) : Takes name (.enter (.str name) step)

/-- A request about the step of a file with an identifier; a breakpoint is checked for one of the types there are. -/
inductive Request.About (name : String) (id : Id) : Request → Prop
  | execute : About name id (.execute (.str name) (.ident id))
  | enter : About name id (.enter (.str name) (.ident id))
  | check (type : BreakpointType) (entries : Value) :
      About name id (.check (.str name) (.str type.id) (.ident id) entries)
  | location : About name id (.location (.str name) (.ident id))

namespace Session

variable {s t : Session} {name : String} {id : Id}

/-- The same files, machines and executions under every name. -/
structure Alike (s t : Session) : Prop where
  files : s.files = t.files
  machines : s.machines = t.machines
  executions : ∀ name, s.executions.get? name = t.executions.get? name
  count : s.count = t.count

theorem Alike.refl (s : Session) : s.Alike s := ⟨rfl, rfl, fun _ => rfl, rfl⟩

theorem alike_keep {x : Execution} (hx : s.executions.get? name = some x) : (s.keep name x).Alike s := by
  refine ⟨rfl, rfl, fun n => ?_, rfl⟩
  simp only [keep, Table.get?_put]
  split
  · rename_i hn
    rw [hn, hx]
  · rfl

theorem read_str {x : Execution} (hx : s.executions.get? name = some x) :
    s.executions.read (.str name) = .ok (name, x) := Table.read_eq_ok.mpr ⟨rfl, hx⟩

/-- A request that executes or enters a step without taking one is refused and changes nothing. -/
theorem handle_of_not_taken {r : Request} (hr : r.Takes name) (h : s.taken? (.request r) = none) :
    (∃ f, (s.handle r).2.result = .error f) ∧ (s.handle r).1.Alike s := by
  cases hx : s.executions.get? name with
  | none =>
    have hread : s.executions.read (.str name) = .error (.unknownKey (.str name)) := by simp [Table.read, hx]
    cases hr <;> simp only [handle, change, hread] <;> exact ⟨⟨_, rfl⟩, Alike.refl s⟩
  | some x =>
    have hread := read_str hx
    cases hr with
    | execute step =>
      simp only [taken?, hread] at h
      obtain ⟨f, hf⟩ := Execution.execute_of_not_taken h
      simp only [handle, change_eq hread, hf]
      exact ⟨⟨f, rfl⟩, alike_keep hx⟩
    | enter step =>
      simp only [taken?, hread] at h
      obtain ⟨f, hf⟩ := Execution.enter_of_not_taken h
      simp only [handle, change_eq hread, hf]
      exact ⟨⟨f, rfl⟩, alike_keep hx⟩

/-- A request that takes a step and is answered replaces all that is offered for the file. -/
theorem takes_renews {r : Request} {a : Answer} (hr : r.Takes name) (h : (s.handle r).2.result = .ok a) :
    ∃ x y, s.executions.get? name = some x ∧ (s.handle r).1 = s.keep name y ∧ x.Renewed y := by
  cases hx : s.executions.get? name with
  | none =>
    have hread : s.executions.read (.str name) = .error (.unknownKey (.str name)) := by simp [Table.read, hx]
    cases hr <;> simp only [handle, change, hread] at h <;> cases h
  | some x =>
    have hread := read_str hx
    cases hr with
    | execute step =>
      simp only [handle, change_eq hread] at h ⊢
      cases hok : (x.execute step).2 with
      | error f => rw [hok] at h; cases h
      | ok ids => exact ⟨x, _, rfl, rfl, Execution.execute_renews hok⟩
    | enter step =>
      simp only [handle, change_eq hread] at h ⊢
      cases hok : (x.enter step).2 with
      | error f => rw [hok] at h; cases h
      | ok ids => exact ⟨x, _, rfl, rfl, Execution.enter_renews hok⟩

theorem withdrawn_of_answered {r : Request} {a : Answer} (hr : r.Takes name) (h : (s.handle r).2.result = .ok a)
    (hid : s.Known id) : (s.after (.request r)).Withdrawn name id := by
  refine ⟨hid.becomes (s.after_becomes _), ?_⟩
  rintro n step ⟨z, hz, hstep⟩ rfl rfl
  obtain ⟨x, y, hx, hy, hnew⟩ := takes_renews hr h
  rw [show s.after (.request r) = s.keep n y from hy] at hz
  simp only [keep, Table.get?_put_self, Option.some.injEq] at hz
  subst hz
  obtain ⟨k, hk, hle, -⟩ := hnew step hstep
  exact not_known_of_le hx hle (hk ▸ hid)

theorem Withdrawn.handle {x : Execution} {q : Request} (h : s.Withdrawn name id)
    (hx : s.executions.get? name = some x) (hq : q.About name id) :
    (s.handle q).2 = .refuse (.unknownStep (.ident id)) ∧ (s.handle q).1.Alike s := by
  have hget := h.get hx
  have hread := read_str hx
  cases hq with
  | execute =>
    have : x.execute (.ident id) = (x, .error (.unknownStep (.ident id))) := by simp only [Execution.execute, hget]
    simp only [Session.handle, change_eq hread, this]
    exact ⟨rfl, alike_keep hx⟩
  | enter =>
    have : x.enter (.ident id) = (x, .error (.unknownStep (.ident id))) := by simp only [Execution.enter, hget]
    simp only [Session.handle, change_eq hread, this]
    exact ⟨rfl, alike_keep hx⟩
  | check type entries =>
    simp only [Session.handle, look, hread, Execution.check, BreakpointType.ofId?_id, hget]
    exact ⟨rfl, Alike.refl s⟩
  | location =>
    simp only [Session.handle, look, hread, hget]
    exact ⟨rfl, Alike.refl s⟩

end Session

/-! ## A lamp

  A session in which the file of a lamp was read and its execution started. -/

namespace Lamp

def text : String :=
  r"StateMachine Lamp {INITIAL->Off;" ++
  r"state Off{->On:'press';}" ++
  r"state On{->Off:'press';}}"

def begun : List Turn :=
  [.text "lamp" text, .request (.parse (.str "lamp")), .request (.start (.str "lamp") .null)]

/-- Choose the event that is offered first. -/
def press : Request := .execute (.str "lamp") (.ident (.step 1 0))

/-- What a session offers for the lamp. -/
def offered (s : Session) : Option (List Id) := (s.executions.get? "lamp").map fun x => x.available.map Step.id

theorem offers_of_offered {s : Session} {ids : List Id} {id : Id} (h : offered s = some ids) (hid : id ∈ ids) :
    ∃ step, s.Offers "lamp" step ∧ step.id = id := by
  obtain ⟨x, hx, rfl⟩ := Option.map_eq_some_iff.mp h
  obtain ⟨step, hstep, rfl⟩ := List.mem_map.mp hid
  exact ⟨step, ⟨x, hx, hstep⟩, rfl⟩

end Lamp

/-! ## At most once -/

namespace Session

/-- Over any history no step is taken twice, and a request that does not take its step changes nothing. Once a request
    that takes a step of a file is answered, whatever was offered for the file before is refused for good, without
    effect. -/
theorem steps_taken_once (ts : List Turn) :
    (empty.taken ts).Nodup ∧
    (∀ name (r : Request), r.Takes name → (empty.afterAll ts).taken? (.request r) = none →
      (∃ f, ((empty.afterAll ts).handle r).2.result = .error f) ∧
        ((empty.afterAll ts).handle r).1.Alike (empty.afterAll ts)) ∧
    ∀ name (r : Request) a, r.Takes name → ((empty.afterAll ts).handle r).2.result = .ok a →
      ∀ us step, us <+: ts → (empty.afterAll us).Offers name step →
      ∀ vs x, let s := empty.afterAll (ts ++ .request r :: vs)
        s.executions.get? name = some x → ∀ q : Request, q.About name step.id →
          (s.handle q).2 = .refuse (.unknownStep (.ident step.id)) ∧ (s.handle q).1.Alike s := by
  refine ⟨sound_empty.taken_nodup ts, fun name r hr => handle_of_not_taken hr, ?_⟩
  rintro name r a hr hok us step ⟨ws, rfl⟩ hoff vs x s hx q hq
  have hknown : (empty.afterAll (us ++ ws)).Known step.id := by
    rw [afterAll_append]
    exact ((afterAll_sound us).known hoff).afterAll ws
  have hgone := (withdrawn_of_answered hr hok hknown).afterAll vs
  have hs : s = ((empty.afterAll (us ++ ws)).after (.request r)).afterAll vs := afterAll_append _ _ _
  rw [← hs] at hgone
  exact hgone.handle hx hq

/-- The lamp was pressed; the same press is refused, and the firing offered instead stays. -/
theorem lamp_pressed_once :
    let s := empty.afterAll (Lamp.begun ++ [.request Lamp.press])
    Lamp.offered (empty.afterAll Lamp.begun) = some [.step 1 0] ∧ Lamp.offered s = some [.step 1 1] ∧
      (s.handle Lamp.press).2 = .refuse (.unknownStep (.ident (.step 1 0))) ∧ (s.handle Lamp.press).1.Alike s := by
  intro s
  have hrun : Lamp.offered (empty.afterAll Lamp.begun) = some [.step 1 0] ∧ Lamp.offered s = some [.step 1 1] ∧
      ((empty.afterAll Lamp.begun).handle Lamp.press).2.result.isOk = true := by decide +kernel
  obtain ⟨hbefore, hafter, hok⟩ := hrun
  refine ⟨hbefore, hafter, ?_⟩
  obtain ⟨step, hoff, hid⟩ := Lamp.offers_of_offered hbefore List.mem_cons_self
  obtain ⟨x, hx, -⟩ := Option.map_eq_some_iff.mp hafter
  cases hres : ((empty.afterAll Lamp.begun).handle Lamp.press).2.result with
  | error f => rw [hres] at hok; cases hok
  | ok a =>
    have := (steps_taken_once Lamp.begun).2.2 "lamp" Lamp.press a (.execute _) hres Lamp.begun step List.prefix_rfl hoff
      [] x hx Lamp.press (hid ▸ .execute)
    rwa [hid] at this

end Session

end Statechart
