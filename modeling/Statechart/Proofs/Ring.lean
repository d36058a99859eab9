/-
  Statechart.Proofs.Ring — executions of the ring.

  The ring has simple states only, so that the chain of parents of a state is the state
  itself, and a big step takes one of its own transitions: on to the next state of the
  ring, or from the last state to FINAL. No transition has a guard, and `y` is computed
  from `x` after `x` was set by the same transition, so each of them is sure.

  Proved (`ring_never_fails`): a ring of any size can be started, and after any calls every
  step that is offered can be taken. The number of transitions fired tells where the
  execution is: in the state that one comes to by going round the ring so often, or, after
  full rounds only, in a final state. Nothing is offered in a final state and nowhere else.
-/

import Statechart.Proofs.Samples
import Statechart.Proofs.Unfailing

namespace Statechart

namespace Sample

variable {k i : Nat} {m : Machine}

/-! ## States of the ring -/

/-- The state at the place `i` in a ring of `k` states. -/
structure Placed (k i : Nat) (s : State) : Prop where
  name : s.name = ringName i
  outgoing : List.Forall₂ Arrow.Realized (ringStep k i :: if i + 1 = k then [halt] else []) s.outgoing

theorem declaredAll_map_simple (ss : List State) : declaredAll (ss.map .simple) = ss.map .simple := by
  induction ss with
  | nil => rfl
  | cons s ss ih => simp [declaredAll, Member.declared, ih]

theorem declared_ring (h : (ringChart k).Realized m) :
    ∃ states : List State, m.declared = states.map .simple ∧ states.map State.name = (List.range k).map ringName ∧
      ∀ s ∈ states, ∃ i < k, Placed k i s := by
  obtain ⟨states, hmembers, hnames, hall⟩ := Draft.realized_simple h.members
  have hlength : states.length = k := by simpa using congrArg List.length hnames
  refine ⟨states, by rw [Machine.declared, hmembers, declaredAll_map_simple], hnames, ?_⟩
  intro s hs
  obtain ⟨i, hi, rfl⟩ := List.mem_iff_getElem.mp hs
  have hget : states[i]? = some states[i] := List.getElem?_eq_getElem hi
  have hname : (states.map State.name)[i]? = ((List.range k).map ringName)[i]? := by rw [hnames]
  refine ⟨i, hlength ▸ hi, ?_, forall₂_range_getElem? hall hget⟩
  simpa [hget, List.getElem?_range (hlength ▸ hi)] using hname

/-- Every state is simple and has its place in the ring. -/
theorem placed_of_declared (h : (ringChart k).Realized m) {d : Declared} (hd : d ∈ m.declared) :
    ∃ s i, d = .simple s ∧ i < k ∧ Placed k i s := by
  obtain ⟨states, hdeclared, -, hplaced⟩ := declared_ring h
  rw [hdeclared] at hd
  obtain ⟨s, hs, rfl⟩ := List.mem_map.mp hd
  obtain ⟨i, hi, hplace⟩ := hplaced s hs
  exact ⟨s, i, rfl, hi, hplace⟩

/-- Every place of the ring is taken by the state with its name. -/
theorem find?_ring (h : (ringChart k).Realized m) (hi : i < k) :
    ∃ s, m.find? (ringName i) = some (.simple s) ∧ Placed k i s := by
  have hmem : ringName i ∈ m.declared.map (·.state.name) := by
    obtain ⟨states, hdeclared, hnames, -⟩ := declared_ring h
    have hdnames : m.declared.map (·.state.name) = states.map State.name := by
      rw [hdeclared, List.map_map]
      rfl
    rw [hdnames, hnames]
    exact List.mem_map_of_mem (List.mem_range.mpr hi)
  obtain ⟨d, hd⟩ := Option.isSome_iff_exists.mp (Machine.find?_isSome.mpr hmem)
  obtain ⟨s, j, rfl, -, hplace⟩ := placed_of_declared h (List.mem_of_find?_eq_some hd)
  have hfound := List.find?_some hd
  have hname : s.name = ringName i := beq_iff_eq.mp hfound
  obtain rfl : j = i := ringName_injective (hplace.name.symm.trans hname)
  exact ⟨s, hd, hplace⟩

theorem settles_ring (h : (ringChart k).Realized m) (hi : i < k) : m.Settles (ringName i) [] (ringName i) := by
  obtain ⟨s, hs, -⟩ := find?_ring h hi
  exact .simple hs

theorem initial_ring (h : (ringChart k).Realized m) : ∃ j, m.initial = some j ∧ j.target = ringName 0 :=
  Option.map_eq_some_iff.mp h.initial

theorem start_ring (h : (ringChart k).Realized m) (hk : 0 < k) : m.start = .ok (ringName 0) := by
  obtain ⟨j, hj, hname⟩ := initial_ring h
  rw [Machine.start, hj]
  dsimp only
  rw [hname]
  exact (settles_ring h hk).nested

theorem Placed.transition {s : State} (h : Placed k i s) {t : Transition} (ht : t ∈ s.outgoing) :
    (ringStep k i).Realized t ∨ i + 1 = k ∧ halt.Realized t := by
  obtain ⟨a, ha, hreal⟩ := exists_of_forall₂ h.outgoing t ht
  rcases List.mem_cons.mp ha with rfl | ha
  · exact Or.inl hreal
  · split at ha
    · rename_i hlast
      rw [List.mem_singleton.mp ha] at hreal
      exact Or.inr ⟨hlast, hreal⟩
    · cases ha

/-! ## Every transition of the ring is sure -/

theorem runs_ringStep {t : Transition} (h : (ringStep k i).Realized t) (v : Env) :
    ∃ w, Assignment.SetsAll t.assignments v w := by
  have hassign := h.assignments
  generalize t.assignments = as at hassign
  obtain _ | ⟨a, _ | ⟨b, _ | _⟩⟩ := as <;> simp [ringStep] at hassign
  obtain ⟨⟨hx, hnumber⟩, -, hsum⟩ := hassign
  have hfirst : a.run v = .ok (v.set "x" (applySign none (numeral (Nat.repr (i % 9))))) := by
    rw [Assignment.run, hnumber, hx]
    rfl
  obtain ⟨w, hsecond⟩ : ∃ w, b.run (v.set "x" (applySign none (numeral (Nat.repr (i % 9))))) = .ok w := by
    rw [Assignment.run, hsum]
    simp only [Expr.valued, Expr.eval, Env.read, Env.get?_set, if_true]
    exact ⟨_, rfl⟩
  exact ⟨w, .cons (Assignment.run_eq_ok.mp hfirst) (.cons (Assignment.run_eq_ok.mp hsecond) (.nil w))⟩

theorem arrives_ringStep (h : (ringChart k).Realized m) (hk : 0 < k) {t : Transition} (ht : (ringStep k i).Realized t) :
    m.Arrives t.target (.state (ringName ((i + 1) % k))) := by
  rw [Target.eq_state_of_name? ht.target]
  exact .state (settles_ring h (Nat.mod_lt (i + 1) hk))

theorem unfailing_ring (h : (ringChart k).Realized m) (hk : 0 < k) : m.Unfailing := by
  refine ⟨?_, ?_, ?_⟩
  · obtain ⟨j, hj, hname⟩ := initial_ring h
    refine ⟨j, [], ringName 0, hj, ?_⟩
    rw [hname]
    exact settles_ring h hk
  · intro s hs hnil
    obtain ⟨s', i, heq, -, hplace⟩ := placed_of_declared h hs
    cases heq
    have hout := hplace.outgoing
    rw [hnil] at hout
    cases hout
  · intro d hd t ht
    obtain ⟨s, i, rfl, -, hplace⟩ := placed_of_declared h hd
    rcases hplace.transition ht with hstep | ⟨-, hhalt⟩
    · exact ⟨Option.map_eq_none_iff.mp hstep.guard, runs_ringStep hstep, _, arrives_ringStep h hk hstep⟩
    · refine ⟨Option.map_eq_none_iff.mp hhalt.guard, fun v => ⟨v, ?_⟩, ?_⟩
      · rw [List.map_eq_nil_iff.mp hhalt.assignments]
        exact .nil v
      · obtain ⟨j, ancestors, hfinal⟩ := Target.eq_final_of_name? hhalt.target
        rw [hfinal]
        exact ⟨_, .final⟩

/-! ## Going round -/

theorem chain_ring (h : (ringChart k).Realized m) (hm : m.WellFormed) (hi : i < k) {ns : List String}
    (hc : m.Chain (ringName i) ns) : ns = [ringName i] := by
  obtain ⟨s, hs, -⟩ := find?_ring h hi
  have htop : m.parent? (ringName i) = none := by
    have hancestors : s.ancestors = [] := by
      rcases hm.simple s (List.mem_of_find?_eq_some hs) with hnil | ⟨c, j, hcomposite, -⟩
      · exact hnil
      · obtain ⟨_, _, heq, -⟩ := placed_of_declared h hcomposite
        cases heq
    simp [Machine.parent?, Machine.state?, hs, Declared.state, State.parent?, hancestors]
  exact hc.unique (.top htop)

/-- A big step leads to the next state, or from the last state to FINAL. -/
theorem ring_bigStep (h : (ringChart k).Realized m) (hm : m.WellFormed) (hi : i < k) {a b : Configuration}
    (hstep : m.BigStep a b) (ha : a.state = .state (ringName i)) :
    b.state = .state (ringName ((i + 1) % k)) ∨ i + 1 = k ∧ b.state.isFinal = true := by
  cases hstep with
  | @fire n ns t v w s hc ht _ _ harr =>
    cases ha
    obtain ⟨state, hfound, hplace⟩ := find?_ring h hi
    rw [chain_ring h hm hi hc, List.flatMap_singleton, Machine.outgoing_of_find? hfound] at ht
    rcases hplace.transition ht with hnext | ⟨hlast, hhalt⟩
    · have hnext := arrives_ringStep h (Nat.zero_lt_of_lt hi) hnext
      exact Or.inl (Except.ok.inj (harr.arrive.symm.trans hnext.arrive))
    · obtain ⟨j, ancestors, hfinal⟩ := Target.eq_final_of_name? hhalt.target
      rw [hfinal] at harr
      cases harr
      exact Or.inr ⟨hlast, rfl⟩

/-- So many big steps lead so far round the ring, or to FINAL after full rounds. -/
theorem ring_bigSteps (h : (ringChart k).Realized m) (hm : m.WellFormed) (hk : 0 < k) {j : Nat} {a b : Configuration}
    (hsteps : m.BigSteps j a b) (ha : a.state = .state (ringName 0)) :
    b.state = .state (ringName (j % k)) ∨ b.state.isFinal = true ∧ 0 < j ∧ k ∣ j := by
  induction hsteps with
  | none => exact Or.inl ha
  | @more j a b c hsteps hstep ih =>
    rcases ih ha with hb | ⟨hfinal, -⟩
    · rcases ring_bigStep h hm (Nat.mod_lt j hk) hstep hb with hc | ⟨hlast, hc⟩
      · rw [Nat.mod_add_mod] at hc
        exact Or.inl hc
      · refine Or.inr ⟨hc, Nat.succ_pos j, ?_⟩
        rw [Nat.dvd_iff_mod_eq_zero, ← Nat.mod_add_mod, hlast, Nat.mod_self]
    · cases hstep
      cases hfinal

/-- The ring never fails, and the number of transitions fired tells where it is, with an event active or without. -/
theorem ring_never_fails (n : Int) (load run : Nat) :
    let size := (max 2 n).toNat
    ∃ m x, Machine.ofTree load (parse .machine (ring n)).tree = .ok m ∧ Execution.start run m = .ok x ∧
      ∀ cs : List Call, let y := x.afterAll cs
        (∀ s, .atomic s ∈ y.available → ∃ ids, (y.execute (.ident s.id)).2 = .ok ids) ∧
        (∀ f, .firing f ∈ y.available → (y.enter (.ident f.id)).2 = .ok ()) ∧
        (y.current = .state ("R" ++ letters (y.fired % size : Nat)) ∨
          y.current.isFinal = true ∧ 0 < y.fired ∧ size ∣ y.fired) ∧
        (y.available = [] ↔ y.current.isFinal = true) := by
  intro size
  have hsize : size = ringSize n := ringSize_eq n
  have hpos := ringSize_pos n
  obtain ⟨-, m, hm, hreal⟩ := built_ring n load
  have hwf := ofTree_wellFormed hm
  have hsure := unfailing_ring hreal hpos
  obtain ⟨x, hx⟩ := hsure.start hwf run
  refine ⟨m, x, hm, hx, fun cs => ?_⟩
  obtain ⟨hatomic, hfiring, hempty⟩ := hsure.afterAll hwf hx cs
  refine ⟨hatomic, hfiring, ?_, hempty⟩
  obtain ⟨first, hfirst, hall⟩ := Execution.afterAll_stage hwf hx
  obtain ⟨-, v, -, hsteps⟩ := hall cs
  obtain rfl : first = ringName 0 := Except.ok.inj (hfirst.symm.trans (start_ring hreal hpos))
  rw [hsize]
  exact ring_bigSteps hreal hwf hpos hsteps.bigSteps rfl

/-- The smallest ring, asked for with too small a size: it starts in its first state, where a step is offered and can be
    executed. -/
theorem smallest_ring_goes_on : ∃ m x s, Machine.ofTree 0 (parse .machine (ring (-3))).tree = .ok m ∧
    Execution.start 0 m = .ok x ∧ x.current = .state "Ra" ∧ .atomic s ∈ x.available ∧
      ∃ ids, (x.execute (.ident s.id)).2 = .ok ids := by
  obtain ⟨m, x, hm, hx, hall⟩ := ring_never_fails (-3) 0 0
  obtain ⟨hatomic, -, hwhere, hempty⟩ := hall []
  rw [show x.afterAll [] = x from rfl] at hatomic hwhere hempty
  obtain ⟨n, -, hn, -, hfired, hidle, -, hoffered⟩ := Execution.start_eq_ok hx
  have hactive : x.current.isFinal = false := isFinal_eq_false.mpr ⟨n, hn⟩
  have hfirst : x.current = .state "Ra" := by
    rcases hwhere with hstate | ⟨hfinal, -⟩
    · have hletter : letters (0 : Nat) = String.ofList [letter 0] := congrArg String.ofList (spell_of_lt (by decide))
      rw [hstate, hfired, Nat.zero_mod, hletter]
      rfl
    · rw [hactive] at hfinal
      cases hfinal
  obtain ⟨step, hstep⟩ := List.exists_mem_of_ne_nil _ fun hnil => absurd (hempty.mp hnil) (by simp [hactive])
  obtain ⟨ts, -, hevents⟩ := hoffered.idle hidle hactive
  obtain ⟨e, -, i, rfl⟩ := exists_of_forall₂ hevents step hstep
  exact ⟨m, x, _, hm, hx, hfirst, hstep, hatomic _ hstep⟩

end Sample

end Statechart
