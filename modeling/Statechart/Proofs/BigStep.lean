/-
  Statechart.Proofs.BigStep — what a machine does when nobody watches it step by step.

  A configuration is a state and the values of the variables. A big step takes a
  transition of the state, or of a state on its chain of parents, that has no guard or
  one that holds; does what its assignments say, in order, each seeing what the earlier ones
  set (`SetsAll`); and goes to the simple state that entering the target ends in.

  The chain of parents is followed state by state (`Chain`). In a well-formed machine it
  ends, and it is what the machine lists as the lineage of a state (`chain_lineage`). Where
  entering a state ends is followed from one composite state to the next (`Settles`), and
  the machine finds it whenever it ends (`Settles.nested`).

  Proved: guards are looked at from the nearest state outwards, and the enabled
  transitions are found exactly if all guards have a value (`enabledAmong_eq_ok`); from a
  simple state big steps lead to simple states and final pseudo-states only
  (`bigStep_rests`).
-/

import Statechart.Execution
import Statechart.Proofs.Assignments
import Mathlib.Data.List.Perm.Subperm

namespace Statechart

/-! ## The chain of parents -/

/-- The parent of a state. -/
def Machine.parent? (m : Machine) (name : String) : Option String := (m.state? name).bind State.parent?

/-- A state, its parent, the parent of that, and so on to the top. -/
inductive Machine.Chain (m : Machine) : String → List String → Prop
  | top {n : String} : m.parent? n = none → Chain m n [n]
  | inside {n p : String} {ns : List String} : m.parent? n = some p → Chain m p ns → Chain m n (n :: ns)

theorem Machine.Chain.unique {m : Machine} {n : String} {ns ns' : List String} (h : m.Chain n ns) (h' : m.Chain n ns') :
    ns = ns' := by
  induction h generalizing ns' with
  | top hp =>
    cases h' with
    | top _ => rfl
    | inside hp' _ => rw [hp] at hp'; cases hp'
  | inside hp _ ih =>
    cases h' with
    | top hp' => rw [hp] at hp'; cases hp'
    | inside hp' h' =>
      obtain rfl := Option.some.inj (hp.symm.trans hp')
      rw [ih h']

namespace Machine.WellFormed

variable {m : Machine}

/-- A state is found under its name. -/
theorem find? (h : m.WellFormed) {d : Declared} (hd : d ∈ m.declared) : m.find? d.state.name = some d := by
  obtain ⟨e, he⟩ := Option.isSome_iff_exists.mp (Machine.find?_isSome.mpr (List.mem_map_of_mem hd))
  have hmem : e ∈ m.declared := List.mem_of_find?_eq_some he
  have hname : e.state.name = d.state.name := by simpa using List.find?_some he
  rw [he, List.inj_on_of_nodup_map h.distinct hmem hd hname]

/-- A state has one parent at most, and lists it as its only ancestor. -/
theorem lineage_eq (h : m.WellFormed) (n : String) : m.lineage n = n :: (m.parent? n).toList := by
  cases hn : m.find? n with
  | none => simp [lineage, parent?, state?, hn]
  | some d =>
    have hd : d ∈ m.declared := List.mem_of_find?_eq_some hn
    have hone : d.state.ancestors = d.state.ancestors.head?.toList := by
      cases d with
      | composite s i =>
        show s.ancestors = s.ancestors.head?.toList
        rw [(h.composite s i hd).1]
        rfl
      | simple s =>
        show s.ancestors = s.ancestors.head?.toList
        rcases h.simple s hd with ha | ⟨c, i, -, ha⟩ <;> rw [ha] <;> rfl
    simpa [lineage, parent?, state?, hn, State.parent?] using hone

/-- A parent is composite, and has no parent itself. -/
theorem parent_top (h : m.WellFormed) {n p : String} (hp : m.parent? n = some p) :
    m.parent? p = none ∧ n ≠ p := by
  cases hn : m.find? n with
  | none => simp [parent?, state?, hn] at hp
  | some d =>
    have hd : d ∈ m.declared := List.mem_of_find?_eq_some hn
    have hanc : d.state.ancestors.head? = some p := by simpa [parent?, state?, hn, State.parent?] using hp
    cases d with
    | composite s i =>
      have : s.ancestors = [] := (h.composite s i hd).1
      simp [Declared.state, this] at hanc
    | simple s =>
      rcases h.simple s hd with ha | ⟨c, i, hc, ha⟩
      · simp [Declared.state, ha] at hanc
      · obtain rfl : c.name = p := by simpa [Declared.state, ha] using hanc
        have hf : m.find? c.name = some (.composite c i) := h.find? hc
        refine ⟨by simp [parent?, state?, hf, Declared.state, State.parent?, (h.composite c i hc).1], ?_⟩
        rintro rfl
        rw [hn] at hf
        cases hf

theorem chain_lineage (h : m.WellFormed) (n : String) : m.Chain n (m.lineage n) := by
  rw [h.lineage_eq n]
  cases hp : m.parent? n with
  | none => exact .top hp
  | some p => exact .inside hp (.top (h.parent_top hp).1)

theorem chain_nodup (h : m.WellFormed) {n : String} {ns : List String} (hc : m.Chain n ns) : ns.Nodup := by
  rw [hc.unique (h.chain_lineage n), h.lineage_eq n]
  cases hp : m.parent? n with
  | none => exact List.nodup_singleton n
  | some p => simpa using (h.parent_top hp).2

theorem mem_outgoing {n : String} {t : Transition} (ht : t ∈ m.outgoing n) :
    ∃ d ∈ m.declared, d.state.name = n ∧ t ∈ d.state.outgoing := by
  cases hn : m.find? n with
  | none => simp [outgoing, state?, hn] at ht
  | some d =>
    refine ⟨d, List.mem_of_find?_eq_some hn, by simpa using List.find?_some hn, ?_⟩
    simpa [outgoing, state?, hn] using ht

theorem source_eq (h : m.WellFormed) {n : String} {t : Transition} (ht : t ∈ m.outgoing n) : t.source = n := by
  obtain ⟨d, hd, rfl, hout⟩ := mem_outgoing ht
  exact h.source d hd t hout

/-- No transition is met twice on the chain of parents. -/
theorem chain_ids (h : m.WellFormed) {n : String} {ns : List String} (hc : m.Chain n ns) :
    ((ns.flatMap m.outgoing).map (·.id)).Nodup := by
  rw [List.map_flatMap, List.nodup_flatMap]
  constructor
  · intro k _
    cases hk : m.find? k with
    | none => simp [outgoing, state?, hk]
    | some d => simpa [outgoing, state?, hk] using h.ids d (List.mem_of_find?_eq_some hk)
  · refine (h.chain_nodup hc).imp fun {a b} hab => ?_
    intro i hi hj
    obtain ⟨t, ht, rfl⟩ := List.mem_map.mp hi
    obtain ⟨u, hu, heq⟩ := List.mem_map.mp hj
    obtain ⟨d, hd, rfl, hout⟩ := mem_outgoing ht
    obtain ⟨d', hd', rfl, hout'⟩ := mem_outgoing hu
    obtain ⟨k, hk⟩ := h.marked d hd t hout
    obtain ⟨k', hk'⟩ := h.marked d' hd' u hout'
    rw [hk, hk'] at heq
    injection heq with _ hname _
    exact hab hname.symm

end Machine.WellFormed

/-! ## Enabled transitions -/

/-- A transition may be taken: it has no guard, or one that holds. -/
def Transition.Enabled (v : Env) (t : Transition) : Prop :=
  t.guard = none ∨ ∃ g, t.guard = some g ∧ g.eval v = .ok (some true)

theorem enabled_eq_true {v : Env} {t : Transition} : t.enabled v = .ok true ↔ t.Enabled v := by
  unfold Transition.enabled Transition.Enabled
  cases t.guard with
  | none => simp
  | some g =>
    simp only [Option.some.injEq, exists_eq_left', reduceCtorEq, false_or]
    cases g.eval v <;> simp [bind, Except.bind]

theorem enabled_eq_error {v : Env} {t : Transition} {e : EvalError} :
    t.enabled v = .error e ↔ ∃ g, t.guard = some g ∧ g.eval v = .error e := by
  unfold Transition.enabled
  cases t.guard with
  | none => simp
  | some g => simp [bind_eq_error, pure, Except.pure]

theorem enabled_hasValue {v : Env} {t : Transition} :
    (∃ b, t.enabled v = .ok b) ↔ ∀ g, t.guard = some g → ∃ b, g.eval v = .ok b := by
  unfold Transition.enabled
  cases t.guard with
  | none => simp
  | some g => cases h : g.eval v <;> simp [h, bind, Except.bind, pure, Except.pure]

instance (v : Env) : DecidablePred (Transition.Enabled v) := fun t =>
  match h : t.enabled v with
  | .ok true => isTrue (enabled_eq_true.mp h)
  | .ok false => isFalse fun ht => by rw [enabled_eq_true.mpr ht] at h; cases h
  | .error _ => isFalse fun ht => by rw [enabled_eq_true.mpr ht] at h; cases h

theorem enabled_decide {v : Env} {t : Transition} {b : Bool} (h : t.enabled v = .ok b) : decide (t.Enabled v) = b := by
  cases b with
  | true => simpa using enabled_eq_true.mp h
  | false =>
    refine decide_eq_false fun ht => ?_
    rw [enabled_eq_true.mpr ht] at h
    cases h

/-- Every guard among some transitions has a value. -/
def GuardsHaveValues (v : Env) (ts : List Transition) : Prop :=
  ∀ t ∈ ts, ∀ g, t.guard = some g → ∃ b, g.eval v = .ok b

theorem enabledAmong_eq_error {v : Env} {ts : List Transition} {e : EvalError} (h : enabledAmong v ts = .error e) :
    ∃ t ∈ ts, ∃ g, t.guard = some g ∧ g.eval v = .error e := by
  induction ts with
  | nil => cases h
  | cons t ts ih =>
    rw [enabledAmong] at h
    rcases bind_eq_error.mp h with h | ⟨b, -, h⟩
    · exact ⟨t, List.mem_cons_self, enabled_eq_error.mp h⟩
    rcases bind_eq_error.mp h with h | ⟨es, -, h⟩
    · obtain ⟨t', ht', hg⟩ := ih h
      exact ⟨t', List.mem_cons_of_mem _ ht', hg⟩
    · cases h

theorem enabledAmong_eq_ok {v : Env} {ts es : List Transition} :
    enabledAmong v ts = .ok es ↔ GuardsHaveValues v ts ∧ es = ts.filter (·.Enabled v) := by
  induction ts generalizing es with
  | nil => simp [enabledAmong, GuardsHaveValues, eq_comm]
  | cons t ts ih =>
    have hsplit : GuardsHaveValues v (t :: ts) ↔ (∃ b, t.enabled v = .ok b) ∧ GuardsHaveValues v ts := by
      rw [GuardsHaveValues, List.forall_mem_cons, enabled_hasValue]
      rfl
    rw [enabledAmong, hsplit, bind_eq_ok]
    constructor
    · rintro ⟨b, hb, h⟩
      obtain ⟨rest, hrest, h⟩ := bind_eq_ok.mp h
      obtain ⟨hg, rfl⟩ := ih.mp hrest
      obtain rfl := pure_eq_ok.mp h
      refine ⟨⟨⟨b, hb⟩, hg⟩, ?_⟩
      rw [List.filter_cons, enabled_decide hb]
    · rintro ⟨⟨⟨b, hb⟩, hg⟩, rfl⟩
      refine ⟨b, hb, bind_eq_ok.mpr ⟨_, ih.mpr ⟨hg, rfl⟩, ?_⟩⟩
      rw [List.filter_cons, enabled_decide hb]
      rfl

theorem GuardsHaveValues.filter {v : Env} {ts : List Transition} (h : GuardsHaveValues v ts) (p : Transition → Bool) :
    GuardsHaveValues v (ts.filter p) :=
  fun t ht => h t (List.mem_of_mem_filter ht)

/-! ## Entering a state -/

/-- Entering the state `n` passes through the composite states `ns`, each time on to where it starts, and ends in the
    simple state `k`. -/
inductive Machine.Settles (m : Machine) : String → List String → String → Prop
  | simple {n : String} {s : State} : m.find? n = some (.simple s) → Settles m n [] n
  | composite {n k : String} {ns : List String} {s : State} {i : Initial} :
      m.find? n = some (.composite s (some i)) → Settles m i.target ns k → Settles m n (n :: ns) k

namespace Machine.Settles

variable {m : Machine} {n k : String} {ns : List String}

theorem unique {k' : String} {ns' : List String} (h : m.Settles n ns k) (h' : m.Settles n ns' k') : ns = ns' := by
  induction h generalizing ns' with
  | simple hs =>
    cases h' with
    | simple _ => rfl
    | composite hc _ => rw [hs] at hc; cases hc
  | composite hc _ ih =>
    cases h' with
    | simple hs => rw [hc] at hs; cases hs
    | composite hc' h' =>
      rw [hc] at hc'
      cases hc'
      rw [ih h']

theorem later {p : String} (h : m.Settles n ns k) (hp : p ∈ ns) : ∃ ps, m.Settles p ps k ∧ ps.length ≤ ns.length := by
  induction h with
  | simple _ => cases hp
  | composite hc h ih =>
    rcases List.mem_cons.mp hp with rfl | hp
    · exact ⟨_, .composite hc h, Nat.le_refl _⟩
    · obtain ⟨ps, hps, hle⟩ := ih hp
      exact ⟨ps, hps, Nat.le_succ_of_le hle⟩

/-- What ends passes through no state twice: it would come to it again and again. -/
theorem nodup (h : m.Settles n ns k) : ns.Nodup := by
  induction h with
  | simple _ => exact List.nodup_nil
  | composite hc h ih =>
    refine List.nodup_cons.mpr ⟨fun hmem => ?_, ih⟩
    obtain ⟨ps, hps, hle⟩ := h.later hmem
    rw [← (Settles.composite hc h).unique hps, List.length_cons] at hle
    omega

theorem subset_declared (h : m.Settles n ns k) : ns ⊆ m.declared.map (·.state.name) := by
  induction h with
  | simple _ => exact List.nil_subset _
  | composite hc _ ih => exact List.cons_subset.mpr ⟨Machine.find?_isSome.mp (by rw [hc]; rfl), ih⟩

theorem length_le (h : m.Settles n ns k) : ns.length ≤ m.declared.length := by
  simpa using (List.Nodup.subperm h.nodup h.subset_declared).length_le

theorem follow {fuel : Nat} (h : m.Settles n ns k) (hf : ns.length < fuel) : m.follow fuel n = .ok k := by
  induction h generalizing fuel with
  | simple hs =>
    cases fuel with
    | zero => cases hf
    | succ fuel => rw [Machine.follow, hs]
  | composite hc _ ih =>
    cases fuel with
    | zero => cases hf
    | succ fuel =>
      rw [Machine.follow, hc]
      exact ih (Nat.lt_of_succ_lt_succ hf)

/-- There are as many states as can be passed through. -/
theorem nested (h : m.Settles n ns k) : m.nested n = .ok k := h.follow (Nat.lt_succ_of_le h.length_le)

end Machine.Settles

theorem follow_settles {m : Machine} (hm : m.WellFormed) : ∀ (fuel : Nat) {n k : String}, (m.find? n).isSome →
    m.follow fuel n = .ok k → ∃ ns, m.Settles n ns k
  | 0, _, _, _, h => by cases h
  | fuel + 1, n, k, hn, h => by
    obtain ⟨d, hd⟩ := Option.isSome_iff_exists.mp hn
    rw [Machine.follow, hd] at h
    cases d with
    | simple s =>
      cases h
      exact ⟨[], .simple hd⟩
    | composite s i =>
      obtain ⟨-, j, rfl, hj⟩ := hm.composite s i (List.mem_of_find?_eq_some hd)
      obtain ⟨ns, hns⟩ := follow_settles hm fuel hj h
      exact ⟨n :: ns, .composite hd hns⟩

theorem start_settles {m : Machine} (hm : m.WellFormed) {n : String} (h : m.start = .ok n) :
    ∃ i ns, m.initial = some i ∧ m.Settles i.target ns n := by
  obtain ⟨i, hi, hfound⟩ := hm.starts
  rw [Machine.start, hi] at h
  obtain ⟨ns, hns⟩ := follow_settles hm _ hfound h
  exact ⟨i, ns, hi, hns⟩

/-- Where a target leads. -/
inductive Machine.Arrives (m : Machine) : Target → Target → Prop
  | state {n k : String} {ns : List String} : m.Settles n ns k → Arrives m (.state n) (.state k)
  | final {i : Id} {ancestors : List String} : Arrives m (.final i ancestors) (.final i ancestors)

theorem Machine.Arrives.arrive {m : Machine} {t s : Target} (h : m.Arrives t s) : Execution.arrive m t = .ok s := by
  cases h with
  | state hs =>
    rw [Execution.arrive, hs.nested]
    rfl
  | final => rfl

theorem arrive_arrives {m : Machine} (hm : m.WellFormed) {n : String} {t : Transition} {s : Target}
    (ht : t ∈ m.outgoing n) (h : Execution.arrive m t.target = .ok s) : m.Arrives t.target s := by
  obtain ⟨d, hd, -, hout⟩ := Machine.WellFormed.mem_outgoing ht
  have hfound := hm.target d hd t hout
  cases htarget : t.target with
  | final i ancestors =>
    rw [htarget] at h
    cases h
    exact .final
  | state k =>
    rw [htarget] at h
    obtain ⟨k', hk', h⟩ := bind_eq_ok.mp h
    obtain rfl := pure_eq_ok.mp h
    obtain ⟨ns, hns⟩ := follow_settles hm _ (hfound k htarget) hk'
    exact .state hns

/-! ## Big steps -/

/-- A state, and the values of the variables there. -/
structure Configuration where
  state : Target
  env : Env

inductive Machine.BigStep (m : Machine) : Configuration → Configuration → Prop
  | fire {n : String} {ns : List String} {t : Transition} {v w : Env} {s : Target} :
      m.Chain n ns → t ∈ ns.flatMap m.outgoing → t.Enabled v → Assignment.SetsAll t.assignments v w →
      m.Arrives t.target s → BigStep m ⟨.state n, v⟩ ⟨s, w⟩

/-- Exactly so many big steps. -/
inductive Machine.BigSteps (m : Machine) : Nat → Configuration → Configuration → Prop
  | none (c : Configuration) : BigSteps m 0 c c
  | more {k : Nat} {a b c : Configuration} : BigSteps m k a b → m.BigStep b c → BigSteps m (k + 1) a c

/-- Every guard that is looked at in a configuration has a value. -/
def Configuration.Clear (m : Machine) (c : Configuration) : Prop :=
  ∀ n ns, c.state = .state n → m.Chain n ns → GuardsHaveValues c.env (ns.flatMap m.outgoing)

/-- Exactly so many big steps, each from a clear configuration. -/
inductive Machine.ClearSteps (m : Machine) : Nat → Configuration → Configuration → Prop
  | none (c : Configuration) : ClearSteps m 0 c c
  | more {k : Nat} {a b c : Configuration} :
      ClearSteps m k a b → b.Clear m → m.BigStep b c → ClearSteps m (k + 1) a c

theorem Machine.ClearSteps.bigSteps {m : Machine} {k : Nat} {a b : Configuration} (h : m.ClearSteps k a b) :
    m.BigSteps k a b := by
  induction h with
  | none c => exact .none c
  | more _ _ hs ih => exact .more ih hs

/-! ## Where big steps lead -/

/-- A state in which a machine can rest: a simple state or a final pseudo-state. -/
def Machine.Rests (m : Machine) : Target → Prop
  | .state n => ∃ s, m.find? n = some (.simple s)
  | .final _ _ => True

theorem Machine.Settles.rests {m : Machine} {n k : String} {ns : List String} (h : m.Settles n ns k) :
    m.Rests (.state k) := by
  induction h with
  | simple hs => exact ⟨_, hs⟩
  | composite _ _ ih => exact ih

theorem Machine.Arrives.rests {m : Machine} {t s : Target} (h : m.Arrives t s) : m.Rests s := by
  cases h with
  | state hs => exact hs.rests
  | final => trivial

theorem bigStep_rests {m : Machine} {a b : Configuration} (h : m.BigStep a b) : m.Rests b.state := by
  obtain ⟨-, -, -, -, ha⟩ := h
  exact ha.rests

theorem bigSteps_rest {m : Machine} {k : Nat} {a b : Configuration} (ha : m.Rests a.state) (h : m.BigSteps k a b) :
    m.Rests b.state := by
  cases h with
  | none => exact ha
  | more _ hs => exact bigStep_rests hs

end Statechart
