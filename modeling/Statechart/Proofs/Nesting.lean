/-
  Statechart.Proofs.Nesting — which state contains which, and what becomes of it in the
  parents of a machine that is built.

  A composite state holds the states in its own list of states, and contains all that
  stand in that list at any depth. A parent is not the same thing: the builder gives one
  to simple states only.

  Proved (`parent_eq_some_iff`): the parent of a simple state is the composite state that
  holds it. Together with `Machine.WellFormed` this says that the chain of parents of a
  simple state ends with the composite state that holds it, whatever contains that.
-/

import Statechart.Proofs.BigStep

namespace Statechart

/-! ## Containment -/

/-- The name of the state in a place, if there is one. -/
def Member.name? : Member → Option String
  | .simple s => some s.name
  | .composite s _ _ => some s.name
  | .hole => none

mutual

/-- The composite states of a member, each with the list of its states. -/
def Member.composites : Member → List (State × List Member)
  | .simple _ => []
  | .composite s _ ms => (s, ms) :: compositesAll ms
  | .hole => []

def compositesAll : List Member → List (State × List Member)
  | [] => []
  | m :: ms => m.composites ++ compositesAll ms

end

namespace Machine

def composites (m : Machine) : List (State × List Member) := compositesAll m.members

/-- The state `a` has `b` in its list of states. -/
def Holds (m : Machine) (a b : String) : Prop := ∃ c ∈ m.composites, c.1.name = a ∧ b ∈ c.2.filterMap Member.name?

/-- The state `a` has `b` in its list of states, or further down in it. -/
def Contains (m : Machine) (a b : String) : Prop :=
  ∃ c ∈ m.composites, c.1.name = a ∧ b ∈ (declaredAll c.2).map (·.state.name)

instance (m : Machine) (a b : String) : Decidable (m.Holds a b) := inferInstanceAs (Decidable (∃ c ∈ _, _))

instance (m : Machine) (a b : String) : Decidable (m.Contains a b) := inferInstanceAs (Decidable (∃ c ∈ _, _))

end Machine

theorem mem_declaredAll {m : Member} {ms : List Member} {d : Declared} (hm : m ∈ ms) (hd : d ∈ m.declared) :
    d ∈ declaredAll ms := by
  induction ms with
  | nil => cases hm
  | cons k ms ih =>
    rw [declaredAll]
    rcases List.mem_cons.mp hm with rfl | hm
    · exact List.mem_append_left _ hd
    · exact List.mem_append_right _ (ih hm)

mutual

/-- What stands in the list of a composite state is a state of whatever the composite state stands in. -/
theorem Member.composites_subset : ∀ (m : Member) {c : State × List Member}, c ∈ m.composites →
    declaredAll c.2 ⊆ m.declared
  | .simple _, _, h => by cases h
  | .hole, _, h => by cases h
  | .composite s i ms, c, h => by
    rcases List.mem_cons.mp h with rfl | h
    · exact List.subset_cons_self _ _
    · exact fun d hd => List.mem_cons_of_mem _ (compositesAll_subset ms h hd)

theorem compositesAll_subset : ∀ (ms : List Member) {c : State × List Member}, c ∈ compositesAll ms →
    declaredAll c.2 ⊆ declaredAll ms
  | [], _, h => by cases h
  | m :: ms, c, h => by
    rcases List.mem_append.mp h with h | h
    · exact fun d hd => List.mem_append_left _ (m.composites_subset h hd)
    · exact fun d hd => List.mem_append_right _ (compositesAll_subset ms h hd)

end

mutual

/-- A simple state stands at the top or in the list of a composite state. -/
theorem Member.simple_placed : ∀ (m : Member) {s : State}, .simple s ∈ m.declared →
    m = .simple s ∨ ∃ c ∈ m.composites, .simple s ∈ c.2
  | .simple s', s, h => by
    cases List.mem_singleton.mp h
    exact Or.inl rfl
  | .hole, _, h => by cases h
  | .composite s' i ms, s, h => by
    rcases List.mem_cons.mp h with h | h
    · cases h
    · rcases simple_placedAll ms h with h | ⟨c, hc, h⟩
      · exact Or.inr ⟨(s', ms), List.mem_cons_self, h⟩
      · exact Or.inr ⟨c, List.mem_cons_of_mem _ hc, h⟩

theorem simple_placedAll : ∀ (ms : List Member) {s : State}, .simple s ∈ declaredAll ms →
    .simple s ∈ ms ∨ ∃ c ∈ compositesAll ms, .simple s ∈ c.2
  | [], _, h => by cases h
  | m :: ms, s, h => by
    rcases List.mem_append.mp h with h | h
    · rcases m.simple_placed h with rfl | ⟨c, hc, h⟩
      · exact Or.inl List.mem_cons_self
      · exact Or.inr ⟨c, List.mem_append_left _ hc, h⟩
    · rcases simple_placedAll ms h with h | ⟨c, hc, h⟩
      · exact Or.inl (List.mem_cons_of_mem _ h)
      · exact Or.inr ⟨c, List.mem_append_right _ hc, h⟩

end

/-! ## What is built where -/

/-- What building makes sure of for the members it puts inside `around`. -/
structure Builder.Places (b : Builder) (around : List String) (ms : List Member) : Prop where
  simple : ∀ s, .simple s ∈ ms → s.ancestors = around
  inside : ∀ c ∈ compositesAll ms, ∀ s, .simple s ∈ c.2 → s.ancestors = [c.1.name]
  ids : ∀ d ∈ declaredAll ms, d.state.id = .state b.load d.state.name

namespace Builder.Places

variable {b : Builder} {around : List String}

theorem nil : b.Places around [] := by
  refine ⟨fun s hs => ?_, fun c hc => ?_, fun d hd => ?_⟩
  · cases hs
  · cases hc
  · cases hd

theorem cons {m : Member} {ms : List Member} (hm : b.Places around [m]) (hms : b.Places around ms) :
    b.Places around (m :: ms) := by
  have hcomp : compositesAll [m] = m.composites := List.append_nil _
  have hdecl : declaredAll [m] = m.declared := List.append_nil _
  refine ⟨fun s hs => ?_, fun c hc => ?_, fun d hd => ?_⟩
  · rcases List.mem_cons.mp hs with rfl | hs
    · exact hm.simple s List.mem_cons_self
    · exact hms.simple s hs
  · rcases List.mem_append.mp hc with hc | hc
    · exact hm.inside c (hcomp ▸ hc)
    · exact hms.inside c hc
  · rcases List.mem_append.mp hd with hd | hd
    · exact hm.ids d (hdecl ▸ hd)
    · exact hms.ids d hd

theorem hole : b.Places around [.hole] := by
  refine ⟨fun s hs => ?_, fun c hc => ?_, fun d hd => ?_⟩
  · simp at hs
  · simp [compositesAll, Member.composites] at hc
  · simp [declaredAll, Member.declared] at hd

theorem one (name : String) (ts : List Transition) : b.Places around [.simple (b.state name around ts)] := by
  refine ⟨fun s hs => ?_, fun c hc => ?_, fun d hd => ?_⟩
  · cases List.mem_singleton.mp hs
    rfl
  · simp [compositesAll, Member.composites] at hc
  · cases List.mem_singleton.mp hd
    rfl

theorem composite {ms : List Member} (name : String) (i : Option Initial) (ts : List Transition)
    (h : b.Places [name] ms) : b.Places around [.composite (b.state name [] ts) i ms] := by
  refine ⟨fun s hs => ?_, fun c hc => ?_, fun d hd => ?_⟩
  · simp at hs
  · simp only [compositesAll, Member.composites, List.append_nil] at hc
    rcases List.mem_cons.mp hc with rfl | hc
    · exact h.simple
    · exact h.inside c hc
  · simp only [declaredAll, Member.declared, List.append_nil] at hd
    rcases List.mem_cons.mp hd with rfl | hd
    · rfl
    · exact h.ids d hd

end Builder.Places

mutual

theorem member_places (b : Builder) : ∀ (t : Tree) {around : List String} {m : Member},
    b.member around t = .ok m → b.Places around [m]
  | .leaf _, _, _, h => by cases h; exact .hole
  | .fault _, _, _, h => by cases h; exact .hole
  | .node n cs, around, m, h => by
    unfold Builder.member at h
    split at h
    · exact firstMember_places b cs h
    · obtain ⟨tok, -, h⟩ := bind_eq_ok.mp h
      obtain ⟨ts, -, h⟩ := bind_eq_ok.mp h
      obtain rfl := pure_eq_ok.mp h
      exact .one _ _
    · obtain ⟨tok, -, h⟩ := bind_eq_ok.mp h
      obtain ⟨it, -, h⟩ := bind_eq_ok.mp h
      obtain ⟨i, -, h⟩ := bind_eq_ok.mp h
      obtain ⟨ts, -, h⟩ := bind_eq_ok.mp h
      obtain ⟨ms, hms, h⟩ := bind_eq_ok.mp h
      obtain rfl := pure_eq_ok.mp h
      exact .composite _ _ _ (members_place b cs hms)
    · obtain rfl := pure_eq_ok.mp h
      exact .hole

theorem firstMember_places (b : Builder) : ∀ (cs : List Tree) {around : List String} {m : Member},
    b.firstMember around cs = .ok m → b.Places around [m]
  | [], _, _, h => by cases h
  | c :: _, _, _, h => member_places b c h

theorem members_place (b : Builder) : ∀ (cs : List Tree) {around : List String} {ms : List Member},
    b.members around cs = .ok ms → b.Places around ms
  | [], _, _, h => by cases h; exact .nil
  | c :: cs, around, ms, h => by
    unfold Builder.members at h
    split at h
    · obtain ⟨m, hm, h⟩ := bind_eq_ok.mp h
      obtain ⟨ms', hms, h⟩ := bind_eq_ok.mp h
      obtain rfl := pure_eq_ok.mp h
      exact .cons (member_places b c hm) (members_place b cs hms)
    · exact members_place b cs h

end

theorem ofTree_places {load : Nat} {t : Tree} {m : Machine} (h : Machine.ofTree load t = .ok m) :
    ∃ b : Builder, b.load = m.load ∧ b.Places [] m.members := by
  obtain ⟨name, registry, it, i, ms, -, -, -, -, hms, rfl⟩ := ofTree_eq_ok.mp h
  exact ⟨⟨load, registry⟩, rfl, members_place _ t.children hms⟩

theorem ofTree_id {load : Nat} {t : Tree} {m : Machine} (h : Machine.ofTree load t = .ok m) {d : Declared}
    (hd : d ∈ m.declared) : d.state.id = .state m.load d.state.name := by
  obtain ⟨b, hload, hb⟩ := ofTree_places h
  rw [← hload]
  exact hb.ids d hd

/-! ## Parents -/

/-- The parent of a simple state is the state that holds it. -/
theorem parent_eq_some_iff {load : Nat} {t : Tree} {m : Machine} (h : Machine.ofTree load t = .ok m) {k p : String}
    {s : State} (hk : m.find? k = some (.simple s)) : m.parent? k = some p ↔ m.Holds p k := by
  obtain ⟨b, -, hb⟩ := ofTree_places h
  have hwf := ofTree_wellFormed h
  have hmem : .simple s ∈ m.declared := List.mem_of_find?_eq_some hk
  have hname : s.name = k := by simpa [Declared.state] using List.find?_some hk
  have hparent : m.parent? k = s.ancestors.head? := by
    simp [Machine.parent?, Machine.state?, hk, Declared.state, State.parent?]
  rw [hparent]
  constructor
  · intro hp
    rcases simple_placedAll m.members hmem with htop | ⟨c, hc, hin⟩
    · rw [hb.simple s htop] at hp
      cases hp
    · rw [hb.inside c hc s hin] at hp
      cases hp
      exact ⟨c, hc, rfl, List.mem_filterMap.mpr ⟨.simple s, hin, by rw [Member.name?, hname]⟩⟩
  · rintro ⟨c, hc, rfl, hin⟩
    obtain ⟨x, hx, hxk⟩ := List.mem_filterMap.mp hin
    have hsub := compositesAll_subset m.members hc
    -- The state in this place has the name of the simple state, so it is that state.
    cases x with
    | hole => cases hxk
    | composite s' i ms =>
      have hd : .composite s' i ∈ m.declared := hsub (mem_declaredAll hx List.mem_cons_self)
      have hf := hwf.find? hd
      cases hxk
      rw [show (Declared.composite s' i).state.name = s'.name from rfl, hk] at hf
      cases hf
    | simple s' =>
      have hd : .simple s' ∈ m.declared := hsub (mem_declaredAll hx List.mem_cons_self)
      have hf := hwf.find? hd
      cases hxk
      rw [show (Declared.simple s').state.name = s'.name from rfl, hk] at hf
      cases hf
      rw [hb.inside c hc s hx]
      rfl

end Statechart
