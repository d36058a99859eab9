/-
  Statechart.Proofs.Arrivals — every transition is listed at both of its ends.

  A machine is built by entering its transitions into lists, each behind those that its
  source and its target have already; a final pseudo-state has such a list too.
  - `ofTree_incoming`: what is listed at a target in the end, in which order.
  - `nodup_enterAll`: a target has one list, however many transitions are entered.
  - `transition_ids`: no transition is met twice, so it stands once in each list.
  - `held`: the states of a machine, each with the state whose list it stands in.
    Building sets a state down there where its declaration stands (`members_held`), and
    no state stands in two lists (`held_iff`).

  Proved (`listed_at_both_ends`): the transitions that leave a state are those written in
  its declaration, in their order; each that leads to a state is listed there once, and
  nothing else is; each that leads to FINAL has a final pseudo-state to itself, whose
  parent is the state around the declaration.
-/

import Statechart.Proofs.Shown

namespace Statechart

/-! ## Lists that have grown -/

namespace Lists

variable {α : Type} [DecidableEq α]

theorem mem_keys_enter {l : Lists α} {k j : α} {e : Transition} (h : j ∈ (l.enter k e).map (·.1)) :
    j = k ∨ j ∈ l.map (·.1) := by
  induction l with
  | nil => exact Or.inl (List.mem_singleton.mp h)
  | cons x l ih =>
    rw [enter] at h
    split at h
    · exact Or.inr h
    · rcases List.mem_cons.mp h with rfl | h
      · exact Or.inr List.mem_cons_self
      · exact (ih h).imp_right (List.mem_cons_of_mem _)

theorem nodup_enter {l : Lists α} (hl : (l.map (·.1)).Nodup) (k : α) (e : Transition) :
    ((l.enter k e).map (·.1)).Nodup := by
  induction l with
  | nil => exact List.nodup_singleton k
  | cons x l ih =>
    rw [List.map_cons, List.nodup_cons] at hl
    rw [enter]
    split
    · exact List.nodup_cons.mpr hl
    · rename_i hk
      refine List.nodup_cons.mpr ⟨?_, ih hl.2⟩
      intro hmem
      exact (mem_keys_enter hmem).elim hk hl.1

end Lists

theorem Links.nodup_enterAll {l : Links} (hl : (l.incoming.map (·.1)).Nodup) (es : List Transition) :
    ((l.enterAll es).incoming.map (·.1)).Nodup := by
  induction es generalizing l with
  | nil => exact hl
  | cons e es ih => exact ih (Lists.nodup_enter hl e.target e)

section Built

variable {load : Nat} {t : Tree} {m : Machine}

/-- What is listed at a target are the transitions that lead to it, in the order of the states that they leave. -/
theorem ofTree_incoming (h : Machine.ofTree load t = .ok m) (x : Target) :
    m.incoming.under x = m.transitions.filter fun e => e.target = x := by
  obtain ⟨_, _, _, _, ms, -, -, -, -, -, rfl⟩ := ofTree_eq_ok.mp h
  exact Links.enterAll_incoming .empty (departures (declaredAll ms)) x

theorem ofTree_keys (h : Machine.ofTree load t = .ok m) : (m.incoming.map (·.1)).Nodup := by
  obtain ⟨_, _, _, _, ms, -, -, -, -, -, rfl⟩ := ofTree_eq_ok.mp h
  exact Links.nodup_enterAll (l := .empty) List.nodup_nil (departures (declaredAll ms))

end Built

namespace Machine

variable {m : Machine}

namespace WellFormed

theorem mem_outgoing_iff (h : m.WellFormed) {d : Declared} (hd : d ∈ m.declared) {e : Transition} :
    e ∈ m.outgoing d.state.name ↔ e ∈ d.state.outgoing := by
  simp [outgoing, state?, h.find? hd]

theorem transition_ids (h : m.WellFormed) : (m.transitions.map (·.id)).Nodup := by
  rw [transitions, List.map_flatMap, List.nodup_flatMap]
  refine ⟨h.ids, ?_⟩
  have hdistinct := h.distinct
  rw [List.Nodup, List.pairwise_map] at hdistinct
  refine hdistinct.imp_of_mem ?_
  intro d d' hd hd' hne x hx hx'
  obtain ⟨e, he, rfl⟩ := List.mem_map.mp hx
  obtain ⟨e', he', heq⟩ := List.mem_map.mp hx'
  obtain ⟨i, hi⟩ := h.marked d hd e he
  obtain ⟨j, hj⟩ := h.marked d' hd' e' he'
  rw [hi, hj] at heq
  injection heq with _ hname
  exact hne hname.symm

/-- Transitions with one identifier are one transition. -/
theorem transition_eq (h : m.WellFormed) {e e' : Transition} (he : e ∈ m.transitions) (he' : e' ∈ m.transitions)
    (hid : e.id = e'.id) : e = e' := List.inj_on_of_nodup_map h.transition_ids he he' hid

end WellFormed

theorem mem_transitions {e : Transition} : e ∈ m.transitions ↔ ∃ d ∈ m.declared, e ∈ d.state.outgoing := by
  simp [transitions]

end Machine

/-! ## Which list a state stands in -/

mutual

/-- The states of a member, each with the state whose list it stands in. -/
def Member.held (container : Option String) : Member → List (Option String × String)
  | .simple s => [(container, s.name)]
  | .composite s _ ms => (container, s.name) :: heldAll (some s.name) ms
  | .hole => []

def heldAll (container : Option String) : List Member → List (Option String × String)
  | [] => []
  | m :: ms => m.held container ++ heldAll container ms

end

mutual

theorem Member.held_names : ∀ (m : Member) (container : Option String),
    (m.held container).map (·.2) = m.declared.map (·.state.name)
  | .simple _, _ => rfl
  | .hole, _ => rfl
  | .composite s _ ms, _ => by
    simp only [Member.held, Member.declared, List.map_cons, heldAll_names ms]
    rfl

theorem heldAll_names : ∀ (ms : List Member) (container : Option String),
    (heldAll container ms).map (·.2) = (declaredAll ms).map (·.state.name)
  | [], _ => rfl
  | m :: ms, container => by
    simp only [heldAll, declaredAll, List.map_append, m.held_names, heldAll_names ms]

end

/-- Where a state stands in lists of states that stand inside `container`. -/
def Standing (container : Option String) (names : List String) (cs : List (State × List Member))
    (x : Option String × String) : Prop :=
  x.1 = container ∧ x.2 ∈ names ∨ ∃ c ∈ cs, x.1 = some c.1.name ∧ x.2 ∈ c.2.filterMap Member.name?

mutual

theorem Member.mem_held : ∀ (m : Member) {container : Option String} {x : Option String × String},
    x ∈ m.held container ↔ Standing container m.name?.toList m.composites x
  | .simple s, container, x => by simp [Member.held, Standing, Member.name?, Member.composites, Prod.ext_iff]
  | .hole, container, x => by simp [Member.held, Standing, Member.name?, Member.composites]
  | .composite s i ms, container, x => by
    rw [Member.held, List.mem_cons, mem_heldAll ms, Standing, Standing, Member.composites, List.exists_mem_cons_iff,
      Prod.ext_iff]
    simp only [Member.name?, Option.toList_some, List.mem_singleton]

theorem mem_heldAll : ∀ (ms : List Member) {container : Option String} {x : Option String × String},
    x ∈ heldAll container ms ↔ Standing container (ms.filterMap Member.name?) (compositesAll ms) x
  | [], container, x => by simp [heldAll, Standing, compositesAll]
  | m :: ms, container, x => by
    have hm : x ∈ m.held container ↔ _ := m.mem_held
    have hms : x ∈ heldAll container ms ↔ _ := mem_heldAll ms
    have hnames : (m :: ms).filterMap Member.name? = m.name?.toList ++ ms.filterMap Member.name? := by
      cases hn : m.name? <;> simp [hn]
    simp only [Standing] at hm hms
    simp only [heldAll, List.mem_append, hm, hms, Standing, hnames, compositesAll]
    constructor
    · rintro ((⟨hc, hx⟩ | ⟨c, hc, hx⟩) | (⟨hc, hx⟩ | ⟨c, hc, hx⟩))
      · exact Or.inl ⟨hc, Or.inl hx⟩
      · exact Or.inr ⟨c, Or.inl hc, hx⟩
      · exact Or.inl ⟨hc, Or.inr hx⟩
      · exact Or.inr ⟨c, Or.inr hc, hx⟩
    · rintro (⟨hc, hx | hx⟩ | ⟨c, hc | hc, hx⟩)
      · exact Or.inl (Or.inl ⟨hc, hx⟩)
      · exact Or.inr (Or.inl ⟨hc, hx⟩)
      · exact Or.inl (Or.inr ⟨c, hc, hx⟩)
      · exact Or.inr (Or.inr ⟨c, hc, hx⟩)

end

namespace Builder

variable {b : Builder}

/-- A site and its state, in the list that it stands in. -/
def Holder (s : Site) (x : Option String × String) : Prop := s.container = x.1 ∧ s.name? = some x.2

mutual

theorem member_held : ∀ (t : Tree) {container : Option String} {m : Member}, b.member container.toList t = .ok m →
    List.Forall₂ Holder (t.sites container) (m.held container)
  | .leaf _, _, _, h => by cases h; exact .nil
  | .fault _, _, _, h => by cases h; exact .nil
  | .node n cs, container, m, h => by
    unfold member at h
    unfold Tree.sites
    cases hrule : n.rule with
    | state =>
      rw [hrule] at h
      exact firstMember_held cs h
    | simple =>
      rw [hrule] at h
      obtain ⟨tok, ht, h⟩ := bind_eq_ok.mp h
      obtain ⟨ts, -, h⟩ := bind_eq_ok.mp h
      obtain rfl := pure_eq_ok.mp h
      exact .cons ⟨rfl, need_name_eq_ok ht⟩ .nil
    | composite =>
      rw [hrule] at h
      obtain ⟨tok, ht, h⟩ := bind_eq_ok.mp h
      obtain ⟨it, -, h⟩ := bind_eq_ok.mp h
      obtain ⟨i, -, h⟩ := bind_eq_ok.mp h
      obtain ⟨ts, -, h⟩ := bind_eq_ok.mp h
      obtain ⟨ms, hms, h⟩ := bind_eq_ok.mp h
      obtain rfl := pure_eq_ok.mp h
      refine .cons ⟨rfl, need_name_eq_ok ht⟩ ?_
      rw [need_name_eq_ok ht]
      exact members_held cs hms
    | _ =>
      rw [hrule] at h
      obtain rfl := pure_eq_ok.mp h
      exact .nil

theorem firstMember_held : ∀ (cs : List Tree) {container : Option String} {m : Member},
    b.firstMember container.toList cs = .ok m → List.Forall₂ Holder (firstSites container cs) (m.held container)
  | [], _, _, h => by cases h
  | c :: _, _, _, h => member_held c h

/-- A state stands in the list of the state that its declaration stands in. -/
theorem members_held : ∀ (cs : List Tree) {container : Option String} {ms : List Member},
    b.members container.toList cs = .ok ms → List.Forall₂ Holder (sitesAmong container cs) (heldAll container ms)
  | [], _, _, h => by cases h; exact .nil
  | c :: cs, container, ms, h => by
    unfold members at h
    unfold sitesAmong
    split at h
    · rename_i hc
      rw [if_pos hc]
      obtain ⟨m, hm, h⟩ := bind_eq_ok.mp h
      obtain ⟨ms', hms, h⟩ := bind_eq_ok.mp h
      obtain rfl := pure_eq_ok.mp h
      exact List.rel_append (member_held c hm) (members_held cs hms)
    · rename_i hc
      rw [if_neg hc]
      exact members_held cs h

end

end Builder

namespace Machine

variable {m : Machine}

/-- A state stands in one list only. -/
theorem WellFormed.held_iff (h : m.WellFormed) {q : Option String} {n : String} (hq : (q, n) ∈ heldAll none m.members)
    (p : String) : q = some p ↔ m.Holds p n := by
  have hheld (p : String) : m.Holds p n ↔ (some p, n) ∈ heldAll none m.members := by
    rw [mem_heldAll, Standing, Holds]
    simp [composites, eq_comm]
  rw [hheld]
  constructor
  · intro hp
    exact hp ▸ hq
  · intro hp
    have hnodup : ((heldAll none m.members).map (·.2)).Nodup := by
      rw [heldAll_names]
      exact h.distinct
    exact congrArg Prod.fst (List.inj_on_of_nodup_map hnodup hq hp rfl)

end Machine

/-! ## Transitions as they are written -/

/-- A target as it is written. -/
def Target.written : Target → String
  | .state n => n
  | .final _ _ => "FINAL"

/-- The transition that a node stands for. -/
structure Tree.Writes (c : Tree) (e : Transition) : Prop where
  arrow : ∃ arrow, tokenOf? .arrow c.children = some arrow ∧ e.location.line = arrow.line ∧
    e.location.column = arrow.column + 1
  target : c.target? = some e.target.written
  trigger : ∃ x, c.trigger? = some x ∧ e.trigger = unquoted x
  guard : ∃ id, (firstOf? .guard c.children).mapM (Guard.ofTree id) = .ok e.guard
  assignments : List.Forall₂ (fun c a => Assignment.ofTree a.id c = .ok a) (allOf .separated c.children) e.assignments

namespace Builder

variable {b : Builder} {source : String} {around : List String}

theorem assignments_written {i : Nat} {cs : List Tree} {as : List Assignment} (h : b.assignments source i cs = .ok as) :
    List.Forall₂ (fun c a => Assignment.ofTree a.id c = .ok a) (Tree.allOf .separated cs) as := by
  rw [← List.zipIdx_map_fst 0 (Tree.allOf .separated cs), List.forall₂_map_left_iff]
  refine (mapM_eq_ok h).imp ?_
  intro c a hc
  rw [assignment_id hc]
  exact hc

/-- How the `i`-th transition of a state comes from its node. -/
structure Departs (b : Builder) (source : String) (around : List String) (i : Nat) (c : Tree) (e : Transition) :
    Prop where
  written : c.Writes e
  id : e.id = .transition b.load source i
  /-- A final pseudo-state is made for the transition that leads to it, inside what the source stands in. -/
  final : ∀ id ancestors, e.target = .final id ancestors → id = .final b.load source i ∧ ancestors = around

theorem target_final {i : Nat} {name : String} {id : Id} {ancestors : List String}
    (h : b.target source i around name = .ok (.final id ancestors)) :
    id = .final b.load source i ∧ ancestors = around := by
  unfold target at h
  split at h
  · cases h
    exact ⟨rfl, rfl⟩
  · split at h <;> cases h

theorem transition_departs {i : Nat} {n : Node} {cs : List Tree} {e : Transition}
    (h : b.transition source around i n cs = .ok e) : b.Departs source around i (.node n cs) e := by
  have hid := (transition_leaves h).id
  unfold transition at h
  obtain ⟨arrow, harrow, h⟩ := bind_eq_ok.mp h
  obtain ⟨guard, hguard, h⟩ := bind_eq_ok.mp h
  obtain ⟨as, has, h⟩ := bind_eq_ok.mp h
  obtain ⟨head, hhead, h⟩ := bind_eq_ok.mp h
  obtain ⟨trigger, htrigger, h⟩ := bind_eq_ok.mp h
  obtain ⟨target, htarget, h⟩ := bind_eq_ok.mp h
  obtain rfl := pure_eq_ok.mp h
  refine ⟨⟨⟨arrow, need_eq_ok.mp harrow, rfl, rfl⟩, ?_, ⟨trigger.text, ?_, rfl⟩, ⟨_, hguard⟩,
    assignments_written has⟩, hid, ?_⟩
  · rw [Tree.target?, need_eq_ok.mp hhead]
    rcases target_inv htarget with ⟨hf, hfinal⟩ | ⟨-, rfl, -⟩
    · cases target with
      | state n => cases hfinal
      | final i around => exact congrArg some hf
    · rfl
  · rw [Tree.trigger?, need_eq_ok.mp htrigger]
    rfl
  · intro id ancestors heq
    obtain rfl : target = .final id ancestors := heq
    exact target_final htarget

theorem transitions_depart {cs : List Tree} {es : List Transition} (h : b.transitions source around cs = .ok es) :
    List.Forall₂ (fun c e => b.Departs source around c.2 c.1 e) (Tree.allOf .transition cs).zipIdx es := by
  refine (mapM_eq_ok h).imp ?_
  intro c e hc
  obtain ⟨c, i⟩ := c
  cases c with
  | node n cs => exact transition_departs hc
  | leaf _ => cases hc
  | fault _ => cases hc

theorem Builds.depart {s : Site} {d : Declared} (h : b.Builds s d) :
    List.Forall₂ (fun c e => b.Departs d.state.name s.container.toList c.2 c.1 e)
      (Tree.allOf .transition s.children).zipIdx d.state.outgoing := by
  cases h with
  | simple _ hts => exact transitions_depart hts
  | composite _ _ _ hts => exact transitions_depart hts

theorem Builds.written {s : Site} {d : Declared} (h : b.Builds s d) :
    List.Forall₂ Tree.Writes (Tree.allOf .transition s.children) d.state.outgoing := by
  rw [← List.zipIdx_map_fst 0 (Tree.allOf .transition s.children), List.forall₂_map_left_iff]
  exact h.depart.imp fun c e hc => hc.written

theorem Builds.departs {s : Site} {d : Declared} (h : b.Builds s d) {e : Transition} (he : e ∈ d.state.outgoing) :
    ∃ i c, b.Departs d.state.name s.container.toList i c e := by
  obtain ⟨c, -, hc⟩ := exists_of_forall₂ h.depart e he
  exact ⟨c.2, c.1, hc⟩

end Builder

/-! ## Both ends -/

/-- The transitions of a machine are listed at both of their ends, as the tree has them. -/
structure Machine.Linked (m : Machine) (t : Tree) : Prop where
  /-- A transition leaves the state that it is listed under. -/
  source : ∀ d ∈ m.declared, ∀ e ∈ d.state.outgoing, e.source = d.state.name
  /-- A state is left by the transitions of its declaration, in the order of the text. -/
  written : List.Forall₂ (fun s d => s.name? = some d.state.name ∧
    List.Forall₂ Tree.Writes (Tree.allOf .transition s.children) d.state.outgoing) (sitesAmong none t.children)
    m.declared
  /-- A state or a final pseudo-state has one list of what leads to it. -/
  single : (m.incoming.map (·.1)).Nodup
  /-- A transition to a state is listed there, once. -/
  arrives : ∀ d ∈ m.declared, ∀ e ∈ d.state.outgoing, ∀ n, e.target = .state n →
    n ∈ m.declared.map (·.state.name) ∧ e ∈ m.incoming.under (.state n) ∧
    ((m.incoming.under (.state n)).map (·.id)).count e.id = 1
  /-- What is listed as leading to a state or a final pseudo-state does so, and is listed where it comes from. -/
  leaves : ∀ x, ∀ e ∈ m.incoming.under x, e.target = x ∧ e.source ∈ m.declared.map (·.state.name) ∧
    e ∈ m.outgoing e.source
  /-- A transition to FINAL has a final pseudo-state to itself: its list is this transition, no other leads to it, and
      its parent is the state that holds the source. -/
  final : ∀ d ∈ m.declared, ∀ e ∈ d.state.outgoing, ∀ id ancestors, e.target = .final id ancestors →
    m.incoming.under e.target = [e] ∧
    (∀ e' ∈ m.transitions, ∀ ancestors', e'.target = .final id ancestors' → e' = e) ∧
    ∀ p, ancestors.head? = some p ↔ m.Holds p d.state.name

section Linked

variable {load : Nat} {t : Tree} {m : Machine}

theorem final_unshared (h : Machine.ofTree load t = .ok m) {e e' : Transition} (he : e ∈ m.transitions)
    (he' : e' ∈ m.transitions) {id : Id} {as as' : List String} (ht : e.target = .final id as)
    (ht' : e'.target = .final id as') : e' = e := by
  obtain ⟨b, -, -, -, hms, -⟩ := ofTree_inv h
  have hown {e : Transition} (he : e ∈ m.transitions) {as : List String} (ht : e.target = .final id as) :
      ∃ source i, id = .final b.load source i ∧ e.id = .transition b.load source i := by
    obtain ⟨d, hd, hout⟩ := Machine.mem_transitions.mp he
    obtain ⟨s, -, hs⟩ := exists_of_forall₂ (declared_sites hms) d hd
    obtain ⟨i, c, hc⟩ := hs.departs hout
    exact ⟨d.state.name, i, (hc.final id as ht).1, hc.id⟩
  obtain ⟨source, i, hid, hi⟩ := hown he ht
  obtain ⟨source', i', hid', hi'⟩ := hown he' ht'
  rw [hid] at hid'
  injection hid' with _ hsource hindex
  exact (ofTree_wellFormed h).transition_eq he' he (by rw [hi, hi', hsource, hindex])

theorem final_parent (h : Machine.ofTree load t = .ok m) {d : Declared} (hd : d ∈ m.declared) {e : Transition}
    (he : e ∈ d.state.outgoing) {id : Id} {as : List String} (ht : e.target = .final id as) (p : String) :
    as.head? = some p ↔ m.Holds p d.state.name := by
  obtain ⟨b, -, -, -, hms, -⟩ := ofTree_inv h
  have hwf := ofTree_wellFormed h
  obtain ⟨s, hsite, hs⟩ := exists_of_forall₂ (declared_sites hms) d hd
  obtain ⟨i, c, hc⟩ := hs.departs he
  have hheld : (s.container, d.state.name) ∈ heldAll none m.members := by
    obtain ⟨x, hx, hholder⟩ := exists_of_forall₂ (@Builder.members_held b t.children none _ hms).flip s hsite
    rw [hholder.1, Option.some_inj.mp (hs.name.symm.trans hholder.2)]
    exact hx
  rw [← hwf.held_iff hheld p, (hc.final id as ht).2]
  cases s.container <;> simp

/-- The transitions of every machine that is built are listed at both of their ends. -/
theorem Machine.listed_at_both_ends (h : Machine.ofTree load t = .ok m) : m.Linked t := by
  obtain ⟨b, -, -, -, hms, -⟩ := ofTree_inv h
  have hwf := ofTree_wellFormed h
  refine ⟨hwf.source, ?_, ofTree_keys h, ?_, ?_, ?_⟩
  · exact (declared_sites hms).imp fun s d hs => ⟨hs.name, hs.written⟩
  · intro d hd e he n hn
    rw [ofTree_incoming h]
    have hmem : e ∈ m.transitions.filter fun e => e.target = .state n :=
      List.mem_filter.mpr ⟨mem_transitions.mpr ⟨d, hd, he⟩, decide_eq_true hn⟩
    refine ⟨Machine.find?_isSome.mp (hwf.target d hd e he n hn), hmem, ?_⟩
    refine List.count_eq_one_of_mem ?_ (List.mem_map_of_mem hmem)
    exact hwf.transition_ids.sublist (List.filter_sublist.map _)
  · intro x e he
    rw [ofTree_incoming h] at he
    obtain ⟨hmem, htarget⟩ := List.mem_filter.mp he
    obtain ⟨d, hd, hout⟩ := mem_transitions.mp hmem
    rw [hwf.source d hd e hout]
    exact ⟨of_decide_eq_true htarget, List.mem_map_of_mem hd, (hwf.mem_outgoing_iff hd).mpr hout⟩
  · intro d hd e he id ancestors htarget
    have hmem : e ∈ m.transitions := mem_transitions.mpr ⟨d, hd, he⟩
    refine ⟨?_, fun e' he' as' ht' => final_unshared h hmem he' htarget ht', final_parent h hd he htarget⟩
    rw [ofTree_incoming h]
    refine filter_eq_singleton hwf.transition_ids hmem (by simp) ?_
    intro e' he' hsame
    exact final_unshared h hmem he' htarget (of_decide_eq_true hsame ▸ htarget)

end Linked

namespace Dock

/-- A way in and out of a yard, with a final state beside the yard and one in it. -/
def text : String :=
  r"StateMachine Dock{INITIAL->Out;" ++
  r"state Out{->Bay:'in';->FINAL:'end';->Bay:'back';}" ++
  r"composite state Yard{->Out:'go';INITIAL->Bay;" ++
  r"composite state Bay{->FINAL:'sink';INITIAL->Slip;state Slip{->Bay:'out';}}}}"

/-- The states, each with where its incoming transitions come from and the triggers of its outgoing ones. -/
def listing (m : Machine) : List (String × List String × List String) :=
  m.declared.map fun d =>
    (d.state.name, (m.incoming.under (.state d.state.name)).map (·.source), (m.outgoing d.state.name).map (·.trigger))

/-- The final pseudo-states, each with what it stands in and the triggers of what leads to it. -/
def sinks (m : Machine) : List (List String × List String) :=
  m.incoming.filterMap fun x =>
    match x.1 with
    | .final _ ancestors => some (ancestors, x.2.map (·.trigger))
    | .state _ => none

theorem listing_text : (Machine.ofTree 0 (parse .machine text).tree).toOption.map (fun m => (listing m, sinks m)) =
    some ([("Out", ["Yard"], ["in", "end", "back"]), ("Yard", [], ["go"]), ("Bay", ["Out", "Out", "Slip"], ["sink"]),
      ("Slip", [], ["out"])], [([], ["end"]), (["Yard"], ["sink"])]) := by
  decide +kernel

end Dock

/-- Two transitions of one state lead to the bay, the final state behind the bay stands in the yard. -/
theorem Machine.dock_listed_at_both_ends :
    ∃ m, Machine.ofTree 0 (parse .machine Dock.text).tree = .ok m ∧ m.Linked (parse .machine Dock.text).tree ∧
      Dock.listing m = [("Out", ["Yard"], ["in", "end", "back"]), ("Yard", [], ["go"]),
        ("Bay", ["Out", "Out", "Slip"], ["sink"]), ("Slip", [], ["out"])] ∧
      Dock.sinks m = [([], ["end"]), (["Yard"], ["sink"])] := by
  obtain ⟨m, hm, heq⟩ := Option.map_eq_some_iff.mp Dock.listing_text
  obtain ⟨hlisting, hsinks⟩ := Prod.mk.inj heq
  exact ⟨m, eq_ok_of_toOption hm, listed_at_both_ends (eq_ok_of_toOption hm), hlisting, hsinks⟩

end Statechart
