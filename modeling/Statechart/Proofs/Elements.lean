/-
  Statechart.Proofs.Elements — the nodes of states, transitions and assignments, in the
  order of the text.

  A machine is built site by site: a state, its transitions, the assignments of each. In a
  tree these are nodes, and other nodes stand between them.
  - `elements_machine`: the nodes of elements, in the order of the text, are those that the
    machine is built from, site by site. That transitions come before the states inside a
    composite state is for the grammar to say (`elements_composite`).
  - `headers_sublist`: the first two tokens of each state and of each transition, and all
    of each assignment, stand in the text in the order of the elements, and no token is
    shared by two of them.
-/

import Statechart.Proofs.Buildable

namespace Statechart

/-! ## Nodes of elements -/

/-- The rules of states, transitions and assignments. -/
def Rule.isElement : Rule → Bool
  | .simple | .composite | .transition | .separated => true
  | _ => false

/-- No element stands below a node of the rule, and it is none. -/
def Rule.bare (r : Rule) : Bool := r.inert && !r.isElement

def Symbol.bare : Symbol → Bool
  | .token _ => true
  | .rule r => r.bare

theorem Rule.bare_production (r : Rule) :
    r.bare = true ∨ r = .separated → mostAll (fun s => !s.bare) r.production = 0 := by
  cases r <;> decide

namespace Tree

variable {n : Node} {t c : Tree} {cs : List Tree} {r : Rule}

/-- The states, transitions and assignments of a tree, in the order of the text: their rules and what stands in
    them. -/
def elements (t : Tree) : List (Rule × List Tree) :=
  (t.nodes.filter fun x => x.1.rule.isElement).map fun x => (x.1.rule, x.2)

theorem elements_node (n : Node) (cs : List Tree) :
    (Tree.node n cs).elements = (if n.rule.isElement then [(n.rule, cs)] else []) ++ cs.flatMap elements := by
  have hbelow (cs : List Tree) : ((nodesOf cs).filter fun x => x.1.rule.isElement).map (fun x => (x.1.rule, x.2)) =
      cs.flatMap elements := by
    induction cs with
    | nil => rfl
    | cons c cs ih =>
      rw [nodesOf, List.filter_append, List.map_append, ih]
      rfl
  rw [elements, nodes, List.filter_cons, ← hbelow]
  split <;> rfl

theorem Faithful.elements_bare (h : t.Faithful) (ht : t.symbol.bare = true) : t.elements = [] := by
  have hd := h.derivation
  induction hd with
  | leaf => rfl
  | @node n cs _ _ ih =>
    have hbare : n.rule.bare = true := ht
    have hno : n.rule.isElement = false := by
      rw [Rule.bare, Bool.and_eq_true] at hbare
      simpa using hbare.2
    rw [elements_node, hno, List.flatMap_eq_nil_iff.mpr, List.append_nil]
    · simp
    · intro c hc
      refine ih c hc (h.child hc) ?_
      simpa using (h.spans rfl).not_mem (n.rule.bare_production (Or.inl hbare)) c hc

/-- Where only children of one rule hold elements, these are all there are. -/
theorem elements_allOf {ps : List Phrase} (hs : Phrase.Spans (.seq ps) cs) (hcs : ∀ c ∈ cs, c.Faithful)
    (hr : mostAll (fun s => !s.bare && s != .rule r) ps = 0) : cs.flatMap elements = (allOf r cs).flatMap elements := by
  have hother : ∀ c ∈ cs, c.hasRule r = false → c.elements = [] := by
    intro c hc hrule
    refine (hcs c hc).elements_bare ?_
    have hnot := hs.not_mem hr c hc
    have hne : c.symbol ≠ .rule r := by
      intro he
      rw [hasRule_iff.mpr he] at hrule
      cases hrule
    simpa [hne] using hnot
  clear hs hcs
  induction cs with
  | nil => rfl
  | cons c cs ih =>
    rw [List.forall_mem_cons] at hother
    rw [allOf, List.filter_cons, List.flatMap_cons, ih hother.2]
    by_cases hc : c.hasRule r = true
    · rw [if_pos hc, List.flatMap_cons]
      rfl
    · rw [if_neg hc, hother.1 (by simpa using hc), List.nil_append]
      rfl

theorem allOf_eq_nil {ps : List Phrase} (hs : Phrase.Spans (.seq ps) cs) (hr : mostAll (· == .rule r) ps = 0) :
    allOf r cs = [] := by
  refine List.filter_eq_nil_iff.mpr ?_
  intro c hc hrule
  exact hs.not_mem hr c hc (beq_iff_eq.mpr (hasRule_iff.mp hrule))

/-- A transition and its assignments. -/
def transitionElements (c : Tree) : List (Rule × List Tree) :=
  (.transition, c.children) :: (allOf .separated c.children).map fun a => (.separated, a.children)

theorem Faithful.elements_transition (h : c.Faithful) (hc : c.hasRule .transition = true) :
    c.elements = c.transitionElements := by
  cases c with
  | leaf _ => cases hc
  | fault _ => cases hc
  | node n cs =>
    have hn : n.rule = .transition := beq_iff_eq.mp hc
    have hone : ∀ a ∈ allOf .separated cs, a.elements = [(.separated, a.children)] := by
      intro a ha
      obtain ⟨hmem, hrule⟩ := List.mem_filter.mp ha
      have hfaithful := h.child hmem
      cases a with
      | leaf _ => cases hrule
      | fault _ => cases hrule
      | node m us =>
        have hm : m.rule = .separated := beq_iff_eq.mp hrule
        rw [elements_node, hm, List.flatMap_eq_nil_iff.mpr]
        · rfl
        · intro d hd
          refine (hfaithful.child hd).elements_bare ?_
          simpa using (hfaithful.spans hm).not_mem (Rule.bare_production .separated (Or.inr rfl)) d hd
    rw [elements_node, hn, elements_allOf (r := .separated) (h.spans hn) (fun c hc => h.child hc) (by decide),
      transitionElements, List.flatMap_congr hone, ← List.map_eq_flatMap]
    rfl

end Tree

/-- A state and its transitions, each with its assignments. -/
def Site.elements (s : Site) : List (Rule × List Tree) :=
  (s.rule, s.children) :: (Tree.allOf .transition s.children).flatMap Tree.transitionElements

namespace Tree

variable {n : Node} {t : Tree} {cs : List Tree} {container : Option String}

/-- Transitions come before the states inside a composite state. -/
theorem Faithful.elements_composite (h : (Tree.node n cs).Faithful) (hn : n.rule = .composite) :
    cs.flatMap elements = (allOf .transition cs).flatMap elements ++ (allOf .state cs).flatMap elements := by
  obtain ⟨us, vs, rfl, hus, hvs⟩ := @Phrase.Spans.split [.token [.composite], .token [.name], .token [.openBrace],
    .star [.rule .transition]] _ _ (h.spans hn)
  have hfaithful := List.forall_mem_append.mp fun c hc => h.child hc
  rw [List.flatMap_append, elements_allOf (r := .transition) hus hfaithful.1 (by decide),
    elements_allOf (r := .state) hvs hfaithful.2 (by decide), allOf, allOf, allOf, allOf, List.filter_append,
    List.filter_append, ← allOf, ← allOf, ← allOf, ← allOf, allOf_eq_nil (r := .transition) hvs (by decide),
    allOf_eq_nil (r := .state) hus (by decide), List.append_nil, List.nil_append]

/-- The elements of a state are those of its sites. -/
theorem Faithful.elements_sites (h : t.Faithful) (ht : t.hasRule .state = true ∨ t.hasRule .simple = true ∨
    t.hasRule .composite = true) : t.elements = (t.sites container).flatMap Site.elements := by
  have hd := h.derivation
  induction hd generalizing container with
  | leaf => simp [hasRule] at ht
  | @node n cs _ _ ih =>
    have htransitions :
        (allOf .transition cs).flatMap elements = (allOf .transition cs).flatMap transitionElements := by
      refine List.flatMap_congr ?_
      intro c hc
      obtain ⟨hmem, hrule⟩ := List.mem_filter.mp hc
      exact (h.child hmem).elements_transition hrule
    simp only [hasRule, beq_iff_eq] at ht
    rcases ht with hn | hn | hn
    · obtain ⟨k, us, rfl, hk⟩ := h.state_inv hn
      have hsub : (Tree.node k us).hasRule .state = true ∨ (Tree.node k us).hasRule .simple = true ∨
          (Tree.node k us).hasRule .composite = true := by
        simp only [hasRule, beq_iff_eq]
        revert hk
        cases k.rule <;> simp [Rule.isState]
      have hfirst : (Tree.node n [.node k us]).sites container = (Tree.node k us).sites container := by
        rw [sites, hn]
        rfl
      rw [elements_node, hn, hfirst, List.flatMap_singleton,
        ih _ List.mem_cons_self (h.child List.mem_cons_self) hsub]
      rfl
    · rw [elements_node, hn, elements_allOf (r := .transition) (h.spans hn) (fun c hc => h.child hc) (by decide),
        htransitions]
      have hsite : (Tree.node n cs).sites container = [⟨container, .simple, cs⟩] := by rw [sites, hn]
      rw [hsite, List.flatMap_singleton]
      rfl
    · have hsites : (Tree.node n cs).sites container = ⟨container, .composite, cs⟩ :: sitesAmong (nameOf? cs) cs := by
        rw [sites, hn]
      have hstates : (allOf .state cs).flatMap elements = (sitesAmong (nameOf? cs) cs).flatMap Site.elements := by
        rw [sitesAmong_eq, List.flatMap_assoc]
        refine List.flatMap_congr ?_
        intro c hc
        obtain ⟨hmem, hrule⟩ := List.mem_filter.mp hc
        exact ih c hmem (h.child hmem) (Or.inl hrule)
      rw [elements_node, hn, h.elements_composite hn, htransitions, hstates, hsites, List.flatMap_cons,
        ← List.append_assoc]
      rfl

/-- The elements of a machine are those of its sites. -/
theorem Faithful.elements_machine (h : (Tree.node n cs).Faithful) (hn : n.rule = .machine) :
    (Tree.node n cs).elements = (sitesAmong none cs).flatMap Site.elements := by
  rw [elements_node, hn, elements_allOf (r := .state) (h.spans hn) (fun c hc => h.child hc) (by decide), sitesAmong_eq,
    List.flatMap_assoc]
  refine List.flatMap_congr ?_
  intro c hc
  obtain ⟨hmem, hrule⟩ := List.mem_filter.mp hc
  exact (h.child hmem).elements_sites (Or.inl hrule)

end Tree

/-! ## Headers -/

/-- The tokens that the range of an element goes over. -/
def header (x : Rule × List Tree) : List Token :=
  match x.1 with
  | .simple | .composite | .transition => (Tree.tokensOf x.2).take 2
  | .separated => Tree.tokensOf x.2
  | _ => []

theorem Phrase.Spans.two_tokens {ks ls : List Kind} {ps : List Phrase} {cs : List Tree}
    (h : Spans (.seq (.token ks :: .token ls :: ps)) cs) :
    ∃ s t us, cs = .leaf s :: .leaf t :: us ∧ s.kind ∈ ks ∧ t.kind ∈ ls := by
  cases h with
  | cons hs h =>
    cases h with
    | cons ht _ =>
      obtain ⟨s, rfl, hsk⟩ := hs.token_inv
      obtain ⟨t, rfl, htk⟩ := ht.token_inv
      exact ⟨s, t, _, rfl, hsk, htk⟩

namespace Tree

variable {n : Node} {t : Tree} {cs : List Tree}

theorem headers_among (h : ∀ c ∈ cs, (c.elements.flatMap header).Sublist c.tokens) :
    ((cs.flatMap elements).flatMap header).Sublist (tokensOf cs) := by
  induction cs with
  | nil => exact List.Sublist.refl _
  | cons c cs ih =>
    rw [List.forall_mem_cons] at h
    rw [List.flatMap_cons, List.flatMap_append, tokensOf]
    exact h.1.append (ih h.2)

/-- Behind two tokens in front. -/
theorem headers_behind_two {s u : Token} {us : List Tree} (hrule : header (n.rule, cs) = (tokensOf cs).take 2)
    (hcs : cs = .leaf s :: .leaf u :: us) (h : ∀ c ∈ cs, (c.elements.flatMap header).Sublist c.tokens) :
    (header (n.rule, cs) ++ (cs.flatMap elements).flatMap header).Sublist (tokensOf cs) := by
  rw [hrule, hcs]
  rw [hcs, List.forall_mem_cons, List.forall_mem_cons] at h
  exact ((headers_among h.2.2).cons_cons u).cons_cons s

/-- The tokens of the elements stand in the text in the order of the elements, none of them in two. -/
theorem Faithful.headers_sublist (h : t.Faithful) : (t.elements.flatMap header).Sublist t.tokens := by
  have hd := h.derivation
  induction hd with
  | leaf => exact List.nil_sublist _
  | @node n cs _ _ ih =>
    have hcs : ∀ c ∈ cs, (c.elements.flatMap header).Sublist c.tokens := fun c hc => ih c hc (h.child hc)
    rw [elements_node, List.flatMap_append]
    have htwo {ks ls : List Kind} {ps : List Phrase} (hel : n.rule.isElement = true)
        (hhead : header (n.rule, cs) = (tokensOf cs).take 2)
        (hs : Phrase.Spans (.seq (.token ks :: .token ls :: ps)) cs) :
        ((if n.rule.isElement then [(n.rule, cs)] else []).flatMap header ++
          (cs.flatMap elements).flatMap header).Sublist (tokensOf cs) := by
      obtain ⟨s, u, us, hsplit, -, -⟩ := hs.two_tokens
      rw [if_pos hel, List.flatMap_singleton]
      exact headers_behind_two hhead hsplit hcs
    by_cases hel : n.rule.isElement = true
    · cases hrule : n.rule with
      | simple => exact hrule ▸ htwo hel (by rw [hrule, header]) (h.spans hrule)
      | composite => exact hrule ▸ htwo hel (by rw [hrule, header]) (h.spans hrule)
      | transition => exact hrule ▸ htwo hel (by rw [hrule, header]) (h.spans hrule)
      | separated =>
        -- an assignment is in its range whole
        have hnone : cs.flatMap elements = [] := by
          refine List.flatMap_eq_nil_iff.mpr ?_
          intro c hc
          refine (h.child hc).elements_bare ?_
          simpa using (h.spans hrule).not_mem (Rule.bare_production .separated (Or.inr rfl)) c hc
        rw [hnone]
        simp [Rule.isElement, header, tokens]
      | _ =>
        rw [hrule] at hel
        cases hel
    · rw [if_neg hel]
      exact headers_among hcs

end Tree

end Statechart
