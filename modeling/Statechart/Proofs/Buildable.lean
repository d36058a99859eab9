/-
  Statechart.Proofs.Buildable — exactly the well-formed programs are built into machines.

  What a well-formed program is, is said of the nodes of its tree, wherever they stand
  (`Tree.Buildable`): the names of all states are distinct, initial sections and
  transitions lead to states with such names, or to FINAL, and every composite state has
  an initial section. The builder goes other ways: it declares and builds the sites of
  the tree, and looks for initial sections and transitions below each of them.
  - `sites_places`: the sites are the nodes of states, in the order of the text.
  - `mem_nodes_iff_below`: initial sections and transitions stand below the root and the
    nodes of states, and nowhere else.
  - `declareAll_cases`: the sites are declared one after the other, up to the first
    name that was declared before.

  Proved (`built_iff_well_formed`): a tree that is read without syntax errors is built if
  and only if it is well-formed; where two states have one name it is refused for the
  first name that comes again; and what is built can be shown.
-/

import Statechart.Proofs.Anatomy
import Statechart.Proofs.Registration

namespace Statechart

/-! ## Well-formed programs -/

def Rule.isState : Rule → Bool
  | .simple | .composite => true
  | _ => false

namespace Tree

/-- The children of each node of a rule, in the order of the text. -/
def childrenOf (r : Rule) (t : Tree) : List (List Tree) := (t.nodes.filter fun x => x.1.rule == r).map (·.2)

/-- The names of all states, simple and composite and at all levels, in the order of the text. -/
def stateNames (t : Tree) : List String :=
  (t.nodes.filter fun x => x.1.rule.isState).filterMap fun x => nameOf? x.2

/-- Where the nodes of a rule lead. -/
def targetsOf (r : Rule) (t : Tree) : List String := (t.childrenOf r).filterMap targetOf?

structure Buildable (t : Tree) : Prop where
  distinct : t.stateNames.Nodup
  initials : ∀ x ∈ t.targetsOf .initial, x ∈ t.stateNames
  transitions : ∀ x ∈ t.targetsOf .transition, x ≠ "FINAL" → x ∈ t.stateNames
  started : ∀ cs ∈ t.childrenOf .composite, (firstOf? .initial cs).isSome = true

instance (t : Tree) : Decidable t.Buildable :=
  decidable_of_iff (t.stateNames.Nodup ∧ (∀ x ∈ t.targetsOf .initial, x ∈ t.stateNames) ∧
      (∀ x ∈ t.targetsOf .transition, x ≠ "FINAL" → x ∈ t.stateNames) ∧
      ∀ cs ∈ t.childrenOf .composite, (firstOf? .initial cs).isSome = true)
    ⟨fun ⟨h₁, h₂, h₃, h₄⟩ => ⟨h₁, h₂, h₃, h₄⟩, fun ⟨h₁, h₂, h₃, h₄⟩ => ⟨h₁, h₂, h₃, h₄⟩⟩

end Tree

/-! ## Nodes and the nodes below them -/

namespace Tree

variable {n : Node} {t c : Tree} {cs : List Tree} {x y : Node × List Tree}

/-- A node is the first, or it is a child of another. -/
theorem IsDerivation.parent (h : t.IsDerivation) (hx : x ∈ t.nodes) :
    t = .node x.1 x.2 ∨ ∃ y ∈ t.nodes, .node x.1 x.2 ∈ y.2 := by
  induction h with
  | leaf => cases hx
  | @node n cs _ _ ih =>
    rcases List.mem_cons.mp hx with rfl | hx
    · exact Or.inl rfl
    · obtain ⟨c, hc, hx⟩ := mem_nodesOf.mp hx
      rcases ih c hc hx with rfl | ⟨y, hy, hmem⟩
      · exact Or.inr ⟨(n, cs), List.mem_cons_self, hc⟩
      · exact Or.inr ⟨y, List.mem_cons_of_mem _ (mem_nodesOf.mpr ⟨c, hc, hy⟩), hmem⟩

theorem IsDerivation.child_mem (h : t.IsDerivation) (hy : y ∈ t.nodes) (hmem : .node x.1 x.2 ∈ y.2) : x ∈ t.nodes := by
  induction h with
  | leaf => cases hy
  | node _ _ ih =>
    rcases List.mem_cons.mp hy with rfl | hy
    · exact List.mem_cons_of_mem _ (mem_nodesOf.mpr ⟨_, hmem, List.mem_cons_self⟩)
    · obtain ⟨c, hc, hy⟩ := mem_nodesOf.mp hy
      exact List.mem_cons_of_mem _ (mem_nodesOf.mpr ⟨c, hc, ih c hc hy⟩)

theorem Faithful.mem (h : t.Faithful) (hx : x ∈ t.nodes) : (Tree.node x.1 x.2).Faithful := by
  have hd := h.derivation
  induction hd with
  | leaf => cases hx
  | node _ _ ih =>
    rcases List.mem_cons.mp hx with rfl | hx
    · exact h
    · obtain ⟨c, hc, hx⟩ := mem_nodesOf.mp hx
      exact ih c hc (h.child hc) hx

/-- A rule that stands among the children of a node is asked for by the node's rule. -/
theorem Faithful.asks (h : (Tree.node n cs).Faithful) {m : Node} {us : List Tree} (hmem : .node m us ∈ cs) :
    mostAll (· == .rule m.rule) n.rule.production ≠ 0 :=
  fun hzero => (h.spans rfl).not_mem hzero _ hmem (beq_iff_eq.mpr rfl)

end Tree

/-! ## Sites are the nodes of states -/

/-- No state stands below a node of the rule, and it is none. -/
def Rule.inert : Rule → Bool
  | .machine | .composite | .simple | .state => false
  | _ => true

def Symbol.inert : Symbol → Bool
  | .token _ => true
  | .rule r => r.inert

def Site.place (s : Site) : Rule × List Tree := (s.rule, s.children)

/-- The rules and the children of those nodes that are states. -/
def statePlaces (xs : List (Node × List Tree)) : List (Rule × List Tree) :=
  (xs.filter fun x => x.1.rule.isState).map fun x => (x.1.rule, x.2)

theorem statePlaces_append (xs ys : List (Node × List Tree)) :
    statePlaces (xs ++ ys) = statePlaces xs ++ statePlaces ys := by
  rw [statePlaces, List.filter_append, List.map_append, ← statePlaces, ← statePlaces]

theorem statePlaces_cons (n : Node) (cs : List Tree) (xs : List (Node × List Tree)) :
    statePlaces ((n, cs) :: xs) = (if n.rule.isState then [(n.rule, cs)] else []) ++ statePlaces xs := by
  rw [statePlaces, List.filter_cons]
  split <;> rfl

theorem Rule.inert_production (r : Rule) :
    r.inert = true ∨ r = .simple → mostAll (fun s => !s.inert) r.production = 0 := by cases r <;> decide

namespace Tree

variable {n : Node} {t c : Tree} {cs : List Tree} {container : Option String}

theorem Faithful.inert_child (h : (Tree.node n cs).Faithful) (hn : n.rule.inert = true ∨ n.rule = .simple)
    (hc : c ∈ cs) : c.symbol.inert = true := by
  simpa using (h.spans rfl).not_mem (n.rule.inert_production hn) c hc

theorem Faithful.statePlaces_inert (h : t.Faithful) (ht : t.symbol.inert = true) : statePlaces t.nodes = [] := by
  have hd := h.derivation
  have hrule : ∀ x ∈ t.nodes, x.1.rule.inert = true := by
    induction hd with
    | leaf => exact fun x hx => (by cases hx)
    | node _ _ ih =>
      intro x hx
      rcases List.mem_cons.mp hx with rfl | hx
      · exact ht
      · obtain ⟨c, hc, hx⟩ := mem_nodesOf.mp hx
        exact ih c hc (h.child hc) (h.inert_child (Or.inl ht) hc) x hx
  have hstate (r : Rule) : r.inert = true → r.isState = false := by cases r <;> decide
  rw [statePlaces, List.filter_eq_nil_iff.mpr fun x hx => by simp [hstate _ (hrule x hx)], List.map_nil]

theorem statePlaces_nodesOf_eq_nil (h : ∀ c ∈ cs, statePlaces c.nodes = []) : statePlaces (nodesOf cs) = [] := by
  induction cs with
  | nil => rfl
  | cons c cs ih =>
    rw [nodesOf, statePlaces_append, h c List.mem_cons_self, ih fun d hd => h d (List.mem_cons_of_mem _ hd)]
    rfl

theorem sitesAmong_places
    (hstate : ∀ c ∈ cs, c.hasRule .state = true → (c.sites container).map Site.place = statePlaces c.nodes)
    (hother : ∀ c ∈ cs, c.hasRule .state = false → statePlaces c.nodes = []) :
    (sitesAmong container cs).map Site.place = statePlaces (nodesOf cs) := by
  induction cs with
  | nil => rfl
  | cons c cs ih =>
    rw [List.forall_mem_cons] at hstate hother
    have ih := ih hstate.2 hother.2
    rw [nodesOf, statePlaces_append, sitesAmong]
    split
    · rename_i hc
      rw [List.map_append, hstate.1 hc, ih]
    · rename_i hc
      rw [hother.1 (by simpa using hc), ih]
      rfl

/-- What stands in a machine or a composite state is a state rule, or no state at all. -/
theorem Faithful.among_places (h : (Tree.node n cs).Faithful) (hn : n.rule = .machine ∨ n.rule = .composite)
    (container : Option String)
    (hstate : ∀ c ∈ cs, c.hasRule .state = true → (c.sites container).map Site.place = statePlaces c.nodes) :
    (sitesAmong container cs).map Site.place = statePlaces (nodesOf cs) := by
  refine sitesAmong_places hstate fun c hc hrule => (h.child hc).statePlaces_inert ?_
  have hzero : mostAll (fun s => !s.inert && s != .rule .state) n.rule.production = 0 := by
    rcases hn with hn | hn <;> rw [hn] <;> decide
  have hnot := (h.spans rfl).not_mem hzero c hc
  have hne : c.symbol ≠ .rule .state := fun he => by
    rw [hasRule_iff.mpr he] at hrule
    cases hrule
  simpa [hne] using hnot

theorem Faithful.state_inv (h : (Tree.node n cs).Faithful) (hn : n.rule = .state) :
    ∃ k us, cs = [.node k us] ∧ k.rule.isState = true := by
  obtain ⟨ps, hps, hspans⟩ := (h.spans hn).oneOf nofun
  simp only [List.mem_cons, List.not_mem_nil, or_false] at hps
  rcases hps with rfl | rfl
  · obtain ⟨k, us, rfl, hk⟩ := (Phrase.spans_one.mp hspans).rule_inv
    exact ⟨k, us, rfl, by rw [hk]; rfl⟩
  · obtain ⟨k, us, rfl, hk⟩ := (Phrase.spans_one.mp hspans).rule_inv
    exact ⟨k, us, rfl, by rw [hk]; rfl⟩

/-- The sites of a tree are the nodes of states in it, in the order of the text. -/
theorem Faithful.sites_places (h : t.Faithful) (ht : t.symbol ≠ .rule .machine) :
    (t.sites container).map Site.place = statePlaces t.nodes := by
  have hd := h.derivation
  induction hd generalizing container with
  | leaf => rfl
  | @node n cs _ _ ih =>
    rw [nodes, statePlaces_cons]
    unfold sites
    split
    · -- a state rule holds one state
      rename_i hn
      obtain ⟨k, us, rfl, hk⟩ := h.state_inv hn
      have hkne : (Tree.node k us).symbol ≠ .rule .machine := fun he => by
        rw [Symbol.rule.inj he] at hk
        cases hk
      rw [hn, nodesOf, nodesOf, List.append_nil]
      exact ih _ List.mem_cons_self (h.child List.mem_cons_self) hkne
    · rename_i hn
      rw [hn, statePlaces_nodesOf_eq_nil fun c hc => (h.child hc).statePlaces_inert (h.inert_child (Or.inr hn) hc)]
      rfl
    · rename_i hn
      have hamong := h.among_places (Or.inr hn) (nameOf? cs) fun c hc hrule =>
        ih c hc (h.child hc) (by rw [hasRule_iff.mp hrule]; decide)
      rw [hn, List.map_cons, hamong]
      rfl
    · rename_i hstate hsimple hcomposite
      have hinert (r : Rule) : r ≠ .machine → r ≠ .state → r ≠ .simple → r ≠ .composite → r.inert = true := by
        cases r <;> decide
      have hplaces := h.statePlaces_inert (hinert n.rule (fun he => ht (congrArg _ he)) hstate hsimple hcomposite)
      rw [nodes, statePlaces_cons] at hplaces
      rw [hplaces]
      rfl

/-- So it is with the sites of a machine. -/
theorem Faithful.machine_places (h : (Tree.node n cs).Faithful) (hn : n.rule = .machine) :
    (sitesAmong none cs).map Site.place = statePlaces (Tree.node n cs).nodes := by
  rw [nodes, statePlaces_cons, hn]
  refine h.among_places (Or.inl hn) none fun c hc hrule => (h.child hc).sites_places ?_
  rw [hasRule_iff.mp hrule]
  decide

theorem Faithful.stateNames_eq (h : (Tree.node n cs).Faithful) (hn : n.rule = .machine) :
    (Tree.node n cs).stateNames = (sitesAmong none cs).filterMap Site.name? := by
  have hplaces := congrArg (List.filterMap fun x : Rule × List Tree => nameOf? x.2) (h.machine_places hn)
  rw [statePlaces, List.filterMap_map, List.filterMap_map] at hplaces
  exact hplaces.symm

end Tree

/-- A site that a faithful node of a state makes. -/
def Site.Faithful (s : Site) : Prop :=
  ∃ n : Node, n.rule = s.rule ∧ n.rule.isState = true ∧ (Tree.node n s.children).Faithful

namespace Tree.Faithful

variable {n : Node} {cs : List Tree} {s : Site}

theorem exists_node (h : (Tree.node n cs).Faithful) (hn : n.rule = .machine) (hs : s ∈ sitesAmong none cs) :
    ∃ x ∈ (Tree.node n cs).nodes, x.1.rule = s.rule ∧ x.2 = s.children ∧ x.1.rule.isState = true := by
  have hmem : s.place ∈ statePlaces (Tree.node n cs).nodes := h.machine_places hn ▸ List.mem_map_of_mem hs
  obtain ⟨x, hx, he⟩ := List.mem_map.mp hmem
  obtain ⟨hx, hstate⟩ := List.mem_filter.mp hx
  obtain ⟨hrule, hchildren⟩ := Prod.mk.inj he
  exact ⟨x, hx, hrule, hchildren, hstate⟩

theorem site (h : (Tree.node n cs).Faithful) (hn : n.rule = .machine) (hs : s ∈ sitesAmong none cs) : s.Faithful := by
  obtain ⟨x, hx, hrule, hchildren, hstate⟩ := h.exists_node hn hs
  exact ⟨x.1, hrule, hstate, hchildren ▸ h.mem hx⟩

theorem exists_site (h : (Tree.node n cs).Faithful) (hn : n.rule = .machine) {x : Node × List Tree}
    (hx : x ∈ (Tree.node n cs).nodes) (hstate : x.1.rule.isState = true) :
    ∃ s ∈ sitesAmong none cs, s.rule = x.1.rule ∧ s.children = x.2 := by
  have hmem : (x.1.rule, x.2) ∈ statePlaces (Tree.node n cs).nodes :=
    List.mem_map_of_mem (f := fun x : Node × List Tree => (x.1.rule, x.2)) (List.mem_filter.mpr ⟨hx, hstate⟩)
  rw [← h.machine_places hn] at hmem
  obtain ⟨s, hs, he⟩ := List.mem_map.mp hmem
  obtain ⟨hrule, hchildren⟩ := Prod.mk.inj he
  exact ⟨s, hs, hrule, hchildren⟩

end Tree.Faithful

/-! ## Declaring the sites -/

theorem declare_of_tokens {r : Registry} {container : Option String} {composite : Bool} {cs : List Tree} {k tok : Token}
    (hk : Tree.tokenOf? (if composite then .composite else .state) cs = some k)
    (ht : Tree.tokenOf? .name cs = some tok) :
    declare r container composite cs =
      if (r.find? tok.text).isSome then .error (.duplicatedName tok.text)
      else .ok (r ++ [⟨tok.text, composite, stateLocation k tok, container⟩], tok.text) := by
  unfold declare
  rw [hk, ht]
  rfl

namespace Site

variable {s : Site} {ss : List Site} {r : Registry}

/-- A state is declared unless its name is taken. -/
theorem Faithful.declare_cases (hs : s.Faithful) (r : Registry) : ∃ name, s.name? = some name ∧
    (name ∈ r.names ∧ s.declare r = .error (.duplicatedName name) ∨
      name ∉ r.names ∧ ∃ r', s.declare r = .ok r' ∧ r'.names = r.names ++ [name]) := by
  have hdeclare (composite : Bool) {k tok : Token}
      (heq : s.declare r = (do return (← Statechart.declare r s.container composite s.children).1))
      (hk : Tree.tokenOf? (if composite then .composite else .state) s.children = some k)
      (ht : Tree.tokenOf? .name s.children = some tok) : ∃ name, s.name? = some name ∧
      (name ∈ r.names ∧ s.declare r = .error (.duplicatedName name) ∨
        name ∉ r.names ∧ ∃ r', s.declare r = .ok r' ∧ r'.names = r.names ++ [name]) := by
    refine ⟨tok.text, by rw [name?, Tree.nameOf?, ht]; rfl, ?_⟩
    rw [heq, declare_of_tokens hk ht, ← Registry.find?_isSome]
    by_cases hfind : (r.find? tok.text).isSome = true
    · exact Or.inl ⟨hfind, by rw [if_pos hfind]; rfl⟩
    · refine Or.inr ⟨hfind, _, by rw [if_neg hfind]; rfl, ?_⟩
      rw [Registry.names, List.map_append]
      rfl
  obtain ⟨n, hn, hstate, hf⟩ := hs
  cases hrule : s.rule with
  | simple =>
    obtain ⟨k, hk⟩ := hf.token (hn.trans hrule) (k := .state) (by decide)
    obtain ⟨tok, ht⟩ := hf.token (hn.trans hrule) (k := .name) (by decide)
    exact hdeclare false (by rw [declare, hrule]) hk ht
  | composite =>
    obtain ⟨k, hk⟩ := hf.token (hn.trans hrule) (k := .composite) (by decide)
    obtain ⟨tok, ht⟩ := hf.token (hn.trans hrule) (k := .name) (by decide)
    exact hdeclare true (by rw [declare, hrule]) hk ht
  | _ =>
    rw [hn, hrule] at hstate
    cases hstate

/-- The names are declared one after the other, up to the first that was declared before. -/
theorem declareAll_cases (hss : ∀ s ∈ ss, s.Faithful) (hr : r.names.Nodup) :
    (∃ r', ss.foldlM Site.declare r = .ok r' ∧ r'.names = r.names ++ ss.filterMap Site.name? ∧ r'.names.Nodup) ∨
    ∃ us name vs, ss.filterMap Site.name? = us ++ name :: vs ∧ (r.names ++ us).Nodup ∧ name ∈ r.names ++ us ∧
      ss.foldlM Site.declare r = .error (.duplicatedName name) := by
  induction ss generalizing r with
  | nil => exact Or.inl ⟨r, rfl, (List.append_nil _).symm, hr⟩
  | cons s ss ih =>
    rw [List.forall_mem_cons] at hss
    obtain ⟨name, hname, h⟩ := hss.1.declare_cases r
    rw [List.filterMap_cons_some hname, List.foldlM_cons]
    rcases h with ⟨hmem, hd⟩ | ⟨hnew, r₁, hd, hnames⟩
    · refine Or.inr ⟨[], name, _, rfl, by rwa [List.append_nil], by rwa [List.append_nil], ?_⟩
      rw [hd]
      rfl
    · have hr₁ : r₁.names.Nodup := by
        rw [hnames]
        exact hr.append (List.nodup_singleton _) (by simpa using hnew)
      rw [hd]
      rcases ih hss.2 hr₁ with ⟨r', hr', hall, hnodup⟩ | ⟨us, x, vs, hsplit, hnodup, hmem, he⟩
      · exact Or.inl ⟨r', hr', by rw [hall, hnames, List.append_assoc]; rfl, hnodup⟩
      · rw [hnames, List.append_assoc] at hnodup hmem
        exact Or.inr ⟨name :: us, x, vs, by rw [hsplit]; rfl, hnodup, hmem, he⟩

end Site

/-! ## Building the sites -/

/-- The initial sections and the transitions among some children lead to states of these names. -/
structure Tree.Resolves (names : List String) (cs : List Tree) : Prop where
  initials : ∀ m us, .node m us ∈ cs → m.rule = .initial → ∀ x, targetOf? us = some x → x ∈ names
  transitions : ∀ m us, .node m us ∈ cs → m.rule = .transition →
    ∀ x, targetOf? us = some x → x ≠ "FINAL" → x ∈ names

namespace Tree.Faithful

variable {n : Node} {cs : List Tree} {b : Builder}

/-- The initial section that is found is the only one. -/
theorem initial_resolves_iff (h : (Tree.node n cs).Faithful)
    (hm : mostAll (· == .rule .initial) n.rule.production ≤ 1) {it : Tree} (hit : firstOf? .initial cs = some it)
    (built : Registry) : (∃ i, b.initial built it = .ok i) ↔
      ∀ m us, .node m us ∈ cs → m.rule = .initial → ∀ x, targetOf? us = some x → x ∈ b.registry.names := by
  have hrule : it.hasRule .initial = true := List.find?_some hit
  have hmem := List.mem_of_find?_eq_some hit
  cases it with
  | leaf _ => cases hrule
  | fault _ => cases hrule
  | node k vs =>
    have hk : k.rule = .initial := beq_iff_eq.mp hrule
    rw [(h.child hmem).initial_isOk_iff hk]
    constructor
    · intro hx m us hmem' hm'
      have hsame := (h.spans rfl).firstOf?_eq hm hmem' (beq_iff_eq.mpr hm')
      rw [hit] at hsame
      cases hsame
      exact hx
    · exact fun hall => hall k vs hmem hk

end Tree.Faithful

/-- The state of a site can be built if it has what a composite state needs and all it leads to is declared. -/
theorem Site.Faithful.builds_iff {s : Site} {b : Builder} (hs : s.Faithful) : (∃ d, b.Builds s d) ↔
    (s.rule = .composite → (Tree.firstOf? .initial s.children).isSome = true) ∧
      Tree.Resolves b.registry.names s.children := by
  obtain ⟨name, hname, -⟩ := hs.declare_cases []
  obtain ⟨n, hn, hstate, hf⟩ := hs
  obtain ⟨container, rule, cs⟩ := s
  cases rule with
  | simple =>
    have hn : n.rule = .simple := hn
    constructor
    · rintro ⟨d, hd⟩
      cases hd with
      | simple _ hts =>
        refine ⟨nofun, fun m us hmem hm => ?_, (hf.transitions_isOk_iff _ _).mp ⟨_, hts⟩⟩
        have hasks := hf.asks hmem
        rw [hn, hm] at hasks
        exact absurd (by decide) hasks
    · rintro ⟨-, h⟩
      obtain ⟨ts, hts⟩ := (hf.transitions_isOk_iff name container.toList).mpr h.transitions
      exact ⟨_, .simple hname hts⟩
  | composite =>
    have hn : n.rule = .composite := hn
    have hone : mostAll (· == .rule .initial) n.rule.production ≤ 1 := by rw [hn]; decide
    constructor
    · rintro ⟨d, hd⟩
      cases hd with
      | composite _ hit hi hts =>
        exact ⟨fun _ => Option.isSome_iff_exists.mpr ⟨_, hit⟩, (hf.initial_resolves_iff hone hit _).mp ⟨_, hi⟩,
          (hf.transitions_isOk_iff _ _).mp ⟨_, hts⟩⟩
    · rintro ⟨hstarted, h⟩
      obtain ⟨it, hit⟩ := Option.isSome_iff_exists.mp (hstarted rfl)
      obtain ⟨i, hi⟩ := (hf.initial_resolves_iff hone hit (b.registry.before name)).mpr h.initials
      obtain ⟨ts, hts⟩ := (hf.transitions_isOk_iff name container.toList).mpr h.transitions
      exact ⟨_, .composite hname hit hi hts⟩
  | _ =>
    rw [hn] at hstate
    cases hstate

namespace Tree.Faithful

variable {n : Node} {cs : List Tree}

/-- A machine is built where its states can be declared, all it leads to is declared, and each site can be built. -/
theorem ofTree_isOk_iff (h : (Tree.node n cs).Faithful) (hn : n.rule = .machine) (load : Nat) :
    (∃ m, Machine.ofTree load (.node n cs) = .ok m) ↔
      ∃ r, Registry.ofTree (.node n cs) = .ok r ∧ Resolves r.names cs ∧ ∀ s ∈ sitesAmong none cs,
        (s.rule = .composite → (firstOf? .initial s.children).isSome = true) ∧ Resolves r.names s.children := by
  obtain ⟨k, us, hit, -, -⟩ := h.part hn (s := .initial) (by decide)
  have hone : mostAll (· == .rule .initial) n.rule.production ≤ 1 := by rw [hn]; decide
  constructor
  · rintro ⟨m, hm⟩
    obtain ⟨b, -, -, hr, hms, it, i, hit', hi, -⟩ := ofTree_inv hm
    have hsites := (@Builder.members_isOk_iff b cs none).mp ⟨_, hms⟩
    refine ⟨b.registry, hr, ⟨(h.initial_resolves_iff hone hit' []).mp ⟨i, hi⟩, fun m us hmem hm => ?_⟩,
      fun s hs => (h.site hn hs).builds_iff.mp (hsites s hs)⟩
    have hasks := h.asks hmem
    rw [hn, hm] at hasks
    exact absurd (by decide) hasks
  · rintro ⟨r, hr, hroot, hsites⟩
    obtain ⟨tok, ht⟩ := h.token hn (k := .name) (by decide)
    obtain ⟨i, hi⟩ := (h.initial_resolves_iff (b := ⟨load, r⟩) hone hit []).mpr hroot.initials
    obtain ⟨ms, hms⟩ := (@Builder.members_isOk_iff ⟨load, r⟩ cs none).mpr fun s hs =>
      (h.site hn hs).builds_iff.mpr (hsites s hs)
    exact ⟨_, ofTree_eq_ok.mpr ⟨tok, r, _, i, ms, ht, hr, hit, hi, hms, rfl⟩⟩

/-! ## Where initial sections and transitions stand -/

/-- Only the first node of a machine is one. -/
theorem eq_of_machine (h : (Tree.node n cs).Faithful) {x : Node × List Tree} (hx : x ∈ (Tree.node n cs).nodes)
    (hr : x.1.rule = .machine) : x = (n, cs) := by
  rcases h.derivation.parent hx with he | ⟨y, hy, hmem⟩
  · cases he
    rfl
  · have hnone (r : Rule) : mostAll (· == .rule .machine) r.production = 0 := by cases r <;> decide
    have hasks := (h.mem hy).asks hmem
    rw [hr] at hasks
    exact absurd (hnone _) hasks

theorem mem_childrenOf {r : Rule} {t : Tree} {us : List Tree} :
    us ∈ t.childrenOf r ↔ ∃ m, (m, us) ∈ t.nodes ∧ m.rule = r := by
  simp [childrenOf]

/-- Initial sections and transitions stand below the first node and the nodes of states, and nowhere else. -/
theorem mem_nodes_iff_below (h : (Tree.node n cs).Faithful) (hn : n.rule = .machine) {m : Node} {us : List Tree}
    (hm : m.rule = .initial ∨ m.rule = .transition) : (m, us) ∈ (Tree.node n cs).nodes ↔
      .node m us ∈ cs ∨ ∃ s ∈ sitesAmong none cs, .node m us ∈ s.children := by
  constructor
  · intro hx
    rcases h.derivation.parent hx with he | ⟨y, hy, hmem⟩
    · -- the first node is no initial section and no transition
      cases he
      rw [hn] at hm
      rcases hm with hm | hm <;> cases hm
    · have holds (r : Rule) : mostAll (· == .rule .initial) r.production ≠ 0 ∨
          mostAll (· == .rule .transition) r.production ≠ 0 → r = .machine ∨ r.isState = true := by cases r <;> decide
      have hasks := (h.mem hy).asks hmem
      have hparent : y.1.rule = .machine ∨ y.1.rule.isState = true := by
        refine holds _ (hm.imp (fun hm => ?_) (fun hm => ?_)) <;> rwa [← hm]
      rcases hparent with hr | hr
      · obtain rfl := h.eq_of_machine hy hr
        exact Or.inl hmem
      · obtain ⟨s, hs, -, hchildren⟩ := h.exists_site hn hy hr
        exact Or.inr ⟨s, hs, hchildren ▸ hmem⟩
  · rintro (hmem | ⟨s, hs, hmem⟩)
    · exact h.derivation.child_mem (y := (n, cs)) List.mem_cons_self hmem
    · obtain ⟨x, hx, -, hchildren, -⟩ := h.exists_node hn hs
      exact h.derivation.child_mem hx (hchildren ▸ hmem)

theorem forall_targetsOf {r : Rule} {t : Tree} {P : String → Prop} : (∀ x ∈ t.targetsOf r, P x) ↔
    ∀ m us, (m, us) ∈ t.nodes → m.rule = r → ∀ x, targetOf? us = some x → P x := by
  constructor
  · intro hall m us hmem hm x hx
    exact hall x (List.mem_filterMap.mpr ⟨us, mem_childrenOf.mpr ⟨m, hmem, hm⟩, hx⟩)
  · intro hall x hx
    obtain ⟨us, hus, hx⟩ := List.mem_filterMap.mp hx
    obtain ⟨m, hmem, hm⟩ := mem_childrenOf.mp hus
    exact hall m us hmem hm x hx

/-- A machine is well-formed if its names are distinct and all resolves below its root and below each site. -/
theorem buildable_iff (h : (Tree.node n cs).Faithful) (hn : n.rule = .machine) :
    (Tree.node n cs).Buildable ↔ (Tree.node n cs).stateNames.Nodup ∧ Resolves (Tree.node n cs).stateNames cs ∧
      ∀ s ∈ sitesAmong none cs, (s.rule = .composite → (firstOf? .initial s.children).isSome = true) ∧
        Resolves (Tree.node n cs).stateNames s.children := by
  constructor
  · rintro ⟨hdistinct, hinitials, htransitions, hstarted⟩
    rw [forall_targetsOf] at hinitials htransitions
    refine ⟨hdistinct, ⟨fun m us hmem hm => ?_, fun m us hmem hm => ?_⟩,
      fun s hs => ⟨fun hr => ?_, fun m us hmem hm => ?_, fun m us hmem hm => ?_⟩⟩
    · exact hinitials m us ((h.mem_nodes_iff_below hn (Or.inl hm)).mpr (Or.inl hmem)) hm
    · exact htransitions m us ((h.mem_nodes_iff_below hn (Or.inr hm)).mpr (Or.inl hmem)) hm
    · obtain ⟨x, hx, hrule, hchildren, -⟩ := h.exists_node hn hs
      exact hstarted _ (mem_childrenOf.mpr ⟨x.1, hchildren ▸ hx, hrule.trans hr⟩)
    · exact hinitials m us ((h.mem_nodes_iff_below hn (Or.inl hm)).mpr (Or.inr ⟨s, hs, hmem⟩)) hm
    · exact htransitions m us ((h.mem_nodes_iff_below hn (Or.inr hm)).mpr (Or.inr ⟨s, hs, hmem⟩)) hm
  · rintro ⟨hdistinct, hroot, hsites⟩
    refine ⟨hdistinct, forall_targetsOf.mpr fun m us hx hm => ?_, forall_targetsOf.mpr fun m us hx hm => ?_,
      fun us hus => ?_⟩
    · rcases (h.mem_nodes_iff_below hn (Or.inl hm)).mp hx with hmem | ⟨s, hs, hmem⟩
      · exact hroot.initials m us hmem hm
      · exact (hsites s hs).2.initials m us hmem hm
    · rcases (h.mem_nodes_iff_below hn (Or.inr hm)).mp hx with hmem | ⟨s, hs, hmem⟩
      · exact hroot.transitions m us hmem hm
      · exact (hsites s hs).2.transitions m us hmem hm
    · obtain ⟨m, hmem, hm⟩ := mem_childrenOf.mp hus
      obtain ⟨s, hs, hrule, hchildren⟩ := h.exists_site hn hmem (by rw [hm]; rfl)
      have hstarted := (hsites s hs).1 (hrule.trans hm)
      rwa [hchildren] at hstarted

/-! ## Exactly the well-formed programs -/

/-- Either all names are declared, or the first that comes again is refused. -/
theorem registry_cases (h : (Tree.node n cs).Faithful) (hn : n.rule = .machine) :
    (∃ r, Registry.ofTree (.node n cs) = .ok r ∧ r.names = (Tree.node n cs).stateNames ∧ r.names.Nodup) ∨
    ∃ us name vs, (Tree.node n cs).stateNames = us ++ name :: vs ∧ us.Nodup ∧ name ∈ us ∧
      Registry.ofTree (.node n cs) = .error (.duplicatedName name) := by
  rw [h.stateNames_eq hn, Registry.ofTree, declareStates_eq_foldlM]
  exact Site.declareAll_cases (r := []) (fun s hs => h.site hn hs) .nil

theorem ofTree_isOk_iff_buildable (h : (Tree.node n cs).Faithful) (hn : n.rule = .machine) (load : Nat) :
    (∃ m, Machine.ofTree load (.node n cs) = .ok m) ↔ (Tree.node n cs).Buildable := by
  rw [h.ofTree_isOk_iff hn, h.buildable_iff hn]
  constructor
  · rintro ⟨r, hr, hbelow⟩
    rcases h.registry_cases hn with ⟨r', hr', hnames, hnodup⟩ | ⟨us, name, vs, -, -, -, he⟩
    · rw [hr] at hr'
      cases hr'
      rw [hnames] at hbelow hnodup
      exact ⟨hnodup, hbelow⟩
    · rw [hr] at he
      cases he
  · rintro ⟨hnodup, hbelow⟩
    rcases h.registry_cases hn with ⟨r, hr, hnames, -⟩ | ⟨us, name, vs, hsplit, -, hmem, -⟩
    · rw [← hnames] at hbelow
      exact ⟨r, hr, hbelow⟩
    · rw [hsplit] at hnodup
      exact absurd rfl ((List.nodup_append.mp hnodup).2.2 name hmem name List.mem_cons_self)

theorem ofTree_duplicated (h : (Tree.node n cs).Faithful) (hn : n.rule = .machine) (load : Nat)
    (hdup : ¬ (Tree.node n cs).stateNames.Nodup) : ∃ us name vs, (Tree.node n cs).stateNames = us ++ name :: vs ∧
      us.Nodup ∧ name ∈ us ∧ Machine.ofTree load (.node n cs) = .error (.duplicatedName name) := by
  rcases h.registry_cases hn with ⟨r, -, hnames, hnodup⟩ | ⟨us, name, vs, hsplit, hnodup, hmem, he⟩
  · rw [hnames] at hnodup
    exact absurd hnodup hdup
  · obtain ⟨tok, ht⟩ := h.token hn (k := .name) (by decide)
    exact ⟨us, name, vs, hsplit, hnodup, hmem,
      bind_eq_error.mpr (Or.inr ⟨tok, need_eq_ok.mpr ht, bind_eq_error.mpr (Or.inl he)⟩)⟩

end Tree.Faithful

theorem outcome_derived {r : Rule} {l : Lexed} (hc : (Parser.outcome r l).complaints = []) :
    ∀ c ∈ (Parser.outcome r l).close.children, c.Derived := by
  have hfair : (Parser.outcome r l).Fair := (Parser.start_fair r l).run _
  obtain ⟨-, ⟨_, ho, -⟩, -⟩ := hfair hc
  exact ho.derived

/-- Exactly the well-formed programs are built. A text that the parser reads as a machine without complaint is built
    if and only if it is well-formed. Where the names of its states are not distinct it is refused for the first of
    them, in the order of the text, that was declared before. Whatever is built can be shown. -/
theorem built_iff_well_formed (load : Nat) (text : String) (h : (Parser.outcome .machine (lex text)).complaints = []) :
    ((∃ m, Machine.ofTree load (parse .machine text).tree = .ok m) ↔ (parse .machine text).tree.Buildable) ∧
    (¬ (parse .machine text).tree.stateNames.Nodup → ∃ us name vs,
      (parse .machine text).tree.stateNames = us ++ name :: vs ∧ us.Nodup ∧ name ∈ us ∧
        Machine.ofTree load (parse .machine text).tree = .error (.duplicatedName name)) ∧
    ∀ m, Machine.ofTree load (parse .machine text).tree = .ok m → ∃ e, m.toElement = .ok e := by
  have hfaithful := outcome_faithful h
  have hrule := (Parser.outcome_isDerivation (l := lex text) rfl h).2.1
  have hn : (Parser.outcome .machine (lex text)).frame.rule = .machine := beq_iff_eq.mp hrule
  exact ⟨hfaithful.ofTree_isOk_iff_buildable hn load, hfaithful.ofTree_duplicated hn load,
    fun m hm => Machine.toElement_isOk_iff.mpr (ofTree_showable hm (outcome_derived h))⟩

namespace Kiln

/-- A transition leads into a composite state further down, another to the end. -/
def text : String :=
  r"StateMachine Kiln {INITIAL->Cold;" ++
  r"state Cold{->Low:'light'[gas>0]/{gas=gas-1;};}" ++
  r"composite state Hot{INITIAL->Low;state Low{->FINAL:'burst';}}}"

/-- A state in a composite state has the name of one outside. -/
def renamed : String :=
  r"StateMachine Kiln {INITIAL->Cold;" ++
  r"state Cold{}" ++
  r"composite state Hot{INITIAL->Cold;state Cold{}}}"

/-- What is asked of a text that is read without complaint: the names of its states, and whether it is well-formed. -/
def verdict? (p : Parsed) : Option (List String × Bool) :=
  if p.complaints = [] then some (p.tree.stateNames, decide p.tree.Buildable) else none

theorem verdict?_text : verdict? (parse .machine text) = some (["Cold", "Hot", "Low"], true) := by decide +kernel

theorem verdict?_renamed : verdict? (parse .machine renamed) = some (["Cold", "Hot", "Cold"], false) := by
  decide +kernel

theorem of_verdict? {text : String} {names : List String} {b : Bool}
    (h : verdict? (parse .machine text) = some (names, b)) :
    (Parser.outcome .machine (lex text)).complaints = [] ∧ (parse .machine text).tree.stateNames = names ∧
      decide (parse .machine text).tree.Buildable = b := by
  unfold verdict? at h
  split at h
  · rename_i hc
    obtain ⟨hnames, hb⟩ := Prod.mk.inj (Option.some.inj h)
    exact ⟨(List.append_eq_nil_iff.mp hc).2, hnames, hb⟩
  · cases h

end Kiln

theorem kiln_built_renamed_kiln_refused :
    ((Parser.outcome .machine (lex Kiln.text)).complaints = [] ∧
      ∃ m e, Machine.ofTree 0 (parse .machine Kiln.text).tree = .ok m ∧ m.toElement = .ok e) ∧
    (Parser.outcome .machine (lex Kiln.renamed)).complaints = [] ∧
      Machine.ofTree 0 (parse .machine Kiln.renamed).tree = .error (.duplicatedName "Cold") := by
  obtain ⟨hquiet, -, hb⟩ := Kiln.of_verdict? Kiln.verdict?_text
  obtain ⟨hquiet', hnames, -⟩ := Kiln.of_verdict? Kiln.verdict?_renamed
  obtain ⟨hiff, -, hshown⟩ := built_iff_well_formed 0 Kiln.text hquiet
  obtain ⟨m, hm⟩ := hiff.mpr (of_decide_eq_true hb)
  obtain ⟨e, he⟩ := hshown m hm
  refine ⟨⟨hquiet, m, e, hm, he⟩, hquiet', ?_⟩
  obtain ⟨us, name, vs, hsplit, -, hmem, hrefused⟩ :=
    (built_iff_well_formed 0 Kiln.renamed hquiet').2.1 (by rw [hnames]; decide)
  rw [hnames] at hsplit
  -- the third name is the first that was there before
  rcases us with _ | ⟨first, _ | ⟨second, us⟩⟩
  · cases hmem
  · simp only [List.cons_append, List.nil_append, List.cons.injEq] at hsplit
    obtain ⟨rfl, rfl, -⟩ := hsplit
    simp at hmem
  · simp only [List.cons_append, List.cons.injEq] at hsplit
    obtain ⟨rfl, rfl, hrest⟩ := hsplit
    rcases us with _ | ⟨third, us⟩
    · cases hrest
      exact hrefused
    · simp at hrest

end Statechart
