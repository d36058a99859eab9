/-
  Statechart.Proofs.Sites — the places of a tree where states stand, and what declaring
  and building make of each.

  A site is a node that stands for a state, with the state around it. `sitesAmong` lists
  them in the order of the text, each before those inside it. Both walks of the builder
  over a tree are walks along this list.

  Proved: declaring the states of a tree is declaring its sites one after the other
  (`declareStates_eq_foldlM`); a list of states can be built exactly if each site can
  (`members_isOk_iff`), and each state of it is then what its site gives
  (`members_sites`).
-/

import Statechart.Proofs.Built

namespace Statechart

theorem forall₂_meet {α β γ : Type} {R : α → β → Prop} {S : α → γ → Prop} {as : List α} {bs : List β} {cs : List γ}
    (h : List.Forall₂ R as bs) (h' : List.Forall₂ S as cs) : List.Forall₂ (fun b c => ∃ a, R a b ∧ S a c) bs cs := by
  induction h generalizing cs with
  | nil =>
    cases h'
    exact .nil
  | cons hab _ ih =>
    cases h' with
    | cons hac h' => exact .cons ⟨_, hab, hac⟩ (ih h')

theorem Tree.firstOf?_eq_head? (r : Rule) (cs : List Tree) : firstOf? r cs = (allOf r cs).head? :=
  List.head?_filter.symm

/-- The name that stands among some children. -/
def Tree.nameOf? (cs : List Tree) : Option String := (Tree.tokenOf? .name cs).map (·.text)

/-- A node that stands for a state: the state around it, its rule and its children. -/
structure Site where
  container : Option String
  /-- Simple or composite; a state rule that holds nothing stands for itself. -/
  rule : Rule
  children : List Tree

namespace Site

def name? (s : Site) : Option String := Tree.nameOf? s.children

/-- Declare the state of a site. -/
def declare (r : Registry) (s : Site) : Except Defect Registry :=
  match s.rule with
  | .simple => do return (← Statechart.declare r s.container false s.children).1
  | .composite => do return (← Statechart.declare r s.container true s.children).1
  | _ => .error .emptyState

end Site

mutual

/-- The sites of a tree, each before those inside it. -/
def Tree.sites (container : Option String) : Tree → List Site
  | .node n cs =>
    match n.rule with
    | .state => firstSites container cs
    | .simple => [⟨container, .simple, cs⟩]
    | .composite => ⟨container, .composite, cs⟩ :: sitesAmong (Tree.nameOf? cs) cs
    | _ => []
  | _ => []

def firstSites (container : Option String) : List Tree → List Site
  | [] => [⟨container, .state, []⟩]
  | c :: _ => c.sites container

def sitesAmong (container : Option String) : List Tree → List Site
  | [] => []
  | c :: cs =>
    if c.hasRule .state then c.sites container ++ sitesAmong container cs
    else sitesAmong container cs

end

theorem sitesAmong_eq (container : Option String) (cs : List Tree) :
    sitesAmong container cs = (Tree.allOf .state cs).flatMap (·.sites container) := by
  induction cs with
  | nil => rfl
  | cons c cs ih =>
    rw [sitesAmong, Tree.allOf, List.filter_cons, ih]
    split <;> rfl

/-! ## Declaring -/

/-- What is declared at a site. -/
structure Site.Declares (s : Site) (d : Declaration) : Prop where
  name : s.name? = some d.name
  rule : s.rule = if d.composite then .composite else .simple
  container : d.container = s.container

theorem declare_inv {r r' : Registry} {container : Option String} {composite : Bool} {cs : List Tree} {name : String}
    (h : declare r container composite cs = .ok (r', name)) :
    Tree.nameOf? cs = some name ∧ r.find? name = none ∧
      ∃ l, r' = r ++ [⟨name, composite, l, container⟩] := by
  unfold declare at h
  obtain ⟨keyword, -, h⟩ := bind_eq_ok.mp h
  obtain ⟨tok, ht, h⟩ := bind_eq_ok.mp h
  split at h
  · cases h
  · rename_i hn
    cases pure_eq_ok.mp h
    exact ⟨by rw [Tree.nameOf?, need_eq_ok.mp ht]; rfl, by simpa using hn, _, rfl⟩

mutual

theorem declareTree_eq_foldlM : ∀ (t : Tree) (container : Option String) (r : Registry),
    declareTree container r t = (t.sites container).foldlM Site.declare r
  | .leaf _, _, _ => rfl
  | .fault _, _, _ => rfl
  | .node n cs, container, r => by
    unfold declareTree Tree.sites
    cases n.rule with
    | state => exact declareFirst_eq_foldlM cs container r
    | simple => simp [Site.declare]
    | composite =>
      dsimp only
      rw [List.foldlM_cons]
      cases hd : declare r container true cs with
      | error e => simp [Site.declare, hd, bind, Except.bind]
      | ok p =>
        obtain ⟨r1, name⟩ := p
        have hstep : Site.declare r ⟨container, .composite, cs⟩ = .ok r1 := by
          simp [Site.declare, hd, bind, Except.bind, pure, Except.pure]
        rw [hstep, (declare_inv hd).1]
        exact declareStates_eq_foldlM cs (some name) r1
    | _ => rfl

theorem declareFirst_eq_foldlM : ∀ (cs : List Tree) (container : Option String) (r : Registry),
    declareFirst container r cs = (firstSites container cs).foldlM Site.declare r
  | [], _, _ => rfl
  | c :: _, container, r => declareTree_eq_foldlM c container r

/-- Declaring the states of a tree is declaring its sites, one after the other. -/
theorem declareStates_eq_foldlM : ∀ (cs : List Tree) (container : Option String) (r : Registry),
    declareStates container r cs = (sitesAmong container cs).foldlM Site.declare r
  | [], _, _ => rfl
  | c :: cs, container, r => by
    unfold declareStates sitesAmong
    split
    · rw [List.foldlM_append, ← declareTree_eq_foldlM c]
      exact bind_congr fun r1 => declareStates_eq_foldlM cs container r1
    · exact declareStates_eq_foldlM cs container r

end

theorem Site.declare_inv {r r' : Registry} {s : Site} (h : s.declare r = .ok r') :
    ∃ d, r' = r ++ [d] ∧ s.Declares d ∧ r.find? d.name = none := by
  unfold Site.declare at h
  split at h
  · rename_i hrule
    obtain ⟨⟨r1, name⟩, hd, h⟩ := bind_eq_ok.mp h
    obtain rfl := pure_eq_ok.mp h
    obtain ⟨hname, hnew, l, rfl⟩ := Statechart.declare_inv hd
    exact ⟨_, rfl, ⟨hname, hrule, rfl⟩, hnew⟩
  · rename_i hrule
    obtain ⟨⟨r1, name⟩, hd, h⟩ := bind_eq_ok.mp h
    obtain rfl := pure_eq_ok.mp h
    obtain ⟨hname, hnew, l, rfl⟩ := Statechart.declare_inv hd
    exact ⟨_, rfl, ⟨hname, hrule, rfl⟩, hnew⟩
  · cases h

theorem declareSites_inv {ss : List Site} {r r' : Registry} (h : ss.foldlM Site.declare r = .ok r') :
    ∃ ds, r' = r ++ ds ∧ List.Forall₂ Site.Declares ss ds := by
  induction ss generalizing r with
  | nil =>
    obtain rfl := pure_eq_ok.mp h
    exact ⟨[], by simp, .nil⟩
  | cons s ss ih =>
    obtain ⟨r1, h1, h⟩ := bind_eq_ok.mp h
    obtain ⟨d, rfl, hd, -⟩ := s.declare_inv h1
    obtain ⟨ds, rfl, hds⟩ := ih h
    exact ⟨d :: ds, by simp, .cons hd hds⟩

/-- A registry holds one declaration for each site, in their order. -/
theorem registry_sites {t : Tree} {r : Registry} (h : Registry.ofTree t = .ok r) :
    List.Forall₂ Site.Declares (sitesAmong none t.children) r := by
  rw [Registry.ofTree, declareStates_eq_foldlM] at h
  obtain ⟨ds, rfl, hds⟩ := declareSites_inv h
  exact hds

/-! ## Building -/

/-- What is built at a site. -/
inductive Builder.Builds (b : Builder) : Site → Declared → Prop
  | simple {container : Option String} {cs : List Tree} {name : String} {ts : List Transition}
      (hname : Tree.nameOf? cs = some name) (hts : b.transitions name container.toList cs = .ok ts) :
      b.Builds ⟨container, .simple, cs⟩ (.simple (b.state name container.toList ts))
  | composite {container : Option String} {cs : List Tree} {name : String} {it : Tree} {i : Initial}
      {ts : List Transition} (hname : Tree.nameOf? cs = some name) (hit : Tree.firstOf? .initial cs = some it)
      (hi : b.initial (b.registry.before name) it = .ok i) (hts : b.transitions name container.toList cs = .ok ts) :
      b.Builds ⟨container, .composite, cs⟩ (.composite (b.state name [] ts) (some i))

namespace Builder

variable {b : Builder}

theorem Builds.name {s : Site} {d : Declared} (h : b.Builds s d) : s.name? = some d.state.name := by
  cases h with
  | simple hname => exact hname
  | composite hname => exact hname

theorem need_name_eq_ok {cs : List Tree} {tok : Token} (h : need .stateName (Tree.tokenOf? .name cs) = .ok tok) :
    Tree.nameOf? cs = some tok.text := by
  rw [Tree.nameOf?, need_eq_ok.mp h]
  rfl

mutual

theorem member_sites : ∀ (t : Tree) {container : Option String} {m : Member}, b.member container.toList t = .ok m →
    List.Forall₂ b.Builds (t.sites container) m.declared
  | .leaf _, _, _, h => by cases h; exact .nil
  | .fault _, _, _, h => by cases h; exact .nil
  | .node n cs, container, m, h => by
    unfold member at h
    unfold Tree.sites
    cases hrule : n.rule with
    | state =>
      rw [hrule] at h
      exact firstMember_sites cs h
    | simple =>
      rw [hrule] at h
      obtain ⟨tok, ht, h⟩ := bind_eq_ok.mp h
      obtain ⟨ts, hts, h⟩ := bind_eq_ok.mp h
      obtain rfl := pure_eq_ok.mp h
      exact .cons (.simple (need_name_eq_ok ht) hts) .nil
    | composite =>
      rw [hrule] at h
      obtain ⟨tok, ht, h⟩ := bind_eq_ok.mp h
      obtain ⟨it, hit, h⟩ := bind_eq_ok.mp h
      obtain ⟨i, hi, h⟩ := bind_eq_ok.mp h
      obtain ⟨ts, hts, h⟩ := bind_eq_ok.mp h
      obtain ⟨ms, hms, h⟩ := bind_eq_ok.mp h
      obtain rfl := pure_eq_ok.mp h
      have hname := need_name_eq_ok ht
      refine .cons (.composite hname (need_eq_ok.mp hit) hi hts) ?_
      rw [hname]
      exact members_sites cs hms
    | _ =>
      rw [hrule] at h
      obtain rfl := pure_eq_ok.mp h
      exact .nil

theorem firstMember_sites : ∀ (cs : List Tree) {container : Option String} {m : Member},
    b.firstMember container.toList cs = .ok m → List.Forall₂ b.Builds (firstSites container cs) m.declared
  | [], _, _, h => by cases h
  | c :: _, _, _, h => member_sites c h

/-- The states that are built are those of the sites, in their order. -/
theorem members_sites : ∀ (cs : List Tree) {container : Option String} {ms : List Member},
    b.members container.toList cs = .ok ms → List.Forall₂ b.Builds (sitesAmong container cs) (declaredAll ms)
  | [], _, _, h => by cases h; exact .nil
  | c :: cs, container, ms, h => by
    unfold members at h
    unfold sitesAmong
    split at h
    · rename_i hc
      rw [if_pos hc]
      obtain ⟨m, hm, h⟩ := bind_eq_ok.mp h
      obtain ⟨ms', hms, h⟩ := bind_eq_ok.mp h
      obtain rfl := pure_eq_ok.mp h
      exact List.rel_append (member_sites c hm) (members_sites cs hms)
    · rename_i hc
      rw [if_neg hc]
      exact members_sites cs h

end

theorem need_name_of_eq_some {cs : List Tree} {name : String} (h : Tree.nameOf? cs = some name) :
    ∃ tok, need .stateName (Tree.tokenOf? .name cs) = .ok tok ∧ tok.text = name := by
  obtain ⟨tok, ht, hname⟩ := Option.map_eq_some_iff.mp h
  exact ⟨tok, need_eq_ok.mpr ht, hname⟩

mutual

theorem exists_member : ∀ (t : Tree) {container : Option String}, (∀ s ∈ t.sites container, ∃ d, b.Builds s d) →
    ∃ m, b.member container.toList t = .ok m
  | .leaf _, _, _ => ⟨.hole, rfl⟩
  | .fault _, _, _ => ⟨.hole, rfl⟩
  | .node n cs, container, h => by
    unfold Tree.sites at h
    unfold member
    cases hrule : n.rule with
    | state =>
      rw [hrule] at h
      exact exists_firstMember cs h
    | simple =>
      rw [hrule] at h
      obtain ⟨d, hd⟩ := h _ List.mem_cons_self
      cases hd with
      | simple hname hts =>
        obtain ⟨tok, htok, rfl⟩ := need_name_of_eq_some hname
        exact ⟨_, bind_eq_ok.mpr ⟨tok, htok, bind_eq_ok.mpr ⟨_, hts, rfl⟩⟩⟩
    | composite =>
      rw [hrule] at h
      dsimp only at h
      rw [List.forall_mem_cons] at h
      obtain ⟨⟨d, hd⟩, hinside⟩ := h
      cases hd with
      | composite hname hit hi hts =>
        rw [hname] at hinside
        obtain ⟨tok, htok, rfl⟩ := need_name_of_eq_some hname
        obtain ⟨ms, hms⟩ := exists_members cs hinside
        exact ⟨_, bind_eq_ok.mpr ⟨tok, htok, bind_eq_ok.mpr ⟨_, need_eq_ok.mpr hit, bind_eq_ok.mpr ⟨_, hi,
          bind_eq_ok.mpr ⟨_, hts, bind_eq_ok.mpr ⟨ms, hms, rfl⟩⟩⟩⟩⟩⟩
    | _ => exact ⟨.hole, rfl⟩

theorem exists_firstMember : ∀ (cs : List Tree) {container : Option String},
    (∀ s ∈ firstSites container cs, ∃ d, b.Builds s d) → ∃ m, b.firstMember container.toList cs = .ok m
  | [], _, h => by
    obtain ⟨d, hd⟩ := h _ List.mem_cons_self
    cases hd
  | c :: _, _, h => exists_member c h

theorem exists_members : ∀ (cs : List Tree) {container : Option String},
    (∀ s ∈ sitesAmong container cs, ∃ d, b.Builds s d) → ∃ ms, b.members container.toList cs = .ok ms
  | [], _, _ => ⟨[], rfl⟩
  | c :: cs, container, h => by
    unfold sitesAmong at h
    unfold members
    split at h
    · rename_i hc
      rw [if_pos hc]
      rw [List.forall_mem_append] at h
      obtain ⟨m, hm⟩ := exists_member c h.1
      obtain ⟨ms, hms⟩ := exists_members cs h.2
      exact ⟨_, bind_eq_ok.mpr ⟨m, hm, bind_eq_ok.mpr ⟨ms, hms, rfl⟩⟩⟩
    · rename_i hc
      rw [if_neg hc]
      exact exists_members cs h

end

/-- A list of states can be built if and only if each of its sites can. -/
theorem members_isOk_iff {cs : List Tree} {container : Option String} :
    (∃ ms, b.members container.toList cs = .ok ms) ↔ ∀ s ∈ sitesAmong container cs, ∃ d, b.Builds s d := by
  refine ⟨fun ⟨ms, hms⟩ s hs => ?_, exists_members cs⟩
  obtain ⟨d, -, hd⟩ := exists_of_forall₂ (List.Forall₂.flip (members_sites cs hms)) s hs
  exact ⟨d, hd⟩

end Builder

/-- What a machine is built from: the registry of its tree, its members and its initial section. -/
theorem ofTree_inv {load : Nat} {t : Tree} {m : Machine} (h : Machine.ofTree load t = .ok m) :
    ∃ b : Builder, b.load = load ∧ m.load = load ∧ Registry.ofTree t = .ok b.registry ∧
      b.members [] t.children = .ok m.members ∧
      ∃ it i, Tree.firstOf? .initial t.children = some it ∧ b.initial [] it = .ok i ∧ m.initial = some i := by
  obtain ⟨name, registry, it, i, ms, -, hr, hit, hi, hms, rfl⟩ := ofTree_eq_ok.mp h
  exact ⟨⟨load, registry⟩, rfl, rfl, hr, hms, it, i, hit, hi, rfl⟩

/-- A machine holds one state for each site of its tree, in their order. -/
theorem declared_sites {b : Builder} {t : Tree} {m : Machine} (h : b.members [] t.children = .ok m.members) :
    List.Forall₂ b.Builds (sitesAmong none t.children) m.declared :=
  @Builder.members_sites b t.children none m.members h

/-- A machine has the names of its registry. -/
theorem declared_names {b : Builder} {t : Tree} {m : Machine} (hr : Registry.ofTree t = .ok b.registry)
    (h : b.members [] t.children = .ok m.members) : b.registry.names = m.declared.map (·.state.name) := by
  rw [Registry.names, ← List.forall₂_eq_eq_eq, List.forall₂_map_left_iff, List.forall₂_map_right_iff]
  refine (forall₂_meet (registry_sites hr) (declared_sites h)).imp fun x d hxd => ?_
  obtain ⟨s, hx, hd⟩ := hxd
  exact Option.some.inj (hx.name.symm.trans hd.name)

end Statechart
