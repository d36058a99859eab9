/-
  Statechart.Proofs.Growth — the lists of transitions that grow while a machine is built.

  Building enters each transition into two lists and fills in what leaves a state at the
  end. `Builder.member` builds a state with its transitions at once and enters nothing,
  and `Machine.assemble` a whole machine so; this is the shape that proofs about machines
  go by, and both ways build the same.
  - `under_enter`: one transition more stands behind the others under its own key, and no
    other key has it. `under_foldl_enter`: so a list is made of the transitions that were
    entered under its key, in the order of entering.
  - `visit_eq`: what is built with growing lists is what is built at once, and the lists
    have grown by its transitions. The induction is on the tree, from any lists.
  - `fill_bare`: filling in gives back the transitions of each state, if the lists have them.
-/

import Statechart.Machine.OfTree

namespace Statechart

/-! ## Results of results -/

section

variable {ε α β γ : Type}

theorem bind_map (r : Except ε α) (g : α → β) (f : β → Except ε γ) : (r.map g >>= f) = r >>= fun a => f (g a) := by
  cases r <;> rfl

theorem map_bind' (r : Except ε α) (f : α → Except ε β) (g : β → γ) :
    (r >>= f).map g = r >>= fun a => (f a).map g := by
  cases r <;> rfl

theorem map_pure' (a : α) (g : α → β) : (pure a : Except ε α).map g = pure (g a) := rfl

/-- What is done with a result matters only where there is one. -/
theorem bind_congr_ok {r : Except ε α} {f g : α → Except ε β} (h : ∀ a, r = .ok a → f a = g a) :
    (r >>= f) = r >>= g := by
  cases r with
  | error e => rfl
  | ok a => exact h a rfl

end

/-! ## Lists under keys -/

namespace Lists

variable {α : Type} [DecidableEq α]

theorem under_enter (l : Lists α) (k j : α) (e : Transition) :
    (l.enter k e).under j = if k = j then l.under j ++ [e] else l.under j := by
  induction l with
  | nil => simp [enter, under]
  | cons x l ih =>
    obtain ⟨i, es⟩ := x
    unfold enter
    by_cases hik : i = k
    · subst hik
      by_cases hij : i = j <;> simp [under, hij]
    · rw [if_neg hik, under, ih, under]
      by_cases hij : i = j
      · subst hij
        simp [Ne.symm hik]
      · simp [hij]

/-- Transitions entered one after the other stand behind what is there, each under its key. -/
theorem under_foldl_enter (l : Lists α) (key : Transition → α) (es : List Transition) (k : α) :
    (es.foldl (fun l e => l.enter (key e) e) l).under k = l.under k ++ es.filter fun e => key e = k := by
  induction es generalizing l with
  | nil => simp
  | cons e es ih =>
    rw [List.foldl_cons, ih]
    by_cases h : key e = k <;> simp [under_enter, h]

end Lists

namespace Links

theorem enterAll_append (l : Links) (es fs : List Transition) :
    l.enterAll (es ++ fs) = (l.enterAll es).enterAll fs := List.foldl_append

theorem enterAll_outgoing (l : Links) (es : List Transition) (n : String) :
    (l.enterAll es).outgoing.under n = l.outgoing.under n ++ es.filter fun e => e.source = n := by
  have hfold : es.foldl (fun o e => o.enter e.source e) l.outgoing = (l.enterAll es).outgoing :=
    List.foldl_hom outgoing fun _ _ => rfl
  rw [← hfold, Lists.under_foldl_enter]

theorem enterAll_incoming (l : Links) (es : List Transition) (x : Target) :
    (l.enterAll es).incoming.under x = l.incoming.under x ++ es.filter fun e => e.target = x := by
  have hfold : es.foldl (fun o e => o.enter e.target e) l.incoming = (l.enterAll es).incoming :=
    List.foldl_hom incoming fun _ _ => rfl
  rw [← hfold, Lists.under_foldl_enter]

end Links

/-! ## Building at once -/

namespace Builder

mutual

/-- The state of a tree inside `around`, with its transitions. -/
def member (b : Builder) (around : List String) : Tree → Except Defect Member
  | .node n cs =>
    match n.rule with
    | .state => b.firstMember around cs
    | .simple => do
      let name ← need .stateName (Tree.tokenOf? .name cs)
      return .simple (b.state name.text around (← b.transitions name.text around cs))
    | .composite => do
      let name ← need .stateName (Tree.tokenOf? .name cs)
      let i ← need .compositeInitial (Tree.firstOf? .initial cs)
      let i ← b.initial (b.registry.before name.text) i
      let ts ← b.transitions name.text around cs
      return .composite (b.state name.text [] ts) (some i) (← b.members [name.text] cs)
    | _ => return .hole
  | _ => return .hole

def firstMember (b : Builder) (around : List String) : List Tree → Except Defect Member
  | [] => .error .emptyState
  | c :: _ => b.member around c

/-- The states among some children. -/
def members (b : Builder) (around : List String) : List Tree → Except Defect (List Member)
  | [] => return []
  | c :: cs =>
    if c.hasRule .state then do
      let m ← b.member around c
      return m :: (← b.members around cs)
    else b.members around cs

end

end Builder

/-- The transitions of some states, in the order of the states. -/
def departures (ds : List Declared) : List Transition := ds.flatMap fun d => d.state.outgoing

/-- The machine of a tree, with the transitions of a state in the state from the start. -/
def Machine.assemble (load : Nat) (t : Tree) : Except Defect Machine := do
  let cs := t.children
  let name ← need .machineName (Tree.tokenOf? .name cs)
  let registry ← Registry.ofTree t
  let b : Builder := ⟨load, registry⟩
  let i ← need .initialSection (Tree.firstOf? .initial cs)
  let i ← b.initial [] i
  let ms ← b.members [] cs
  return ⟨load, name.text, some i, ms, (Links.empty.enterAll (departures (declaredAll ms))).incoming⟩

/-! ## Both ways build the same -/

mutual

/-- A member before anything is filled in. -/
def Member.bare : Member → Member
  | .simple s => .simple { s with outgoing := [] }
  | .composite s i ms => .composite { s with outgoing := [] } i (bareAll ms)
  | .hole => .hole

def bareAll : List Member → List Member
  | [] => []
  | m :: ms => m.bare :: bareAll ms

end

/-- The lists once the transitions of a member are entered, and the member without them. -/
def Links.grow (l : Links) (m : Member) : Links × Member := (l.enterAll (departures m.declared), m.bare)

/-- The lists once the transitions of some members are entered, and the members without them. -/
def Links.growAll (l : Links) (ms : List Member) : Links × List Member :=
  (l.enterAll (departures (declaredAll ms)), bareAll ms)

theorem Links.growAll_cons (l : Links) (m : Member) (ms : List Member) :
    l.growAll (m :: ms) = (((l.grow m).1.growAll ms).1, (l.grow m).2 :: bareAll ms) := by
  simp only [growAll, grow, declaredAll, departures, List.flatMap_append, enterAll_append, bareAll]

namespace Builder

mutual

theorem visit_eq (b : Builder) : ∀ (t : Tree) (around : List String) (l : Links),
    b.visit around l t = (b.member around t).map l.grow
  | .leaf _, _, _ => rfl
  | .fault _, _, _ => rfl
  | .node n cs, around, l => by
    unfold visit member
    cases hrule : n.rule with
    | state => exact visitFirst_eq b cs around l
    | simple =>
      simp only [map_bind', map_pure', Links.grow, Member.declared, departures, List.flatMap_singleton]
      rfl
    | composite =>
      simp only [map_bind', map_pure', visitStates_eq b cs, bind_map, Links.grow, Links.growAll, Member.declared,
        departures, List.flatMap_cons, Links.enterAll_append]
      rfl
    | _ => rfl

theorem visitFirst_eq (b : Builder) : ∀ (cs : List Tree) (around : List String) (l : Links),
    b.visitFirst around l cs = (b.firstMember around cs).map l.grow
  | [], _, _ => rfl
  | c :: _, around, l => visit_eq b c around l

theorem visitStates_eq (b : Builder) : ∀ (cs : List Tree) (around : List String) (l : Links),
    b.visitStates around l cs = (b.members around cs).map l.growAll
  | [], _, _ => rfl
  | c :: cs, around, l => by
    unfold visitStates members
    split
    · simp only [map_bind', map_pure', visit_eq b c, visitStates_eq b cs, bind_map, Links.growAll_cons]
      rfl
    · exact visitStates_eq b cs around l

end

end Builder

mutual

theorem Member.fill_bare {l : Lists String} : ∀ m : Member,
    (∀ d ∈ m.declared, l.under d.state.name = d.state.outgoing) → m.bare.fill l = m
  | .simple s, h => by
    have hs : l.under s.name = s.outgoing := h (.simple s) (by simp [Member.declared])
    simp only [Member.bare, Member.fill, hs]
  | .composite s i ms, h => by
    have hs : l.under s.name = s.outgoing := h (.composite s i) (by simp [Member.declared])
    have hms := fillAll_bareAll ms fun d hd => h d (by simp [Member.declared, hd])
    simp only [Member.bare, Member.fill, hs, hms]
  | .hole, _ => rfl

theorem fillAll_bareAll {l : Lists String} : ∀ ms : List Member,
    (∀ d ∈ declaredAll ms, l.under d.state.name = d.state.outgoing) → fillAll l (bareAll ms) = ms
  | [], _ => rfl
  | m :: ms, h => by
    have hm := m.fill_bare fun d hd => h d (by simp [declaredAll, hd])
    have hms := fillAll_bareAll ms fun d hd => h d (by simp [declaredAll, hd])
    simp only [bareAll, fillAll, hm, hms]

end

/-- None of the transitions of states with other names leaves a state. -/
theorem departures_of_others {ds : List Declared} {n : String}
    (hsource : ∀ d ∈ ds, ∀ e ∈ d.state.outgoing, e.source = d.state.name) (hn : ∀ d ∈ ds, d.state.name ≠ n) :
    (departures ds).filter (fun e => e.source = n) = [] := by
  rw [List.filter_eq_nil_iff]
  intro e he hname
  obtain ⟨d, hd, he⟩ := List.mem_flatMap.mp he
  exact hn d hd ((hsource d hd e he).symm.trans (of_decide_eq_true hname))

/-- Of the transitions of states with distinct names, those that leave one state are its own. -/
theorem departures_of_source {ds : List Declared} (hnames : (ds.map (·.state.name)).Nodup)
    (hsource : ∀ d ∈ ds, ∀ e ∈ d.state.outgoing, e.source = d.state.name) {d : Declared} (hd : d ∈ ds) :
    (departures ds).filter (fun e => e.source = d.state.name) = d.state.outgoing := by
  -- the states before it and behind it have other names
  obtain ⟨xs, ys, rfl⟩ := List.append_of_mem hd
  have hxs : (departures xs).filter (fun e => e.source = d.state.name) = [] := by
    refine departures_of_others (fun k hk => hsource k (by simp [hk])) ?_
    intro k hk heq
    rw [List.map_append, List.nodup_append] at hnames
    exact hnames.2.2 _ (List.mem_map_of_mem hk) _ (List.mem_map_of_mem List.mem_cons_self) heq
  have hys : (departures ys).filter (fun e => e.source = d.state.name) = [] := by
    refine departures_of_others (fun k hk => hsource k (by simp [hk])) ?_
    intro k hk heq
    rw [List.map_append, List.map_cons, List.nodup_append, List.nodup_cons] at hnames
    exact hnames.2.1.1 (heq ▸ List.mem_map_of_mem hk)
  have hown : d.state.outgoing.filter (fun e => e.source = d.state.name) = d.state.outgoing :=
    List.filter_eq_self.mpr fun e he => decide_eq_true (hsource d hd e he)
  have hsplit : departures (xs ++ d :: ys) = departures xs ++ (d.state.outgoing ++ departures ys) := by
    simp only [departures, List.flatMap_append, List.flatMap_cons]
  rw [hsplit, List.filter_append, List.filter_append, hxs, hown, hys, List.nil_append, List.append_nil]

end Statechart
