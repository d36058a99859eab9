/-
  Statechart.Proofs.Reordering.Machine — the machines of reordered trees.

  To strip a state or a transition is to forget its identifiers and its places in the
  text. What is built at a site, stripped, depends on the site's essence and on which
  names are declared, and neither depends on the order of the states.

  Proved (`ofTree_reordered`): of two reordered trees both have a machine or none has,
  and the two machines are twins: under each name both have the same state, stripped.
  So both follow initial targets alike. An error may well differ, for of two names that
  are declared twice the first one found is complained about.
-/

import Statechart.Proofs.Reordering.Tree
import Statechart.Proofs.BigStep
import Statechart.Proofs.Renumbering.Machine

namespace Statechart

/-! ## Data without identifiers and places -/

def Id.blank : Id := .machine 0

def Location.nowhere : Location := ⟨0, 0, 0, 0⟩

def Guard.stripped (g : Guard) : Guard := { g with id := .blank }

def Assignment.stripped (a : Assignment) : Assignment := { a with id := .blank, location := .nowhere }

def Target.stripped : Target → Target
  | .state n => .state n
  | .final _ ancestors => .final .blank ancestors

def Transition.stripped (t : Transition) : Transition :=
  { t with
    id := .blank
    target := t.target.stripped
    guard := t.guard.map Guard.stripped
    assignments := t.assignments.map Assignment.stripped
    location := .nowhere
    extent := .nowhere }

def State.stripped (s : State) : State :=
  { s with id := .blank, location := none, outgoing := s.outgoing.map Transition.stripped }

/-- The parent that is noted depends on what was built before, and nothing depends on it. -/
def Initial.stripped (i : Initial) : Initial := { i with parent := none }

theorem Initial.target_of_stripped {i j : Initial} (h : i.stripped = j.stripped) : i.target = j.target := by
  simpa [Initial.stripped] using h

def Declared.stripped : Declared → Declared
  | .simple s => .simple s.stripped
  | .composite s i => .composite s.stripped (i.map Initial.stripped)

def Declared.isComposite : Declared → Bool
  | .simple _ => false
  | .composite _ _ => true

theorem Declared.isComposite_stripped (d : Declared) : d.stripped.isComposite = d.isComposite := by cases d <;> rfl

theorem Declared.state_stripped (d : Declared) : d.stripped.state = d.state.stripped := by cases d <;> rfl

theorem Declared.name_stripped (d : Declared) : d.stripped.state.name = d.state.name := by cases d <;> rfl

/-! ## Results that are alike -/

section

variable {ε α β γ : Type}

theorem need_map (p : Missing) (o : Option α) (f : α → β) : need p (o.map f) = (need p o).map f := by cases o <;> rfl

/-- What comes after two results that are alike is the same if it depends on nothing else. -/
theorem bind_alike {r r' : Except ε α} {k k' : α → Except ε γ} {g : α → β} (h : r.map g = r'.map g)
    (hk : ∀ a a', g a = g a' → k a = k' a') : (r >>= k) = (r' >>= k') := by
  cases r with
  | error e =>
    cases r' with
    | error e' => exact congrArg _ (Except.error.inj h)
    | ok a' => cases h
  | ok a =>
    cases r' with
    | error e' => cases h
    | ok a' => exact hk a a' (Except.ok.inj h)

theorem exists_alike {r r' : Except ε α} {g : α → β} {a : α} (h : r.map g = r'.map g) (hr : r = .ok a) :
    ∃ a', r' = .ok a' ∧ g a' = g a := by
  subst hr
  cases r' with
  | error e' => cases h
  | ok a' => exact ⟨a', rfl, (Except.ok.inj h).symm⟩

theorem mapM_alike {δ : Type} {f : α → Except ε β} {f' : δ → Except ε β} {g : β → γ} {as : List α} {ds : List δ}
    (h : List.Forall₂ (fun a d => (f a).map g = (f' d).map g) as ds) :
    (as.mapM f).map (List.map g) = (ds.mapM f').map (List.map g) := by
  induction h with
  | nil => rfl
  | cons had _ ih =>
    rw [List.mapM_cons, List.mapM_cons, map_bind', map_bind']
    refine bind_alike had fun b b' hb => ?_
    rw [map_bind', map_bind']
    refine bind_alike ih fun bs bs' hbs => ?_
    rw [map_pure', map_pure', List.map_cons, List.map_cons, hb, hbs]

end

/-! ## Reading trees without places -/

namespace Tree

mutual

theorem tokens_plain : ∀ t : Tree, t.plain.tokens = t.tokens.map Token.plain
  | .leaf _ => rfl
  | .fault _ => rfl
  | .node _ cs => tokensOf_plainAll cs

theorem tokensOf_plainAll : ∀ cs : List Tree, tokensOf (plainAll cs) = (tokensOf cs).map Token.plain
  | [] => rfl
  | c :: cs => by rw [plainAll, tokensOf, tokensOf, tokens_plain c, tokensOf_plainAll cs, List.map_append]

end

@[simp] theorem text_plain (t : Tree) : t.plain.text = t.text := by
  rw [text, tokens_plain, List.map_map]
  rfl

theorem isSome_tokenOf?_plain (k : Kind) (cs : List Tree) :
    (tokenOf? k (cs.map plain)).isSome = (tokenOf? k cs).isSome := by
  rw [tokenOf?_plain, Option.isSome_map]

end Tree

namespace Expr

variable {ν : Type} (number : String → Except Defect ν)

theorem ofAtom_plain (sign : Option Sign) (t : Tree) : ofAtom number sign t.plain = ofAtom number sign t := by
  simp only [ofAtom, Tree.children_plain, Tree.firstOf?_plain, Option.isSome_map, Tree.text_plain]

theorem assemble_plain (cs : List Tree) (inner : List (Except Defect (Expr ν))) :
    assemble number (cs.map Tree.plain) inner = assemble number cs inner := by
  have hsign : signOf (cs.map Tree.plain) = signOf cs := by simp only [signOf, Tree.isSome_tokenOf?_plain]
  have hoperator : operatorOf? (cs.map Tree.plain) = operatorOf? cs := by
    simp only [operatorOf?, Tree.isSome_tokenOf?_plain]
  unfold assemble
  rw [Tree.firstOf?_plain, hsign, hoperator]
  cases Tree.firstOf? .atom cs with
  | none => rfl
  | some atom => exact ofAtom_plain number _ atom

mutual

theorem ofTree_plain : ∀ t : Tree, ofTree number t.plain = ofTree number t
  | .leaf _ => rfl
  | .fault _ => rfl
  | .node n cs => by
    rw [Tree.plain, ofTree, ofTree, ofTrees_plainAll cs, Tree.plainAll_eq, assemble_plain]

theorem ofTrees_plainAll : ∀ cs : List Tree, ofTrees number (Tree.plainAll cs) = ofTrees number cs
  | [] => rfl
  | c :: cs => by
    rw [Tree.plainAll, ofTrees, ofTrees, Tree.hasRule_plain, ofTree_plain c, ofTrees_plainAll cs]

end

end Expr

theorem comparisonOf?_plain (cs : List Tree) : comparisonOf? (cs.map Tree.plain) = comparisonOf? cs := by
  simp only [comparisonOf?, Tree.isSome_tokenOf?_plain]

theorem Guard.ofTree_plain (id id' : Id) (t : Tree) :
    (Guard.ofTree id t.plain).map Guard.stripped = (Guard.ofTree id' t).map Guard.stripped := by
  simp only [Guard.ofTree, Tree.children_plain, Tree.firstOf?_plain, need_map, map_bind', bind_map, map_pure',
    Tree.text_plain, Expr.ofTree_plain, comparisonOf?_plain, Guard.stripped]

theorem Assignment.ofTree_plain (id id' : Id) (t : Tree) :
    (Assignment.ofTree id t.plain).map Assignment.stripped = (Assignment.ofTree id' t).map Assignment.stripped := by
  cases t with
  | leaf _ => rfl
  | fault _ => rfl
  | node n cs =>
    have hchildren (n : Node) (ts : List Tree) : (Tree.node n ts).children = ts := rfl
    rw [Tree.plain_node]
    simp only [Assignment.ofTree, hchildren, Tree.children_plain, Tree.firstOf?_plain, need_map, map_bind',
      bind_map, map_pure', Tree.text_plain, Expr.ofTree_plain, Node.plain, Assignment.stripped]

/-! ## Building at a site -/

namespace Builder

/-- Builders that know the same names. -/
def Alike (b b' : Builder) : Prop := ∀ n, (b.registry.find? n).isSome = (b'.registry.find? n).isSome

variable {b b' : Builder}

theorem Alike.symm (h : b.Alike b') : b'.Alike b := fun n => (h n).symm

theorem target_alike (h : b.Alike b') (source : String) (index : Nat) (around : List String) (text : String) :
    (b.target source index around text).map Target.stripped =
      (b'.target source index around text).map Target.stripped := by
  unfold target
  rw [h text]
  split
  · rfl
  · split <;> rfl

theorem assignments_plain (source : String) (index : Nat) (cs : List Tree) :
    (b.assignments source index (cs.map Tree.plain)).map (List.map Assignment.stripped) =
      (b'.assignments source index cs).map (List.map Assignment.stripped) := by
  unfold assignments
  rw [Tree.allOf_plain, List.zipIdx_map]
  refine mapM_alike ?_
  rw [List.forall₂_map_left_iff]
  exact List.forall₂_same.mpr fun a _ => Assignment.ofTree_plain _ _ a.1

theorem transition_plain (h : b.Alike b') (source : String) (around : List String) (index : Nat) (n : Node)
    (cs : List Tree) : (b.transition source around index n.plain (cs.map Tree.plain)).map Transition.stripped =
      (b'.transition source around index n cs).map Transition.stripped := by
  have hguard : ((Tree.firstOf? .guard (cs.map Tree.plain)).mapM (Guard.ofTree (.guard b.load source index))).map
        (Option.map Guard.stripped) =
      ((Tree.firstOf? .guard cs).mapM (Guard.ofTree (.guard b'.load source index))).map
        (Option.map Guard.stripped) := by
    rw [Tree.firstOf?_plain]
    cases Tree.firstOf? .guard cs with
    | none => rfl
    | some t =>
      have hsome (r : Except Defect Guard) :
          (some <$> r).map (Option.map Guard.stripped) = (r.map Guard.stripped).map some := by cases r <;> rfl
      rw [Option.map_some, Option.mapM_some, Option.mapM_some, hsome, hsome, Guard.ofTree_plain]
  -- part by part, in the order in which the builder asks for them
  simp only [transition, map_bind', Tree.tokenOf?_plain, need_map, bind_map, Node.plain]
  refine bind_congr fun arrow => ?_
  refine bind_alike hguard fun g g' hg => ?_
  refine bind_alike (assignments_plain source index cs) fun as as' has => ?_
  refine bind_congr fun head => bind_congr fun trigger => ?_
  refine bind_alike (target_alike h source index around head.text) fun t t' ht => ?_
  simp only [map_pure', Transition.stripped, hg, has, ht]
  rfl

theorem transitions_beside (h : b.Alike b') (source : String) (around : List String) (cs : List Tree) :
    (b.transitions source around (Tree.beside cs)).map (List.map Transition.stripped) =
      (b'.transitions source around cs).map (List.map Transition.stripped) := by
  unfold transitions
  rw [Tree.allOf_beside (by decide), List.zipIdx_map]
  refine mapM_alike ?_
  rw [List.forall₂_map_left_iff]
  refine List.forall₂_same.mpr fun a _ => ?_
  obtain ⟨t, i⟩ := a
  cases t with
  | leaf _ => rfl
  | fault _ => rfl
  | node n ts =>
    simp only [Prod.map, Tree.plain_node]
    exact transition_plain h source around i n ts

theorem initial_plain (h : b.Alike b') (built built' : Registry) (t : Tree) :
    (b.initial built t.plain).map Initial.stripped = (b'.initial built' t).map Initial.stripped := by
  cases t with
  | leaf _ => rfl
  | fault _ => rfl
  | node n cs =>
    rw [Tree.plain_node]
    simp only [initial, map_bind', map_pure', need_map, bind_map, Node.plain]
    refine bind_congr fun t => ?_
    have hfind := h t.text
    show (need _ (b.registry.find? t.text) >>= _) = (need _ (b'.registry.find? t.text) >>= _)
    cases hd : b.registry.find? t.text with
    | none =>
      rw [hd] at hfind
      rw [Option.isNone_iff_eq_none.mp (Option.isSome_eq_false_iff.mp hfind.symm)]
      rfl
    | some d =>
      rw [hd] at hfind
      obtain ⟨d', hd'⟩ := Option.isSome_iff_exists.mp hfind.symm
      rw [hd']
      rfl

theorem Builds.unique {s : Site} {d d' : Declared} (h : b.Builds s d) (h' : b.Builds s d') : d = d' := by
  cases h with
  | simple hname hts =>
    cases h' with
    | simple hname' hts' =>
      cases hname.symm.trans hname'
      cases hts.symm.trans hts'
      rfl
  | composite hname hit hi hts =>
    cases h' with
    | composite hname' hit' hi' hts' =>
      cases hname.symm.trans hname'
      cases hit.symm.trans hit'
      cases hi.symm.trans hi'
      cases hts.symm.trans hts'
      rfl

theorem transitions_alike (h : b.Alike b') (source : String) (around : List String) {cs cs' : List Tree}
    (hcs : Tree.beside cs = Tree.beside cs') : (b.transitions source around cs).map (List.map Transition.stripped) =
      (b'.transitions source around cs').map (List.map Transition.stripped) := by
  rw [← transitions_beside h.symm source around cs, hcs, transitions_beside (fun _ => rfl)]

theorem initial_alike (h : b.Alike b') (built built' : Registry) {cs cs' : List Tree}
    (hcs : Tree.beside cs = Tree.beside cs') {t : Tree} {i : Initial} (ht : Tree.firstOf? .initial cs = some t)
    (hi : b.initial built t = .ok i) :
    ∃ t' i', Tree.firstOf? .initial cs' = some t' ∧ b'.initial built' t' = .ok i' ∧ i'.stripped = i.stripped := by
  have hfirst := Tree.firstOf?_beside (r := .initial) (by decide) cs'
  rw [← hcs, Tree.firstOf?_beside (by decide), ht] at hfirst
  obtain ⟨t', ht', hplain⟩ := Option.map_eq_some_iff.mp hfirst.symm
  have halike : (b.initial built t).map Initial.stripped = (b'.initial built' t').map Initial.stripped := by
    rw [← initial_plain h.symm built' built t, ← hplain, initial_plain (fun _ => rfl) built' built' t']
  obtain ⟨i', hi', hstripped⟩ := exists_alike halike hi
  exact ⟨t', i', ht', hi', hstripped⟩

/-- What is built at a site depends on its essence. -/
theorem Builds.essence (h : b.Alike b') {s s' : Site} {d : Declared} (hd : b.Builds s d) (hs : s.essence = s'.essence) :
    ∃ d', b'.Builds s' d' ∧ d'.stripped = d.stripped := by
  obtain ⟨container', rule', cs'⟩ := s'
  cases hd with
  | @simple container cs name ts hname hts =>
    simp only [Site.essence, Site.mk.injEq] at hs
    obtain ⟨rfl, rfl, hcs⟩ := hs
    have hname' : Tree.nameOf? cs' = some name := Tree.nameOf?_of_beside hcs ▸ hname
    obtain ⟨ts', hts', hstripped⟩ := exists_alike (transitions_alike h name container.toList hcs) hts
    refine ⟨_, .simple hname' hts', ?_⟩
    simp only [Declared.stripped, State.stripped, state, hstripped]
  | @composite container cs name it i ts hname hit hi hts =>
    simp only [Site.essence, Site.mk.injEq] at hs
    obtain ⟨rfl, rfl, hcs⟩ := hs
    have hname' : Tree.nameOf? cs' = some name := Tree.nameOf?_of_beside hcs ▸ hname
    obtain ⟨ts', hts', hstripped⟩ := exists_alike (transitions_alike h name container.toList hcs) hts
    obtain ⟨it', i', hit', hi', hinitial⟩ := initial_alike h _ (b'.registry.before name) hcs hit hi
    refine ⟨_, .composite hname' hit' hi' hts', ?_⟩
    simp only [Declared.stripped, State.stripped, state, hstripped, Option.map_some, hinitial]

end Builder

/-! ## Declaring in another order -/

namespace Site

/-- The name that a site is declared with, if it has one and the keyword before it. -/
def title? (s : Site) : Option String :=
  match s.rule with
  | .simple => (Tree.tokenOf? .state s.children).bind fun _ => s.name?
  | .composite => (Tree.tokenOf? .composite s.children).bind fun _ => s.name?
  | _ => none

theorem title?_essence (s : Site) : s.essence.title? = s.title? := by
  unfold title? essence name?
  simp only [Tree.tokenOf?_beside, Tree.nameOf?_beside, Option.bind_map]
  rfl

variable {s : Site} {r r' : Registry}

theorem exists_declare_iff (r : Registry) (composite : Bool) (container : Option String) (cs : List Tree) :
    (∃ p, Statechart.declare r container composite cs = .ok p) ↔
      ∃ n, ((Tree.tokenOf? (if composite then .composite else .state) cs).bind fun _ => Tree.nameOf? cs) = some n ∧
        n ∉ r.names := by
  unfold Statechart.declare Tree.nameOf?
  cases Tree.tokenOf? (if composite then .composite else .state) cs with
  | none => simp [need, bind, Except.bind]
  | some keyword =>
    cases Tree.tokenOf? .name cs with
    | none => simp [need, bind, Except.bind]
    | some name =>
      by_cases hname : (r.find? name.text).isSome = true
      · simp [need, bind, Except.bind, hname, Registry.find?_isSome.mp hname, throw, throwThe, MonadExceptOf.throw]
      · have hnew : name.text ∉ r.names := fun hmem => hname (Registry.find?_isSome.mpr hmem)
        simp [need, bind, Except.bind, hname, hnew, pure, Except.pure]

/-- A site is declared if its name is new. -/
theorem declare_isOk_iff (s : Site) (r : Registry) :
    (∃ r', s.declare r = .ok r') ↔ ∃ n, s.title? = some n ∧ n ∉ r.names := by
  have hfst (p : Except Defect (Registry × String)) : (∃ r', (do return (← p).1) = Except.ok r') ↔ ∃ q, p = .ok q := by
    cases p <;> simp [bind, Except.bind, pure, Except.pure]
  unfold declare title?
  cases s.rule with
  | simple => exact (hfst _).trans (exists_declare_iff r false s.container s.children)
  | composite => exact (hfst _).trans (exists_declare_iff r true s.container s.children)
  | _ => simp

theorem declare_names (h : s.declare r = .ok r') :
    ∃ n, s.title? = some n ∧ n ∉ r.names ∧ r'.names = r.names ++ [n] := by
  obtain ⟨n, hn, hnew⟩ := (s.declare_isOk_iff r).mp ⟨r', h⟩
  obtain ⟨d, rfl, hd, -⟩ := s.declare_inv h
  have hname : s.name? = some n := by
    unfold title? at hn
    split at hn
    · obtain ⟨-, -, hn⟩ := Option.bind_eq_some_iff.mp hn
      exact hn
    · obtain ⟨-, -, hn⟩ := Option.bind_eq_some_iff.mp hn
      exact hn
    · cases hn
  refine ⟨n, hn, hnew, ?_⟩
  rw [Registry.names, List.map_append, List.map_singleton, Option.some.inj (hd.name.symm.trans hname)]
  rfl

end Site

/-- Sites are declared one after the other if all have names, and no two the same. -/
theorem declareSites_isOk_iff (ss : List Site) (r : Registry) (hr : r.names.Nodup) :
    (∃ r', ss.foldlM Site.declare r = .ok r') ↔
      (∀ s ∈ ss, s.title?.isSome = true) ∧ (r.names ++ ss.filterMap Site.title?).Nodup := by
  induction ss generalizing r with
  | nil =>
    refine iff_of_true ⟨r, rfl⟩ ⟨?_, ?_⟩
    · simp
    · simpa using hr
  | cons s ss ih =>
    rw [List.foldlM_cons, exists_bind_eq_ok]
    constructor
    · intro h
      obtain ⟨r1, h1, h⟩ := h
      obtain ⟨n, hn, hnew, hnames⟩ := Site.declare_names h1
      have hr1 : r1.names.Nodup := by
        rw [hnames]
        exact hr.append (List.nodup_singleton _) (by simpa using hnew)
      obtain ⟨htitles, hnodup⟩ := (ih r1 hr1).mp h
      refine ⟨List.forall_mem_cons.mpr ⟨by rw [hn]; rfl, htitles⟩, ?_⟩
      rw [hnames, List.append_assoc] at hnodup
      rw [List.filterMap_cons_some hn]
      exact hnodup
    · intro h
      obtain ⟨htitles, hnodup⟩ := h
      obtain ⟨hs, htitles⟩ := List.forall_mem_cons.mp htitles
      obtain ⟨n, hn⟩ := Option.isSome_iff_exists.mp hs
      rw [List.filterMap_cons_some hn, List.append_cons] at hnodup
      have hr1 : (r.names ++ [n]).Nodup := (List.nodup_append.mp hnodup).1
      have hnew : n ∉ r.names := fun hmem => (List.nodup_append.mp hr1).2.2 n hmem n List.mem_cons_self rfl
      obtain ⟨r1, h1⟩ := (s.declare_isOk_iff r).mpr ⟨n, hn, hnew⟩
      obtain ⟨n', hn', -, hnames⟩ := Site.declare_names h1
      cases hn.symm.trans hn'
      rw [← hnames] at hr1 hnodup
      exact ⟨r1, h1, (ih r1 hr1).mpr ⟨htitles, hnodup⟩⟩

theorem declareSites_names {ss : List Site} {r r' : Registry} (h : ss.foldlM Site.declare r = .ok r') :
    r'.names = r.names ++ ss.filterMap Site.title? := by
  induction ss generalizing r with
  | nil =>
    obtain rfl := pure_eq_ok.mp h
    simp
  | cons s ss ih =>
    obtain ⟨r1, h1, h⟩ := bind_eq_ok.mp h
    obtain ⟨n, hn, -, hnames⟩ := Site.declare_names h1
    rw [ih h, hnames, List.filterMap_cons_some hn, List.append_assoc]
    rfl

/-- Sites that can be declared can be declared in any order, and the same names then are. -/
theorem declareSites_perm {ss ss' : List Site} (hp : (ss.map Site.essence).Perm (ss'.map Site.essence)) {r : Registry}
    (h : ss.foldlM Site.declare [] = .ok r) :
    ∃ r', ss'.foldlM Site.declare [] = .ok r' ∧ r.names.Perm r'.names := by
  have htitles (l : List Site) : (l.map Site.essence).map Site.title? = l.map Site.title? := by
    rw [List.map_map]
    exact List.map_congr_left fun s _ => s.title?_essence
  have hperm : (ss.map Site.title?).Perm (ss'.map Site.title?) := by
    rw [← htitles ss, ← htitles ss']
    exact hp.map _
  have hnames : (ss.filterMap Site.title?).Perm (ss'.filterMap Site.title?) := by
    have hid (l : List Site) : l.filterMap Site.title? = (l.map Site.title?).filterMap id := by
      rw [List.filterMap_map]
      rfl
    rw [hid ss, hid ss']
    exact hperm.filterMap id
  obtain ⟨hsome, hnodup⟩ := (declareSites_isOk_iff ss [] List.nodup_nil).mp ⟨r, h⟩
  have hsome' : ∀ s ∈ ss', s.title?.isSome = true := by
    intro s' hs'
    obtain ⟨s, hs, htitle⟩ := List.mem_map.mp (hperm.mem_iff.mpr (List.mem_map_of_mem hs'))
    rw [← htitle]
    exact hsome s hs
  obtain ⟨r', h'⟩ := (declareSites_isOk_iff ss' [] List.nodup_nil).mpr ⟨hsome', hnames.nodup_iff.mp hnodup⟩
  refine ⟨r', h', ?_⟩
  rw [declareSites_names h, declareSites_names h']
  exact hnames

/-! ## Twins -/

/-- Machines with the same states, stripped. -/
structure Machine.Twin (m m' : Machine) : Prop where
  name : m.name = m'.name
  initial : m.initial.map Initial.stripped = m'.initial.map Initial.stripped
  find : ∀ n, (m.find? n).map Declared.stripped = (m'.find? n).map Declared.stripped
  size : m.declared.length = m'.declared.length

theorem Builder.alike_of_perm {b b' : Builder} (h : b.registry.names.Perm b'.registry.names) : b.Alike b' := by
  intro n
  rw [Bool.eq_iff_iff, Registry.find?_isSome, Registry.find?_isSome]
  exact h.mem_iff

/-- A state of one machine is a state of the other. -/
theorem exists_find?_of_sites {b b' : Builder} {m m' : Machine} {ss ss' : List Site} (hb : b.Alike b')
    (hp : (ss.map Site.essence).Perm (ss'.map Site.essence)) (hds : List.Forall₂ b.Builds ss m.declared)
    (hds' : List.Forall₂ b'.Builds ss' m'.declared) (hwf : m'.WellFormed) {n : String} {d : Declared}
    (h : m.find? n = some d) : ∃ d', m'.find? n = some d' ∧ d'.stripped = d.stripped := by
  obtain ⟨s, hs, hd⟩ := exists_of_forall₂ hds d (List.mem_of_find?_eq_some h)
  obtain ⟨s', hs', hessence⟩ := List.mem_map.mp (hp.mem_iff.mp (List.mem_map_of_mem hs))
  obtain ⟨d', hmem, hd'⟩ := exists_of_forall₂ (List.Forall₂.flip hds') s' hs'
  obtain ⟨d'', hd'', hstripped⟩ := hd.essence hb hessence.symm
  obtain rfl := hd''.unique hd'
  have hname : d''.state.name = n := by
    rw [← Declared.name_stripped, hstripped, Declared.name_stripped]
    simpa using List.find?_some h
  exact ⟨d'', hname ▸ hwf.find? hmem, hstripped⟩

theorem find?_of_sites {b b' : Builder} {m m' : Machine} {ss ss' : List Site} (hb : b.Alike b')
    (hp : (ss.map Site.essence).Perm (ss'.map Site.essence)) (hds : List.Forall₂ b.Builds ss m.declared)
    (hds' : List.Forall₂ b'.Builds ss' m'.declared) (hwf : m.WellFormed) (hwf' : m'.WellFormed) (n : String) :
    (m.find? n).map Declared.stripped = (m'.find? n).map Declared.stripped := by
  cases h : m.find? n with
  | some d =>
    obtain ⟨d', hd', hstripped⟩ := exists_find?_of_sites hb hp hds hds' hwf' h
    rw [hd', Option.map_some, Option.map_some, hstripped]
  | none =>
    cases h' : m'.find? n with
    | none => rfl
    | some d' =>
      obtain ⟨d, hd, -⟩ := exists_find?_of_sites hb.symm hp.symm hds' hds hwf h'
      rw [h] at hd
      cases hd

/-- A tree whose sites are those of another in another order has a machine if the other has, and its twin. -/
theorem exists_twin {t t' : Tree} {m : Machine} {load : Nat} (load' : Nat)
    (hbeside : Tree.beside t.children = Tree.beside t'.children)
    (hp : ((sitesAmong none t.children).map Site.essence).Perm ((sitesAmong none t'.children).map Site.essence))
    (h : Machine.ofTree load t = .ok m) : ∃ m', Machine.ofTree load' t' = .ok m' ∧ m.Twin m' := by
  have hwf := ofTree_wellFormed h
  obtain ⟨tok, r, it, i, ms, htok, hr, hit, hi, hms, rfl⟩ := ofTree_eq_ok.mp h
  have htoken := Tree.tokenOf?_beside .name t'.children
  rw [← hbeside, Tree.tokenOf?_beside, htok] at htoken
  obtain ⟨tok', htok', hplain⟩ := Option.map_eq_some_iff.mp htoken.symm
  rw [Registry.ofTree, declareStates_eq_foldlM] at hr
  obtain ⟨r', hr', hnames⟩ := declareSites_perm hp hr
  have hb : Builder.Alike ⟨load, r⟩ ⟨load', r'⟩ := Builder.alike_of_perm hnames
  obtain ⟨it', i', hit', hi', hinitial⟩ := Builder.initial_alike hb [] [] hbeside hit hi
  have hds := @Builder.members_sites ⟨load, r⟩ t.children none ms hms
  obtain ⟨ms', hms'⟩ := (@Builder.members_isOk_iff ⟨load', r'⟩ t'.children none).mpr (by
    intro s' hs'
    obtain ⟨s, hs, hessence⟩ := List.mem_map.mp (hp.mem_iff.mpr (List.mem_map_of_mem hs'))
    obtain ⟨d, -, hd⟩ := exists_of_forall₂ (List.Forall₂.flip hds) s hs
    obtain ⟨d', hd', -⟩ := hd.essence hb hessence
    exact ⟨d', hd'⟩)
  have hds' := @Builder.members_sites ⟨load', r'⟩ t'.children none ms' hms'
  have hregistry : Registry.ofTree t' = .ok r' := by
    rw [Registry.ofTree, declareStates_eq_foldlM, hr']
  have hm' := ofTree_eq_ok.mpr ⟨tok', r', it', i', ms', htok', hregistry, hit', hi', hms', rfl⟩
  refine ⟨_, hm', ?_, ?_, ?_, ?_⟩
  · exact (congrArg Token.text hplain).symm
  · exact congrArg some hinitial.symm
  · intro n
    apply find?_of_sites hb hp ?_ ?_ hwf (ofTree_wellFormed hm') n
    · exact hds
    · exact hds'
  · calc (declaredAll ms).length = (sitesAmong none t.children).length := hds.length_eq.symm
      _ = (sitesAmong none t'.children).length := by simpa using hp.length_eq
      _ = (declaredAll ms').length := hds'.length_eq

/-- Of two reordered trees both have a machine or none has, and the machines are twins. -/
theorem ofTree_reordered {t t' : Tree} (h : t.Reorders t') (ht : t.hasRule .machine = true) (load load' : Nat) :
    ((∃ e, Machine.ofTree load t = .error e) ∧ ∃ e, Machine.ofTree load' t' = .error e) ∨
      ∃ m m', Machine.ofTree load t = .ok m ∧ Machine.ofTree load' t' = .ok m' ∧ m.Twin m' := by
  have hstate : t.hasRule .state = false := by
    cases t with
    | node n cs => simp [Tree.hasRule, beq_iff_eq.mp ht]
    | leaf _ => rfl
    | fault _ => rfl
  obtain ⟨hbeside, hp⟩ := h.sites.among hstate
  cases hm : Machine.ofTree load t with
  | ok m =>
    obtain ⟨m', hm', htwin⟩ := exists_twin load' hbeside (hp none) hm
    exact Or.inr ⟨m, m', rfl, hm', htwin⟩
  | error e =>
    cases hm' : Machine.ofTree load' t' with
    | error e' => exact Or.inl ⟨⟨e, rfl⟩, e', rfl⟩
    | ok m' =>
      obtain ⟨m, hok, -⟩ := exists_twin load hbeside.symm (hp none).symm hm'
      rw [hm] at hok
      cases hok

namespace Machine

variable {m m' : Machine}

namespace Twin

theorem state? (h : m.Twin m') (n : String) : (m.state? n).map State.stripped = (m'.state? n).map State.stripped := by
  have hstate (o : Option Declared) :
      (o.map Declared.state).map State.stripped = (o.map Declared.stripped).map Declared.state := by
    cases o with
    | none => rfl
    | some d => rw [Option.map_some, Option.map_some, Option.map_some, Option.map_some, d.state_stripped]
  rw [Machine.state?, Machine.state?, hstate, hstate, h.find n]

/-- What can be told of a stripped state is the same in both machines. -/
theorem of_state? (h : m.Twin m') {α : Type} (f : State → α) (hf : ∀ s, f s.stripped = f s) (n : String) :
    (m.state? n).map f = (m'.state? n).map f := by
  have hmap (o : Option State) : o.map f = (o.map State.stripped).map f := by
    cases o with
    | none => rfl
    | some s => rw [Option.map_some, Option.map_some, Option.map_some, hf]
  rw [hmap, hmap (m'.state? n), h.state? n]

theorem lineage (h : m.Twin m') (n : String) : m.lineage n = m'.lineage n := by
  rw [Machine.lineage, Machine.lineage, h.of_state? State.ancestors (fun _ => rfl) n]

theorem outgoing (h : m.Twin m') (n : String) :
    (m.outgoing n).map Transition.stripped = (m'.outgoing n).map Transition.stripped := by
  have hout (o : Option State) : ((o.map State.outgoing).getD []).map Transition.stripped =
      ((o.map State.stripped).map State.outgoing).getD [] := by cases o <;> rfl
  rw [Machine.outgoing, Machine.outgoing, hout, hout, h.state? n]

theorem follow (h : m.Twin m') (fuel : Nat) (n : String) : m.follow fuel n = m'.follow fuel n := by
  induction fuel generalizing n with
  | zero => rfl
  | succ fuel ih =>
    have hfind := h.find n
    rw [Machine.follow, Machine.follow]
    cases hd : m.find? n with
    | none =>
      rw [hd] at hfind
      rw [Option.map_eq_none_iff.mp hfind.symm]
    | some d =>
      rw [hd] at hfind
      obtain ⟨d', hd', hstripped⟩ := Option.map_eq_some_iff.mp hfind.symm
      rw [hd']
      -- both are of one kind, and have one initial target
      cases d with
      | simple s =>
        cases d' with
        | simple s' => rfl
        | composite s' i' => cases hstripped
      | composite s i =>
        cases d' with
        | simple s' => cases hstripped
        | composite s' i' =>
          simp only [Declared.stripped, Declared.composite.injEq] at hstripped
          cases i with
          | none => rw [Option.map_eq_none_iff.mp hstripped.2]
          | some i =>
            obtain ⟨j, rfl, hj⟩ := Option.map_eq_some_iff.mp hstripped.2
            have htarget : j.target = i.target := Initial.target_of_stripped hj
            dsimp only
            rw [htarget, ih]

theorem nested (h : m.Twin m') (n : String) : m.nested n = m'.nested n := by
  rw [Machine.nested, Machine.nested, h.size, h.follow]

theorem start (h : m.Twin m') : m.start = m'.start := by
  have hinitial := h.initial
  unfold Machine.start
  cases hi : m.initial with
  | none =>
    rw [hi] at hinitial
    rw [Option.map_eq_none_iff.mp hinitial.symm]
  | some i =>
    rw [hi] at hinitial
    obtain ⟨i', hi', hstripped⟩ := Option.map_eq_some_iff.mp hinitial.symm
    have htarget : i'.target = i.target := Initial.target_of_stripped hstripped
    rw [hi']
    dsimp only
    rw [htarget, h.nested]

end Twin

/-- Machines that agree name by name: under each name both have a state of one kind with one parent, that entering
    ends alike, and with one list of transitions. -/
structure Agrees (m m' : Machine) : Prop where
  kind : ∀ n, (m.find? n).map Declared.isComposite = (m'.find? n).map Declared.isComposite
  parent : ∀ n, (m.state? n).map State.parent? = (m'.state? n).map State.parent?
  nested : ∀ n, m.nested n = m'.nested n
  outgoing : ∀ n, (m.outgoing n).map Transition.stripped = (m'.outgoing n).map Transition.stripped

theorem Twin.agrees (h : m.Twin m') : m.Agrees m' := by
  refine ⟨?_, h.of_state? State.parent? (fun _ => rfl), h.nested, h.outgoing⟩
  intro n
  have hkind (o : Option Declared) :
      o.map Declared.isComposite = (o.map Declared.stripped).map Declared.isComposite := by
    cases o with
    | none => rfl
    | some d => rw [Option.map_some, Option.map_some, Option.map_some, d.isComposite_stripped]
  rw [hkind, hkind (m'.find? n), h.find n]

end Machine

end Statechart
