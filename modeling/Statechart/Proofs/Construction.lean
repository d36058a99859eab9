/-
  Statechart.Proofs.Construction — the machine that is built from the text of a chart.

  A machine realizes a chart if it has its states in their places, each with its
  transitions in their order: with the target, the trigger, the guard and the assignments
  that are written. Numbers are those that the texts stand for (`Expr.valued`).

  A tree that depicts a chart and is faithful to the text has all that is asked for in
  building each of its parts. What is left are the names: no two states may share one, and
  what is led to must be declared (`Chart.Correct`).

  Proved (`Chart.Correct.built`): the text of a correct chart is read without complaint, and
  a machine is built from it that realizes the chart.
-/

import Statechart.Proofs.Buildable
import Statechart.Proofs.Depiction

namespace Statechart

open Lexer (First)
open Statechart.Parser (Nodes)
open Text (Pattern)

/-! ## Numbers and quoted texts -/

/-- The number that a text stands for; texts that are no numbers are not asked for. -/
def numeral (s : String) : Float := (readFloat? s).getD 0

theorem readNumber_of_first {s : String} (h : First .number s.toList) : readNumber s = .ok (numeral s) := by
  obtain ⟨x, hx⟩ := readNumber_isOk h.1
  unfold readNumber at hx ⊢
  unfold numeral
  cases hs : readFloat? s with
  | none =>
    rw [hs] at hx
    cases hx
  | some y => rfl

/-- An expression with its numbers read. -/
def Expr.valued : Expr String → Expr Float
  | .binary op l r => .binary op l.valued r.valued
  | .paren s e => .paren s e.valued
  | .number s x => .number s (numeral x)
  | .variable s x => .variable s x

theorem Yields.valued {e : Expr String} {cs : List Tree} (h : Yields literal cs e) (he : e.Writable) :
    Yields readNumber cs e.valued := by
  induction h with
  | binary hl ht hm _ _ ihl ihr => exact .binary hl ht hm (ihl he.1) (ihr he.2)
  | paren hs hn ht _ ih => exact .paren hs hn ht (ih he)
  | @number sign x a b ss t hs ha hb ht hx =>
    have htext : t.text = x := Except.ok.inj hx
    rw [← htext] at he ⊢
    exact .number hs ha hb ht (readNumber_of_first he)
  | _ hs ha hb ht => exact .variable hs ha hb ht

/-- What stands for an expression is read into it. -/
theorem Stands.valued {e : Expr String} {n : Node} {cs : List Tree} (h : Stands e cs) (he : e.Writable)
    (hf : (Tree.node n cs).Faithful) (hn : n.rule = .expression) :
    Expr.ofTree readNumber (.node n cs) = .ok e.valued := by
  obtain ⟨e', hyields⟩ : ∃ e', Yields literal cs e' := hf.yields (fun s _ => ⟨s, rfl⟩) (beq_iff_eq.mpr hn)
  have heq : Except.ok e' = Except.ok e := (hyields.ofTree n).symm.trans (h.ofTree n)
  cases heq
  exact (hyields.valued he).ofTree n

/-- There are no marks inside a text. -/
theorem mark_notMem_of_star {u : List Char} (h : (Pattern.star (.range [Kind.lower, Kind.upper])).Matches u) :
    '\'' ∉ u := by
  generalize hp : Pattern.star (.range [Kind.lower, Kind.upper]) = p at h
  induction h with
  | done => exact List.not_mem_nil
  | more hc _ _ ih =>
    cases hp
    cases hc with
    | range hc =>
      refine List.not_mem_append (fun hmem => ?_) (ih rfl)
      rw [← List.mem_singleton.mp hmem] at hc
      revert hc
      decide
  | _ => cases hp

theorem mark_notMem {s : String} (h : First .text (Kind.quoted s).toList) : '\'' ∉ s.toList := by
  have hquoted : (Kind.quoted s).toList = '\'' :: (s.toList ++ ['\'']) := by simp [Kind.quoted]
  have hmatch := hquoted ▸ h.1
  generalize hw : '\'' :: (s.toList ++ ['\'']) = w at hmatch
  cases hmatch with
  | @seq _ _ u v hu hv =>
    cases hv with
    | @seq _ _ v x hv hx =>
      rw [Pattern.eq_of_matches_char hu, Pattern.eq_of_matches_char hx] at hw
      obtain rfl : s.toList = v := List.append_cancel_right (List.cons.inj hw).2
      generalize s.toList = cs at hv
      cases hv with
      | seq hc hcs => exact mark_notMem_of_star (.more hc hcs)

theorem dropWhile_of_mark_notMem {cs : List Char} (h : '\'' ∉ cs) : cs.dropWhile (· == '\'') = cs := by
  cases cs with
  | nil => rfl
  | cons c cs =>
    refine List.dropWhile_cons_of_neg fun hc => h ?_
    rw [← beq_iff_eq.mp hc]
    exact List.mem_cons_self

theorem unquoted_quoted {s : String} (h : '\'' ∉ s.toList) : unquoted (Kind.quoted s) = s := by
  have hquoted : (Kind.quoted s).toList = '\'' :: (s.toList ++ ['\'']) := by simp [Kind.quoted]
  have hleft : ((Kind.quoted s).toList.dropWhile (· == '\'')).reverse.dropWhile (· == '\'') = s.toList.reverse := by
    rw [hquoted, List.dropWhile_cons_of_pos (by decide), List.dropWhile_append, dropWhile_of_mark_notMem h]
    by_cases hs : s.toList = []
    · simp [hs]
    · rw [if_neg (by simpa using hs), List.reverse_append, List.reverse_singleton, List.singleton_append,
        List.dropWhile_cons_of_pos (by decide), dropWhile_of_mark_notMem (by simpa using h)]
  rw [unquoted, hleft, List.reverse_reverse, String.ofList_toList]

/-! ## Realizations -/

def Target.name? : Target → Option String
  | .state n => some n
  | .final _ _ => none

/-- The transition is as it is written. -/
structure Arrow.Realized (a : Arrow) (t : Transition) : Prop where
  target : t.target.name? = a.target
  trigger : t.trigger = a.trigger
  guard : t.guard.map (fun g => (g.name, g.comparison, g.expression)) =
    a.guard.map fun c => (c.name, some c.comparison, c.expression.valued)
  assignments : t.assignments.map (fun x => (x.name, x.expression)) = a.assignments.map fun x => (x.1, x.2.valued)

/-- The state is as it is written, and so are those inside it. -/
inductive Draft.Realized : Draft → Member → Prop
  | simple {x : String} {as : List Arrow} {s : State} : s.name = x → List.Forall₂ Arrow.Realized as s.outgoing →
      Realized (.simple x as) (.simple s)
  | composite {x i : String} {as : List Arrow} {ds : List Draft} {s : State} {j : Initial} {ms : List Member} :
      s.name = x → List.Forall₂ Arrow.Realized as s.outgoing → j.target = i → List.Forall₂ Realized ds ms →
      Realized (.composite x as i ds) (.composite s (some j) ms)

structure Chart.Realized (c : Chart) (m : Machine) : Prop where
  name : m.name = c.name
  initial : m.initial.map Initial.target = some c.initial
  members : List.Forall₂ Draft.Realized c.states m.members

theorem Target.eq_state_of_name? {t : Target} {x : String} (h : t.name? = some x) : t = .state x := by
  cases t with
  | state y => rw [Option.some.inj h]
  | final _ _ => cases h

theorem Target.eq_final_of_name? {t : Target} (h : t.name? = none) : ∃ i ancestors, t = .final i ancestors := by
  cases t with
  | state n => cases h
  | final i ancestors => exact ⟨i, ancestors, rfl⟩

theorem Arrow.Realized.outgoing {as : List Arrow} {ts : List Transition} (h : List.Forall₂ Arrow.Realized as ts) :
    ts.map (fun t => (t.trigger, t.target.name?)) = as.map fun a => (a.trigger, a.target) := by
  induction h with
  | nil => rfl
  | cons hfirst _ ih => rw [List.map_cons, List.map_cons, ih, hfirst.trigger, hfirst.target]

/-- States without states inside them are built into simple states. -/
theorem Draft.realized_simple {name : Nat → String} {arrows : Nat → List Arrow} {is : List Nat} {ms : List Member}
    (h : List.Forall₂ Draft.Realized (is.map fun i => .simple (name i) (arrows i)) ms) :
    ∃ states : List State, ms = states.map .simple ∧ states.map State.name = is.map name ∧
      List.Forall₂ (fun i s => List.Forall₂ Arrow.Realized (arrows i) s.outgoing) is states := by
  induction is generalizing ms with
  | nil =>
    cases h
    exact ⟨[], rfl, rfl, .nil⟩
  | cons i is ih =>
    cases h with
    | cons hfirst hrest =>
      cases hfirst with
      | @simple _ _ s hname harrows =>
        obtain ⟨states, rfl, hnames, hall⟩ := ih hrest
        exact ⟨s :: states, rfl, by rw [List.map_cons, List.map_cons, hname, hnames], .cons harrows hall⟩

/-! ## Charts that can be built -/

def Arrow.Scoped (names : List String) (a : Arrow) : Prop := ∀ x, a.target = some x → x ∈ names

theorem Arrow.scoped_some {names : List String} {a : Arrow} {x : String} (h : a.target = some x) (hx : x ∈ names) :
    a.Scoped names := by
  intro y hy
  rw [h] at hy
  cases hy
  exact hx

theorem Arrow.scoped_none {names : List String} {a : Arrow} (h : a.target = none) : a.Scoped names := by
  intro x hx
  rw [h] at hx
  cases hx

/-- All that is led to has one of these names. -/
inductive Draft.Scoped (names : List String) : Draft → Prop
  | simple {x : String} {as : List Arrow} : (∀ a ∈ as, a.Scoped names) → Scoped names (.simple x as)
  | composite {x i : String} {as : List Arrow} {ds : List Draft} : (∀ a ∈ as, a.Scoped names) → i ∈ names →
      (∀ d ∈ ds, Scoped names d) → Scoped names (.composite x as i ds)

structure Chart.Correct (c : Chart) : Prop where
  writable : c.Writable
  distinct : (Draft.namesOf c.states).Nodup
  initial : c.initial ∈ Draft.namesOf c.states
  closed : ∀ d ∈ c.states, d.Scoped (Draft.namesOf c.states)

/-! ## Parts of a transition -/

variable {n : Node} {cs : List Tree}

theorem Tree.Faithful.first (h : (Tree.node n cs).Faithful) {r : Rule} {m : Node} {ts : List Tree}
    (hfirst : Tree.firstOf? r cs = some (.node m ts)) : m.rule = r ∧ (Tree.node m ts).Faithful := by
  have hrule : (Tree.node m ts).hasRule r = true := List.find?_some hfirst
  exact ⟨beq_iff_eq.mp hrule, h.child (List.mem_of_find?_eq_some hfirst)⟩

theorem Tree.tokensAmong_subset {ks : List Kind} : tokensAmong ks cs ⊆ tokensOf cs := by
  intro t ht
  obtain ⟨c, hc, htoken⟩ := List.mem_filterMap.mp (List.mem_filter.mp ht).1
  refine mem_tokensOf.mpr ⟨c, hc, ?_⟩
  cases c with
  | node m ts => cases htoken
  | leaf s => exact List.mem_singleton.mpr (Option.some.inj htoken).symm
  | fault s => exact List.mem_singleton.mpr (Option.some.inj htoken).symm

theorem Condition.Depicted.ofTree {c : Condition} (h : c.Depicted cs) (hc : c.Writable)
    (hf : (Tree.node n cs).Faithful) (id : Id) :
    Guard.ofTree id (.node n cs) = .ok ⟨id, c.name, c.expression.valued, some c.comparison⟩ := by
  obtain ⟨x, hx, hname⟩ := Option.map_eq_some_iff.mp h.name
  obtain ⟨m, ds, hfirst, hstands⟩ := h.expression
  obtain ⟨hm, hfaithful⟩ := hf.first hfirst
  have he := hstands.valued hc.expression.writable hfaithful hm
  unfold Guard.ofTree
  refine bind_eq_ok.mpr ⟨x, need_eq_ok.mpr hx, bind_eq_ok.mpr ⟨_, need_eq_ok.mpr hfirst, bind_eq_ok.mpr ⟨_, he, ?_⟩⟩⟩
  rw [Tree.children, h.comparison, hname]
  rfl

theorem AssignmentDepicted.ofTree {a : String × Expr String} {m : Node} {ds : List Tree} (h : AssignmentDepicted a ds)
    (ha : a.2.Writable) (hf : (Tree.node n cs).Faithful) (hn : n.rule = .separated)
    (hfirst : Tree.firstOf? .assignment cs = some (.node m ds)) (id : Id) :
    ∃ x, Assignment.ofTree id (.node n cs) = .ok x ∧ (x.name, x.expression) = (a.1, a.2.valued) := by
  obtain ⟨x, hx, hname⟩ := Option.map_eq_some_iff.mp h.name
  obtain ⟨l, es, hexpression, hstands⟩ := h.expression
  obtain ⟨-, hinner⟩ := hf.first hfirst
  obtain ⟨hl, hfaithful⟩ := hinner.first hexpression
  have he := hstands.valued ha hfaithful hl
  obtain ⟨s, hs⟩ := hf.stop_isSome hn (k := .semicolon) (by decide) (by decide)
  unfold Assignment.ofTree
  exact ⟨_, bind_eq_ok.mpr ⟨_, need_eq_ok.mpr hfirst, bind_eq_ok.mpr ⟨x, need_eq_ok.mpr hx, bind_eq_ok.mpr ⟨_,
    need_eq_ok.mpr hexpression, bind_eq_ok.mpr ⟨_, he, bind_eq_ok.mpr ⟨s, need_eq_ok.mpr hs, rfl⟩⟩⟩⟩⟩,
    by rw [hname]⟩

/-- What can be done with each of two lists' members that belong together can be done along the lists. -/
theorem exists_mapM_of_forall₂ {ε α β γ : Type} {R : α → β → Prop} {S : α → γ → Prop} {f : β → Except ε γ} {xs : List α}
    {ys : List β} (h : List.Forall₂ R xs ys) (hf : ∀ x ∈ xs, ∀ y ∈ ys, R x y → ∃ z, f y = .ok z ∧ S x z) :
    ∃ zs, ys.mapM f = .ok zs ∧ List.Forall₂ S xs zs := by
  induction h with
  | nil => exact ⟨[], rfl, .nil⟩
  | @cons x y xs ys hxy _ ih =>
    obtain ⟨z, hz, hs⟩ := hf x List.mem_cons_self y List.mem_cons_self hxy
    obtain ⟨zs, hzs, hall⟩ := ih fun x hx y hy => hf x (List.mem_cons_of_mem _ hx) y (List.mem_cons_of_mem _ hy)
    refine ⟨z :: zs, ?_, .cons hs hall⟩
    rw [List.mapM_cons]
    exact bind_eq_ok.mpr ⟨z, hz, bind_eq_ok.mpr ⟨zs, hzs, rfl⟩⟩

theorem forall₂_zipIdx {α β : Type} {R : α → β → Prop} {xs : List α} {ys : List β} (h : List.Forall₂ R xs ys)
    (k : Nat) : List.Forall₂ (fun x y => R x y.1) xs (ys.zipIdx k) := by
  induction h generalizing k with
  | nil => exact .nil
  | cons hxy _ ih => exact .cons hxy (ih (k + 1))

variable {b : Builder} {source : String} {around : List String} {a : Arrow}

theorem Arrow.Depicted.guards (h : a.Depicted cs) (ha : a.Writable) (hf : (Tree.node n cs).Faithful) (id : Id) :
    ∃ g, (Tree.firstOf? .guard cs).mapM (Guard.ofTree id) = .ok g ∧
      g.map (fun g => (g.name, g.comparison, g.expression)) =
        a.guard.map fun c => (c.name, some c.comparison, c.expression.valued) := by
  have hguard := h.guard
  cases hg : a.guard with
  | none =>
    rw [hg] at hguard
    cases hall : Tree.allOf .guard cs with
    | nil => exact ⟨none, by rw [Tree.firstOf?_eq_head?, hall]; rfl, rfl⟩
    | cons t ts =>
      rw [hall] at hguard
      cases hguard
  | some c =>
    rw [hg] at hguard
    cases hall : Tree.allOf .guard cs with
    | nil =>
      rw [hall] at hguard
      cases hguard
    | cons t ts =>
      rw [hall] at hguard
      obtain ⟨hrule, hdepicted⟩ := (List.forall₂_cons.mp hguard).1
      have hfirst : Tree.firstOf? .guard cs = some t := by rw [Tree.firstOf?_eq_head?, hall, List.head?_cons]
      cases t with
      | leaf t => cases hrule
      | fault t => cases hrule
      | node m ds =>
        have hdepicted : c.Depicted ds := hdepicted
        have hbuilt := hdepicted.ofTree (ha.guard c hg) (hf.first hfirst).2 id
        exact ⟨some _, by rw [hfirst, Option.mapM_some, hbuilt]; rfl, rfl⟩

theorem Arrow.Depicted.assign (h : a.Depicted cs) (ha : a.Writable) (hf : (Tree.node n cs).Faithful) (i : Nat) :
    ∃ xs, b.assignments source i cs = .ok xs ∧
      xs.map (fun x => (x.name, x.expression)) = a.assignments.map fun x => (x.1, x.2.valued) := by
  obtain ⟨xs, hxs, hall⟩ := exists_mapM_of_forall₂
    (S := fun x (y : Assignment) => (y.name, y.expression) = (x.1, x.2.valued))
    (f := fun y => Assignment.ofTree (.assignment b.load source i y.2) y.1) (forall₂_zipIdx h.assignments 0)
    fun x hx y hy hxy => by
      obtain ⟨t, j⟩ := y
      obtain ⟨hrule, m, ds, hfirst, hdepicted⟩ := hxy
      have hmem : t ∈ cs := (List.mem_filter.mp (List.fst_mem_of_mem_zipIdx hy)).1
      cases t with
      | leaf t => cases hrule
      | fault t => cases hrule
      | node l es =>
        exact hdepicted.ofTree (ha.assignments x hx).2.writable (hf.child hmem) (beq_iff_eq.mp hrule) hfirst _
  refine ⟨xs, hxs, ?_⟩
  rw [← List.forall₂_eq_eq_eq, List.forall₂_map_left_iff, List.forall₂_map_right_iff]
  exact hall.flip

theorem text_of_head {t : Token} (h : t.word = Lexer.wordOf a.head) (ht : t.Apt) : t.text = a.target.getD "FINAL" := by
  unfold Arrow.head at h
  cases htarget : a.target with
  | none =>
    rw [htarget] at h
    have hkind : t.kind = .final := kind_of_word h
    have hmatch := ht (by rw [hkind]; decide)
    rw [hkind] at hmatch
    exact String.toList_inj.mp (Pattern.eq_of_matches_literal hmatch)
  | some x =>
    rw [htarget] at h
    have hword : Lexer.wordOf (Word.ofName x) = (.name, x) := Prod.ext rfl String.ofList_toList
    exact (Parser.word_eq (h.trans hword) rfl).2

theorem ne_final_of_isName {x : String} (h : IsName x) : x ≠ "FINAL" := by
  rintro rfl
  have hfirst : First .final "FINAL".toList := Word.first_fixed (k := .final) rfl
  exact absurd (Lexer.first_unique h hfirst) (by decide)

theorem Arrow.Depicted.transition (h : a.Depicted cs) (ha : a.Writable) (hf : (Tree.node n cs).Faithful)
    (hn : n.rule = .transition) (hs : a.Scoped b.registry.names) (i : Nat) :
    ∃ t, b.transition source around i n cs = .ok t ∧ a.Realized t := by
  obtain ⟨arrow, harrow⟩ := hf.token hn (k := .arrow) (by decide)
  obtain ⟨g, hg, hguard⟩ := h.guards ha hf (.guard b.load source i)
  obtain ⟨xs, hxs, hassign⟩ : ∃ xs, b.assignments source i cs = .ok xs ∧ _ := h.assign ha hf i
  obtain ⟨head, hhead, hheads⟩ := hf.recalled hn rfl .target (by decide) (by decide)
  obtain ⟨trigger, htrigger, htriggers⟩ := hf.recalled hn rfl .trigger (by decide) (by decide)
  have hapt : head.Apt := by
    have hmem : head ∈ Tree.tokensAmong Slot.target.kinds cs := by
      rw [hheads]
      exact List.mem_cons_self
    exact hf.apt head (Tree.tokensAmong_subset hmem)
  have htext : head.text = a.target.getD "FINAL" := by
    have hword := h.target
    rw [hheads, List.map_singleton] at hword
    exact text_of_head (List.cons.inj hword).1 hapt
  have hquoted : trigger.text = Kind.quoted a.trigger := by
    have hword := h.trigger
    rw [htriggers, List.map_singleton] at hword
    exact (Parser.word_eq (List.cons.inj hword).1 rfl).2
  obtain ⟨target, htarget, hname⟩ : ∃ t, b.target source i around head.text = .ok t ∧ t.name? = a.target := by
    unfold Builder.target
    rw [htext]
    cases hto : a.target with
    | none => exact ⟨_, if_pos rfl, rfl⟩
    | some x =>
      refine ⟨.state x, ?_, rfl⟩
      rw [Option.getD_some, if_neg (ne_final_of_isName (ha.target x hto)), if_pos]
      exact Registry.find?_isSome.mpr (hs x hto)
  unfold Builder.transition
  refine ⟨_, bind_eq_ok.mpr ⟨arrow, need_eq_ok.mpr harrow, bind_eq_ok.mpr ⟨g, hg, bind_eq_ok.mpr ⟨xs, hxs,
    bind_eq_ok.mpr ⟨head, need_eq_ok.mpr hhead, bind_eq_ok.mpr ⟨trigger, need_eq_ok.mpr htrigger,
      bind_eq_ok.mpr ⟨target, htarget, rfl⟩⟩⟩⟩⟩⟩, hname, ?_, hguard, hassign⟩
  rw [hquoted]
  exact unquoted_quoted (mark_notMem ha.trigger)

/-! ## States -/

theorem exists_transitions {as : List Arrow} (h : Nodes .transition Arrow.Depicted as (Tree.allOf .transition cs))
    (ha : ∀ a ∈ as, a.Writable) (hs : ∀ a ∈ as, a.Scoped b.registry.names) (hf : (Tree.node n cs).Faithful) :
    ∃ ts, b.transitions source around cs = .ok ts ∧ List.Forall₂ Arrow.Realized as ts := by
  refine exists_mapM_of_forall₂ (forall₂_zipIdx h 0) fun a hmem y hy hay => ?_
  obtain ⟨t, i⟩ := y
  obtain ⟨hrule, hdepicted⟩ := hay
  have ht : t ∈ cs := (List.mem_filter.mp (List.fst_mem_of_mem_zipIdx hy)).1
  cases t with
  | leaf t => cases hrule
  | fault t => cases hrule
  | node m us =>
    exact Arrow.Depicted.transition hdepicted (ha a hmem) (hf.child ht) (beq_iff_eq.mp hrule) (hs a hmem) i

theorem exists_initial {x : String} (h : StartDepicted x cs) (hx : x ∈ b.registry.names)
    (hf : (Tree.node n cs).Faithful) (built : Registry) :
    ∃ t i, Tree.firstOf? .initial cs = some t ∧ b.initial built t = .ok i ∧ i.target = x := by
  unfold StartDepicted at h
  cases hall : Tree.allOf .initial cs with
  | nil =>
    rw [hall] at h
    cases h
  | cons t ts =>
    rw [hall] at h
    obtain ⟨hrule, hword⟩ := (List.forall₂_cons.mp h).1
    have hfirst : Tree.firstOf? .initial cs = some t := by rw [Tree.firstOf?_eq_head?, hall, List.head?_cons]
    cases t with
    | leaf t => cases hrule
    | fault t => cases hrule
    | node m us =>
      obtain ⟨hm, hfaithful⟩ := hf.first hfirst
      obtain ⟨head, hhead, hheads⟩ := hfaithful.recalled hm rfl .target (by decide) (by decide)
      have hword : (Tree.tokensAmong Slot.target.kinds us).map Token.word = [(.name, x)] := hword
      rw [hheads, List.map_singleton] at hword
      have htext : head.text = x := (Parser.word_eq (List.cons.inj hword).1 rfl).2
      obtain ⟨d, hd⟩ := Option.isSome_iff_exists.mp (Registry.find?_isSome.mpr hx)
      rw [← htext] at hd
      exact ⟨_, ⟨head.text, built.parentOf head.text⟩, hfirst, bind_eq_ok.mpr ⟨head, need_eq_ok.mpr hhead,
        bind_eq_ok.mpr ⟨d, need_eq_ok.mpr hd, rfl⟩⟩, htext⟩

theorem Builder.members_eq_mapM (b : Builder) (around : List String) (cs : List Tree) :
    b.members around cs = (Tree.allOf .state cs).mapM (b.member around) := by
  induction cs with
  | nil => rfl
  | cons c cs ih =>
    unfold members
    cases hc : c.hasRule .state with
    | true =>
      have hall : Tree.allOf .state (c :: cs) = c :: Tree.allOf .state cs := List.filter_cons_of_pos hc
      rw [if_pos rfl, ih, hall, List.mapM_cons]
    | false =>
      have hall : Tree.allOf .state (c :: cs) = Tree.allOf .state cs := List.filter_cons_of_neg (by simp [hc])
      rw [if_neg Bool.false_ne_true, ih, hall]

/-- The state of a tree that depicts one is built as it is written. -/
theorem Draft.Depicted.built {d : Draft} {t : Tree} (h : d.Depicted t) (hd : d.Writable)
    (hs : d.Scoped b.registry.names) (hf : t.Faithful) (around : List String) :
    ∃ m, b.member around t = .ok m ∧ d.Realized m := by
  induction d using Draft.induct generalizing t around with
  | simple x as =>
    cases h with
    | @simple _ _ m n cs hm hn hname has =>
      cases hd with
      | simple _ hwritable =>
        cases hs with
        | simple hscoped =>
          have hbelow := hf.child List.mem_cons_self
          obtain ⟨tok, htok, rfl⟩ := Builder.need_name_of_eq_some hname
          obtain ⟨ts, hts, hrealized⟩ := exists_transitions has hwritable hscoped hbelow
          refine ⟨.simple (b.state tok.text around ts), ?_, .simple rfl hrealized⟩
          rw [Builder.member, hm]
          show b.member around (.node n cs) = _
          rw [Builder.member, hn]
          exact bind_eq_ok.mpr ⟨tok, htok, bind_eq_ok.mpr ⟨ts, hts, rfl⟩⟩
  | composite x as i ds ih =>
    cases h with
    | @composite _ _ _ _ m n cs hm hn hname has hstart hinside =>
      cases hd with
      | composite _ hwritable _ _ hds =>
        cases hs with
        | composite hscoped hi hss =>
          have hbelow := hf.child List.mem_cons_self
          obtain ⟨tok, htok, rfl⟩ := Builder.need_name_of_eq_some hname
          obtain ⟨ts, hts, hrealized⟩ := exists_transitions has hwritable hscoped hbelow
          obtain ⟨it, j, hit, hj, htarget⟩ := exists_initial hstart hi hbelow (b.registry.before tok.text)
          obtain ⟨ms, hms, hmembers⟩ := exists_mapM_of_forall₂ hinside fun d hmem t ht hdt =>
            ih d hmem hdt (hds d hmem) (hss d hmem) (hbelow.child (List.mem_filter.mp ht).1) [tok.text]
          rw [← Builder.members_eq_mapM] at hms
          refine ⟨.composite (b.state tok.text [] ts) (some j) ms, ?_, .composite rfl hrealized htarget hmembers⟩
          rw [Builder.member, hm]
          show b.member around (.node n cs) = _
          rw [Builder.member, hn]
          exact bind_eq_ok.mpr ⟨tok, htok, bind_eq_ok.mpr ⟨it, need_eq_ok.mpr hit, bind_eq_ok.mpr ⟨j, hj,
            bind_eq_ok.mpr ⟨ts, hts, bind_eq_ok.mpr ⟨ms, hms, rfl⟩⟩⟩⟩⟩

/-! ## Machines -/

theorem filterMap_sites {ds : List Draft} {ts : List Tree} {container : Option String}
    (h : List.Forall₂ Draft.Depicted ds ts)
    (hd : ∀ d ∈ ds, ∀ t, d.Depicted t → (t.sites container).filterMap Site.name? = d.names) :
    (ts.flatMap (·.sites container)).filterMap Site.name? = Draft.namesOf ds := by
  induction h with
  | nil => rfl
  | @cons d t ds ts hdt _ ih =>
    rw [List.flatMap_cons, List.filterMap_append, hd d List.mem_cons_self t hdt,
      ih fun d hmem => hd d (List.mem_cons_of_mem _ hmem), Draft.namesOf]

theorem Draft.Depicted.names {d : Draft} {t : Tree} (h : d.Depicted t) (container : Option String) :
    (t.sites container).filterMap Site.name? = d.names := by
  induction d using Draft.induct generalizing t container with
  | simple x as =>
    cases h with
    | @simple _ _ m n cs hm hn hname has =>
      have hsites : (Tree.node m [.node n cs]).sites container = [⟨container, .simple, cs⟩] := by
        simp [Tree.sites, firstSites, hm, hn]
      have hsite : Site.name? ⟨container, .simple, cs⟩ = some x := hname
      rw [hsites, List.filterMap_cons_some hsite]
      rfl
  | composite x as i ds ih =>
    cases h with
    | @composite _ _ _ _ m n cs hm hn hname has hstart hinside =>
      have hsites : (Tree.node m [.node n cs]).sites container =
          ⟨container, .composite, cs⟩ :: sitesAmong (Tree.nameOf? cs) cs := by
        simp [Tree.sites, firstSites, hm, hn]
      have hsite : Site.name? ⟨container, .composite, cs⟩ = some x := hname
      rw [hsites, List.filterMap_cons_some hsite, sitesAmong_eq,
        filterMap_sites hinside fun d hd t hdt => ih d hd hdt _, Draft.names]

/-- The states of a tree that depicts a chart are declared in the order in which they are written. -/
theorem Chart.Depicted.declared {c : Chart} (h : c.Depicted cs) (hf : (Tree.node n cs).Faithful)
    (hn : n.rule = .machine) (hc : (Draft.namesOf c.states).Nodup) :
    ∃ r, Registry.ofTree (.node n cs) = .ok r ∧ r.names = Draft.namesOf c.states := by
  have hnames : (sitesAmong none cs).filterMap Site.name? = Draft.namesOf c.states := by
    rw [sitesAmong_eq]
    exact filterMap_sites h.states fun d _ t hdt => hdt.names none
  rw [Registry.ofTree, declareStates_eq_foldlM]
  rcases Site.declareAll_cases (r := []) (fun s hs => hf.site hn hs) List.nodup_nil with
    ⟨r, hr, hall, -⟩ | ⟨us, name, vs, hsplit, -, hmem, -⟩
  · exact ⟨r, hr, hall.trans hnames⟩
  · rw [← hnames, hsplit] at hc
    exact absurd rfl ((List.nodup_append.mp hc).2.2 name hmem name List.mem_cons_self)

theorem Chart.Depicted.built {c : Chart} (h : c.Depicted cs) (hc : c.Correct) (hf : (Tree.node n cs).Faithful)
    (hn : n.rule = .machine) (load : Nat) : ∃ m, Machine.ofTree load (.node n cs) = .ok m ∧ c.Realized m := by
  obtain ⟨r, hr, hnames⟩ := h.declared hf hn hc.distinct
  obtain ⟨tok, htok, hname⟩ := Option.map_eq_some_iff.mp h.name
  have hinitial : c.initial ∈ r.names := hnames ▸ hc.initial
  obtain ⟨it, i, hit, hi, htarget⟩ := exists_initial (b := ⟨load, r⟩) h.initial hinitial hf []
  obtain ⟨ms, hms, hmembers⟩ := exists_mapM_of_forall₂ h.states fun d hd t ht hdt =>
    hdt.built (b := ⟨load, r⟩) (hc.writable.states d hd) (hnames ▸ hc.closed d hd)
      (hf.child (List.mem_filter.mp ht).1) []
  rw [← Builder.members_eq_mapM] at hms
  exact ⟨_, ofTree_eq_ok.mpr ⟨tok, r, it, i, ms, htok, hr, hit, hi, hms, rfl⟩, hname, congrArg some htarget, hmembers⟩

theorem parse_eq_outcome (r : Rule) (text : String) : parse r text =
    ⟨(Parser.outcome r (lex text)).close, (lex text).complaints ++ (Parser.outcome r (lex text)).complaints⟩ := rfl

/-- The text of a correct chart is read without complaint, and a machine is built from it that realizes the chart. -/
theorem Chart.Correct.built {c : Chart} (hc : c.Correct) (load : Nat) :
    (parse .machine c.text).complaints = [] ∧
      ∃ m, Machine.ofTree load (parse .machine c.text).tree = .ok m ∧ c.Realized m := by
  obtain ⟨hcomplaints, n, cs, hclose, hn, hdepicted⟩ := hc.writable.depicted
  have hfaithful := outcome_faithful hcomplaints
  rw [hclose] at hfaithful
  rw [parse_eq_outcome, (Chart.lex_text hc.writable).1, hcomplaints, hclose]
  exact ⟨rfl, hdepicted.built hc hfaithful hn load⟩

end Statechart
