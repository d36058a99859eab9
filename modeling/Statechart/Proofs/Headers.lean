/-
  Statechart.Proofs.Headers — the headers of all elements of a machine that is shown.

  The gist of a header is what connects it with others: its identifier, its types, its
  name and what it refers to. Showing a machine gives the gists of its states, one state
  after the other, each with those of its transitions (`toElement_gists`), so what is
  said of identifiers and references is said of the machine.

  Proved, of every machine that is built and shown: no identifier is given to two
  elements (`headers_distinct`), and a reference leads to exactly one element, which is
  a state (`refs_closed`).
-/

import Statechart.Machine.Element
import Statechart.Proofs.Nesting
import Statechart.Proofs.Sites

namespace Statechart

/-! ## Headers and gists -/

namespace Element

mutual

/-- The headers of an element and of all below it, each before those under it. -/
def headers : Element → List Header
  | .mk h cs => h :: headersUnder cs

def headersUnder : List (String × Child) → List Header
  | [] => []
  | (_, c) :: cs => headersIn c ++ headersUnder cs

def headersIn : Child → List Header
  | .one e => e.headers
  | .many es => headersAll es

def headersAll : List Element → List Header
  | [] => []
  | e :: es => e.headers ++ headersAll es

end

end Element

/-- What connects a header with others. -/
structure Gist where
  id : Ident
  types : List String
  name : Option Value
  refs : List (String × Ref)

def Header.gist (h : Header) : Gist := ⟨h.id, h.types, (h.attributes.find? (·.1 == "name")).map (·.2), h.refs⟩

def Transition.gists (load : Nat) (t : Transition) : List Gist :=
  ⟨.minted t.id, ["Transition"], none, t.targetRef load⟩ ::
    (t.guard.toList.map (fun g => ⟨.minted g.id, ["Guard"], none, []⟩) ++
      t.assignments.map fun a => ⟨.minted a.id, ["Assignment"], none, []⟩)

/-- The transitions in the order in which they are shown. -/
def State.shownOutgoing (s : State) : List Transition :=
  s.outgoing.filter (fun t => !t.target.isFinal) ++ s.outgoing.filter fun t => t.target.isFinal

def Initial.ref (load : Nat) (i : Initial) : String × Ref := ("initialState", .one (.minted (.state load i.target)))

/-- The gist of a state's own header. -/
def Declared.gist (load : Nat) : Declared → Gist
  | .simple s => ⟨.minted s.id, ["State", "SimpleState"], some (.str s.name), []⟩
  | .composite s i => ⟨.minted s.id, ["State", "CompositeState"], some (.str s.name), i.toList.map (·.ref load)⟩

def Declared.gists (load : Nat) (d : Declared) : List Gist :=
  d.gist load :: d.state.shownOutgoing.flatMap (·.gists load)

theorem optionMapM_eq_ok {ε α β : Type} {f : α → Except ε β} {o : Option α} {r : Option β} (h : o.mapM f = .ok r) :
    (o = none ∧ r = none) ∨ ∃ a b, o = some a ∧ f a = .ok b ∧ r = some b := by
  cases o with
  | none => exact Or.inl ⟨rfl, (pure_eq_ok.mp h).symm⟩
  | some a =>
    rw [Option.mapM_some] at h
    cases hf : f a with
    | error e => simp [hf] at h
    | ok b => exact Or.inr ⟨a, b, rfl, hf, by simpa [hf] using h.symm⟩

section Gists

variable {load : Nat}

theorem Guard.toElement_gists {g : Guard} {e : Element} (h : g.toElement = .ok e) :
    e.headers.map (·.gist) = [⟨.minted g.id, ["Guard"], none, []⟩] := by
  obtain ⟨c, -, h⟩ := bind_eq_ok.mp h
  obtain rfl := pure_eq_ok.mp h
  rfl

theorem Assignment.toElement_gists (as : List Assignment) :
    (Element.headersAll (as.map (·.toElement))).map (·.gist) =
      as.map fun a => ⟨.minted a.id, ["Assignment"], none, []⟩ := by
  induction as with
  | nil => rfl
  | cons a as ih =>
    rw [List.map_cons, Element.headersAll, List.map_append, ih]
    rfl

theorem Transition.toElement_gists {t : Transition} {e : Element} (h : t.toElement load = .ok e) :
    e.headers.map (·.gist) = t.gists load := by
  obtain ⟨guard, hg, h⟩ := bind_eq_ok.mp h
  obtain rfl := pure_eq_ok.mp h
  have hassign : (Element.headersUnder (if t.assignments.isEmpty then [] else
      [("assignments", Child.many (t.assignments.map (·.toElement)))])).map (·.gist) =
      t.assignments.map fun a => ⟨.minted a.id, ["Assignment"], none, []⟩ := by
    split
    · rename_i hempty
      rw [List.isEmpty_iff.mp hempty]
      rfl
    · rw [← Assignment.toElement_gists, Element.headersUnder, Element.headersIn, Element.headersUnder, List.append_nil]
  rw [Transition.gists, ← hassign]
  rcases optionMapM_eq_ok hg with ⟨hnone, rfl⟩ | ⟨g, x, hsome, hx, rfl⟩
  · rw [hnone]
    rfl
  · rw [hsome, Option.toList_some, List.map_singleton, ← Guard.toElement_gists hx, ← List.map_append]
    rfl

theorem transitions_gists {ts : List Transition} {es : List Element} (h : ts.mapM (·.toElement load) = .ok es) :
    (Element.headersAll es).map (·.gist) = ts.flatMap (·.gists load) := by
  replace h := mapM_eq_ok h
  induction h with
  | nil => rfl
  | cons he _ ih => rw [Element.headersAll, List.map_append, Transition.toElement_gists he, List.flatMap_cons, ih]

/-- A state is shown with its transitions, before the states inside it. -/
theorem State.toElement_gists {s : State} {type : String} {states : List (String × Child)} {refs : List (String × Ref)}
    {e : Element} (h : s.toElement load type states refs = .ok e) :
    e.headers.map (·.gist) = ⟨.minted s.id, ["State", type], some (.str s.name), refs⟩ ::
      (s.shownOutgoing.flatMap (·.gists load) ++ (Element.headersUnder states).map (·.gist)) := by
  obtain ⟨ts, hts, h⟩ := bind_eq_ok.mp h
  obtain ⟨fs, hfs, h⟩ := bind_eq_ok.mp h
  obtain rfl := pure_eq_ok.mp h
  rw [State.shownOutgoing, List.flatMap_append, ← transitions_gists hts, ← transitions_gists hfs]
  simp [Element.headers, Element.headersUnder, Element.headersIn, Header.gist]

mutual

theorem Member.toElement_gists : ∀ (m : Member) {e : Element}, m.toElement load = .ok e →
    e.headers.map (·.gist) = m.declared.flatMap (·.gists load)
  | .simple s, e, h => by
    rw [State.toElement_gists h]
    simp [Member.declared, Declared.gists, Declared.gist, Declared.state, Element.headersUnder]
  | .composite _ none _, _, h => by cases h
  | .composite s (some i) ms, e, h => by
    obtain ⟨es, hes, h⟩ := bind_eq_ok.mp h
    rw [State.toElement_gists h, Member.declared, List.flatMap_cons, ← membersToElements_gists ms hes]
    simp [Declared.gists, Declared.gist, Declared.state, Initial.ref, Element.headersUnder, Element.headersIn]
  | .hole, _, h => by cases h

theorem membersToElements_gists : ∀ (ms : List Member) {es : List Element}, membersToElements load ms = .ok es →
    (Element.headersAll es).map (·.gist) = (declaredAll ms).flatMap (·.gists load)
  | [], _, h => by cases h; rfl
  | m :: ms, es, h => by
    obtain ⟨e, he, h⟩ := bind_eq_ok.mp h
    obtain ⟨es', hes, h⟩ := bind_eq_ok.mp h
    obtain rfl := pure_eq_ok.mp h
    rw [Element.headersAll, List.map_append, m.toElement_gists he, membersToElements_gists ms hes, declaredAll,
      List.flatMap_append]

end

/-- A machine is shown with its states, one after the other. -/
theorem Machine.toElement_gists {m : Machine} {i : Initial} {e : Element} (hi : m.initial = some i)
    (h : m.toElement = .ok e) :
    e.headers.map (·.gist) = ⟨.minted (.machine m.load), ["StateMachine"], some (.str m.name), [i.ref m.load]⟩ ::
      m.declared.flatMap (·.gists m.load) := by
  obtain ⟨es, hes, h⟩ := bind_eq_ok.mp h
  obtain rfl := pure_eq_ok.mp h
  rw [Machine.declared, ← membersToElements_gists m.members hes]
  simp [Element.headers, Element.headersUnder, Element.headersIn, Header.gist, hi, Initial.ref]

end Gists

/-! ## Identifiers -/

/-- The state that something of a machine belongs to, and its transition there. -/
def Id.owner? : Id → Option String
  | .state _ name => some name
  | .transition _ source _ => some source
  | .guard _ source _ => some source
  | .assignment _ source _ _ => some source
  | _ => none

def Id.index? : Id → Option Nat
  | .transition _ _ i => some i
  | .guard _ _ i => some i
  | .assignment _ _ i _ => some i
  | _ => none

/-- The identifiers of a transition and its parts. -/
def Transition.ids (t : Transition) : List Id :=
  t.id :: (t.guard.toList.map (·.id) ++ t.assignments.map (·.id))

/-- The identifiers of a state and its transitions. -/
def State.ids (s : State) : List Id := s.id :: s.shownOutgoing.flatMap (·.ids)

theorem Transition.gists_ids (load : Nat) (t : Transition) : (t.gists load).map (·.id) = t.ids.map .minted := by
  simp [Transition.gists, Transition.ids, Function.comp_def]

theorem Declared.gist_id (load : Nat) (d : Declared) : (d.gist load).id = .minted d.state.id := by
  cases d <;> rfl

theorem Declared.gists_ids (load : Nat) (d : Declared) : (d.gists load).map (·.id) = d.state.ids.map .minted := by
  rw [Declared.gists, State.ids, List.map_cons, List.map_cons, List.map_flatMap, List.map_flatMap, d.gist_id]
  simp only [Transition.gists_ids]

/-- The transition in place `i` of a state has the identifiers of that place. -/
structure Transition.Numbered (t : Transition) (load : Nat) (source : String) (i : Nat) : Prop where
  id : t.id = .transition load source i
  guard : ∀ g, t.guard = some g → g.id = .guard load source i
  assignments : ∃ js : List Nat, js.Nodup ∧ t.assignments.map (·.id) = js.map (.assignment load source i)

namespace Transition.Numbered

variable {t : Transition} {load : Nat} {source : String} {i : Nat}

theorem ids_nodup (h : t.Numbered load source i) : t.ids.Nodup := by
  obtain ⟨js, hjs, has⟩ := h.assignments
  have hnd : (js.map (Id.assignment load source i)).Nodup := hjs.map fun j k hjk => by injection hjk
  rw [Transition.ids, has, h.id]
  cases hg : t.guard with
  | none => simpa using hnd
  | some g => simpa [h.guard g hg] using hnd

theorem mem_ids (h : t.Numbered load source i) {x : Id} (hx : x ∈ t.ids) :
    x.owner? = some source ∧ x.index? = some i := by
  obtain ⟨js, -, has⟩ := h.assignments
  rw [Transition.ids, has, h.id] at hx
  rcases List.mem_cons.mp hx with rfl | hx
  · exact ⟨rfl, rfl⟩
  rcases List.mem_append.mp hx with hx | hx
  · obtain ⟨g, hg, rfl⟩ := List.mem_map.mp hx
    rw [h.guard g (Option.mem_toList.mp hg)]
    exact ⟨rfl, rfl⟩
  · obtain ⟨j, -, rfl⟩ := List.mem_map.mp hx
    exact ⟨rfl, rfl⟩

end Transition.Numbered

namespace Builder

variable {b : Builder} {source : String} {around : List String}

theorem guard_id {id : Id} {t : Tree} {g : Guard} (h : Guard.ofTree id t = .ok g) : g.id = id := by
  obtain ⟨x, -, h⟩ := bind_eq_ok.mp h
  obtain ⟨e, -, h⟩ := bind_eq_ok.mp h
  obtain ⟨e', -, h⟩ := bind_eq_ok.mp h
  obtain rfl := pure_eq_ok.mp h
  rfl

theorem assignment_id {id : Id} {t : Tree} {a : Assignment} (h : Assignment.ofTree id t = .ok a) : a.id = id := by
  obtain ⟨c, -, h⟩ := bind_eq_ok.mp h
  obtain ⟨x, -, h⟩ := bind_eq_ok.mp h
  obtain ⟨e, -, h⟩ := bind_eq_ok.mp h
  obtain ⟨e', -, h⟩ := bind_eq_ok.mp h
  cases t with
  | leaf _ => cases h
  | fault _ => cases h
  | node n cs =>
    obtain ⟨stop, -, h⟩ := bind_eq_ok.mp h
    obtain rfl := pure_eq_ok.mp h
    rfl

theorem assignments_ids {i : Nat} {cs : List Tree} {as : List Assignment} (h : b.assignments source i cs = .ok as) :
    ∃ js : List Nat, js.Nodup ∧ as.map (·.id) = js.map (.assignment b.load source i) := by
  refine ⟨(Tree.allOf .separated cs).zipIdx.map (·.2), ?_, ?_⟩
  · rw [List.zipIdx_map_snd]
    exact List.nodup_range'
  · rw [List.map_map, eq_comm, ← List.forall₂_eq_eq_eq, List.forall₂_map_left_iff, List.forall₂_map_right_iff]
    exact (mapM_eq_ok h).imp fun _ _ hc => (assignment_id hc).symm

theorem transition_numbered {i : Nat} {n : Node} {cs : List Tree} {t : Transition}
    (h : b.transition source around i n cs = .ok t) : t.Numbered b.load source i := by
  unfold transition at h
  obtain ⟨arrow, -, h⟩ := bind_eq_ok.mp h
  obtain ⟨guard, hguard, h⟩ := bind_eq_ok.mp h
  obtain ⟨as, has, h⟩ := bind_eq_ok.mp h
  obtain ⟨head, -, h⟩ := bind_eq_ok.mp h
  obtain ⟨trigger, -, h⟩ := bind_eq_ok.mp h
  obtain ⟨target, -, h⟩ := bind_eq_ok.mp h
  obtain rfl := pure_eq_ok.mp h
  refine ⟨rfl, fun g hg => ?_, assignments_ids has⟩
  obtain rfl : guard = some g := hg
  rcases optionMapM_eq_ok hguard with ⟨-, hnone⟩ | ⟨c, g', -, hc, hsome⟩
  · cases hnone
  · cases hsome
    exact guard_id hc

theorem transitions_numbered {cs : List Tree} {ts : List Transition} (h : b.transitions source around cs = .ok ts) :
    ∃ is : List Nat, is.Nodup ∧ List.Forall₂ (fun i t => t.Numbered b.load source i) is ts := by
  refine ⟨(Tree.allOf .transition cs).zipIdx.map (·.2), ?_, ?_⟩
  · rw [List.zipIdx_map_snd]
    exact List.nodup_range'
  · rw [List.forall₂_map_left_iff]
    refine (mapM_eq_ok h).imp fun c t hc => ?_
    obtain ⟨c, i⟩ := c
    cases c with
    | node n cs => exact transition_numbered hc
    | leaf _ => cases hc
    | fault _ => cases hc

end Builder

theorem outgoing_ids {load : Nat} {source : String} {is : List Nat} {ts : List Transition} (his : is.Nodup)
    (h : List.Forall₂ (fun i t => t.Numbered load source i) is ts) :
    (ts.flatMap (·.ids)).Nodup ∧
      ∀ x ∈ ts.flatMap (·.ids), x.owner? = some source ∧ ∃ i ∈ is, x.index? = some i := by
  induction h with
  | nil => simp
  | @cons i t is ts ht _ ih =>
    obtain ⟨hnew, his⟩ := List.nodup_cons.mp his
    obtain ⟨hnd, hplace⟩ := ih his
    rw [List.flatMap_cons]
    constructor
    · refine ht.ids_nodup.append hnd fun x hx hx' => ?_
      obtain ⟨-, j, hj, hxj⟩ := hplace x hx'
      obtain rfl : i = j := Option.some.inj ((ht.mem_ids hx).2.symm.trans hxj)
      exact hnew hj
    · intro x hx
      rcases List.mem_append.mp hx with hx | hx
      · exact ⟨(ht.mem_ids hx).1, i, List.mem_cons_self, (ht.mem_ids hx).2⟩
      · obtain ⟨ho, j, hj, hxj⟩ := hplace x hx
        exact ⟨ho, j, List.mem_cons_of_mem _ hj, hxj⟩

theorem State.shownOutgoing_perm (s : State) : s.shownOutgoing.Perm s.outgoing := by
  have h := List.filter_append_perm (fun t => !Target.isFinal t.target) s.outgoing
  simpa [State.shownOutgoing] using h

/-- What building gives a state to be known by. -/
theorem Builder.Builds.ids {b : Builder} {s : Site} {d : Declared} (h : b.Builds s d) :
    d.state.ids.Nodup ∧ ∀ x ∈ d.state.ids, x.owner? = some d.state.name := by
  have hstate : ∀ {name around ancestors cs ts}, b.transitions name around cs = .ok ts →
      (b.state name ancestors ts).ids.Nodup ∧ ∀ x ∈ (b.state name ancestors ts).ids, x.owner? = some name := by
    intro name around ancestors cs ts hts
    obtain ⟨is, his, hnum⟩ := transitions_numbered hts
    obtain ⟨hnd, hplace⟩ := outgoing_ids his hnum
    have hperm := (b.state name ancestors ts).shownOutgoing_perm.flatMap_right (·.ids)
    refine ⟨List.nodup_cons.mpr ⟨fun hin => ?_, hperm.nodup_iff.mpr hnd⟩, fun x hx => ?_⟩
    · obtain ⟨-, i, -, hi⟩ := hplace _ (hperm.mem_iff.mp hin)
      cases hi
    · rcases List.mem_cons.mp hx with rfl | hx
      · rfl
      · exact (hplace x (hperm.mem_iff.mp hx)).1
  cases h with
  | simple _ hts => exact hstate hts
  | composite _ _ _ hts => exact hstate hts

section Closed

variable {load : Nat} {t : Tree} {m : Machine} {e : Element}

/-- No two elements share an identifier. -/
theorem headers_distinct (hm : Machine.ofTree load t = .ok m) (he : m.toElement = .ok e) :
    (e.headers.map (·.id)).Nodup := by
  obtain ⟨b, -, -, -, hms, -, i, -, -, hi⟩ := ofTree_inv hm
  have hids : ∀ d ∈ m.declared, d.state.ids.Nodup ∧ ∀ x ∈ d.state.ids, x.owner? = some d.state.name := by
    intro d hd
    obtain ⟨s, -, hs⟩ := exists_of_forall₂ (declared_sites hms) d hd
    exact hs.ids
  have heq : e.headers.map (·.id) = (.machine m.load :: m.declared.flatMap (·.state.ids)).map Ident.minted := by
    have := congrArg (List.map Gist.id) (Machine.toElement_gists hi he)
    rw [List.map_map, List.map_cons, List.map_flatMap] at this
    rw [List.map_cons, List.map_flatMap]
    simpa [Declared.gists_ids, Function.comp_def, Header.gist] using this
  rw [heq]
  refine List.Nodup.map (fun x y hxy => by injection hxy) (List.nodup_cons.mpr ⟨fun hin => ?_, ?_⟩)
  · obtain ⟨d, hd, hx⟩ := List.mem_flatMap.mp hin
    cases (hids d hd).2 _ hx
  · refine List.nodup_flatMap.mpr ⟨fun d hd => (hids d hd).1, ?_⟩
    have hnames := (ofTree_wellFormed hm).distinct
    rw [List.Nodup, List.pairwise_map] at hnames
    refine hnames.imp_of_mem fun {d d'} hd hd' hne x hx hx' => hne ?_
    exact Option.some.inj (((hids d hd).2 x hx).symm.trans ((hids d' hd').2 x hx'))

/-- The header of a state of this name. -/
structure Header.IsState (h : Header) (name : String) : Prop where
  type : "State" ∈ h.types
  name : (h.attributes.find? (·.1 == "name")).map (·.2) = some (.str name)

theorem Declared.gist_isState {load : Nat} {d : Declared} {h : Header} (hg : h.gist = d.gist load) :
    h.id = .minted d.state.id ∧ h.IsState d.state.name := by
  cases d with
  | simple s =>
    simp only [Header.gist, Declared.gist, Gist.mk.injEq] at hg
    exact ⟨hg.1, by simp [hg.2.1], hg.2.2.1⟩
  | composite s i =>
    simp only [Header.gist, Declared.gist, Gist.mk.injEq] at hg
    exact ⟨hg.1, by simp [hg.2.1], hg.2.2.1⟩

/-- Every state of the machine is shown. -/
theorem exists_header (hm : Machine.ofTree load t = .ok m) (he : m.toElement = .ok e) {n : String}
    (hn : (m.find? n).isSome) : ∃ h ∈ e.headers, h.id = .minted (.state m.load n) ∧ h.IsState n := by
  obtain ⟨d, hd, rfl⟩ := List.mem_map.mp (Machine.find?_isSome.mp hn)
  obtain ⟨i, hi, -⟩ := (ofTree_wellFormed hm).starts
  have hmem : d.gist m.load ∈ e.headers.map (·.gist) := by
    rw [Machine.toElement_gists hi he]
    exact List.mem_cons_of_mem _ (List.mem_flatMap.mpr ⟨d, hd, List.mem_cons_self⟩)
  obtain ⟨h, hh, hgist⟩ := List.mem_map.mp hmem
  obtain ⟨hid, hstate⟩ := Declared.gist_isState hgist
  exact ⟨h, hh, hid.trans (congrArg _ (ofTree_id hm hd)), hstate⟩

theorem mem_transition_gists {t : Transition} {load : Nat} {g : Gist} (h : g ∈ t.gists load) :
    g.refs = [] ∨ ∃ n, t.target = .state n ∧ g.refs = [("target", .one (.minted (.state load n)))] := by
  rcases List.mem_cons.mp h with rfl | h
  · cases htarget : t.target with
    | state n => exact Or.inr ⟨n, rfl, by simp [Transition.targetRef, htarget]⟩
    | final i a => exact Or.inl (by simp [Transition.targetRef, htarget])
  · rcases List.mem_append.mp h with h | h
    · obtain ⟨_, -, rfl⟩ := List.mem_map.mp h
      exact Or.inl rfl
    · obtain ⟨_, -, rfl⟩ := List.mem_map.mp h
      exact Or.inl rfl

/-- Whatever is referred to is a state of the machine. -/
theorem refs_declared (hm : Machine.ofTree load t = .ok m) (he : m.toElement = .ok e) {h : Header} (hh : h ∈ e.headers)
    {r : String × Ref} (hr : r ∈ h.refs) : ∃ n, (m.find? n).isSome ∧ r.2 = .one (.minted (.state m.load n)) := by
  have hwf := ofTree_wellFormed hm
  obtain ⟨i, hi, hstart⟩ := hwf.starts
  have hmem : h.gist ∈ e.headers.map (·.gist) := List.mem_map_of_mem hh
  have hrefs : h.refs = h.gist.refs := rfl
  rw [Machine.toElement_gists hi he] at hmem
  rw [hrefs] at hr
  generalize h.gist = g at hmem hr
  rcases List.mem_cons.mp hmem with rfl | hg
  · obtain rfl := List.mem_singleton.mp hr
    exact ⟨i.target, hstart, rfl⟩
  obtain ⟨d, hd, hg⟩ := List.mem_flatMap.mp hg
  rcases List.mem_cons.mp hg with rfl | hg
  · cases d with
    | simple s => cases hr
    | composite s j =>
      obtain ⟨-, k, rfl, hk⟩ := hwf.composite s j hd
      obtain rfl := List.mem_singleton.mp hr
      exact ⟨k.target, hk, rfl⟩
  · obtain ⟨t, ht, hg⟩ := List.mem_flatMap.mp hg
    rcases mem_transition_gists hg with hnil | ⟨n, hn, href⟩
    · rw [hnil] at hr
      cases hr
    · rw [href] at hr
      obtain rfl := List.mem_singleton.mp hr
      exact ⟨n, hwf.target d hd t (d.state.shownOutgoing_perm.mem_iff.mp ht) n hn, rfl⟩

/-- A reference leads to exactly one element, and this is a state. -/
theorem refs_closed (hm : Machine.ofTree load t = .ok m) (he : m.toElement = .ok e) {h : Header} (hh : h ∈ e.headers)
    {r : String × Ref} (hr : r ∈ h.refs) :
    ∃ k ∈ e.headers, r.2 = .one k.id ∧ (e.headers.map (·.id)).count k.id = 1 ∧ "State" ∈ k.types := by
  obtain ⟨n, hn, href⟩ := refs_declared hm he hh hr
  obtain ⟨k, hk, hid, hstate⟩ := exists_header hm he hn
  refine ⟨k, hk, by rw [href, hid], ?_, hstate.type⟩
  exact List.count_eq_one_of_mem (headers_distinct hm he) (List.mem_map_of_mem hk)

theorem transition_gists_not_state {t : Transition} {load : Nat} {g : Gist} (h : g ∈ t.gists load) :
    "State" ∉ g.types := by
  rcases List.mem_cons.mp h with rfl | h
  · simp
  · rcases List.mem_append.mp h with h | h
    · obtain ⟨_, -, rfl⟩ := List.mem_map.mp h
      simp
    · obtain ⟨_, -, rfl⟩ := List.mem_map.mp h
      simp

theorem Declared.gists_states (load : Nat) (d : Declared) :
    (d.gists load).filter (fun g => "State" ∈ g.types) = [d.gist load] := by
  have hown : "State" ∈ (d.gist load).types := by cases d <;> simp [Declared.gist]
  rw [Declared.gists, List.filter_cons_of_pos (by simpa using hown), List.filter_eq_nil_iff.mpr]
  intro g hg
  obtain ⟨t, -, hg⟩ := List.mem_flatMap.mp hg
  simpa using transition_gists_not_state hg

/-- Of all elements those of the type of states show the states at the sites of the tree, in their order. -/
theorem state_headers (hm : Machine.ofTree load t = .ok m) (he : m.toElement = .ok e) :
    List.Forall₂ (fun s h => ∃ n, s.name? = some n ∧ h.IsState n) (sitesAmong none t.children)
      (e.headers.filter fun h => "State" ∈ h.types) := by
  obtain ⟨b, -, -, -, hms, -, i, -, -, hi⟩ := ofTree_inv hm
  have hstates : (e.headers.filter fun h => "State" ∈ h.types).map (·.gist) = m.declared.map (·.gist m.load) := by
    have hall := congrArg (List.filter fun g => "State" ∈ g.types) (Machine.toElement_gists hi he)
    rw [List.filter_map, List.filter_cons_of_neg (by simp), List.filter_flatMap] at hall
    simp only [Declared.gists_states] at hall
    rwa [← List.map_eq_flatMap] at hall
  have hgists : List.Forall₂ (fun s g => ∃ d, b.Builds s d ∧ g = d.gist m.load) (sitesAmong none t.children)
      (m.declared.map (·.gist m.load)) := by
    rw [List.forall₂_map_right_iff]
    exact (declared_sites hms).imp fun s d hd => ⟨d, hd, rfl⟩
  rw [← hstates, List.forall₂_map_right_iff] at hgists
  exact hgists.imp fun s h ⟨d, hd, hg⟩ => ⟨d.state.name, hd.name, (Declared.gist_isState hg).2⟩

end Closed

end Statechart
