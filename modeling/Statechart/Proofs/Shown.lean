/-
  Statechart.Proofs.Shown — what a client is shown of a file that was read, whether or not
  the text had to be repaired.

  A context is a node that stands for a state: what a state rule leads to by its first
  children. `Shows` says which element shows a context: its name, its transitions in two
  lists, those that lead to states with a reference to the state and those that lead to
  FINAL without one, and the contexts directly inside it, each list in the order of the
  text. `Element.IsPictureOf` says it of a whole tree.

  Proved (`shown_is_picture`): whenever a file is read, the answer is a picture of its
  tree. No identifier occurs twice in it, every reference leads to exactly one state, and
  it has one element for each state of the text, where this stands.
-/

import Statechart.Proofs.Headers
import Statechart.Proofs.Registration

namespace Statechart

/-! ## Contexts -/

namespace Tree

mutual

/-- The node that a state rule leads to. -/
def context? : Tree → Option Tree
  | .node n cs =>
    match n.rule with
    | .state => firstContext? cs
    | .simple => some (.node n cs)
    | .composite => some (.node n cs)
    | _ => none
  | _ => none

def firstContext? : List Tree → Option Tree
  | [] => none
  | c :: _ => c.context?

end

/-- The contexts of the states among some children. -/
def contexts (cs : List Tree) : List Tree := (allOf .state cs).filterMap context?

/-- The text of the token that a node remembers as its target. -/
def target? : Tree → Option String
  | .node n _ => n.target.map (·.text)
  | _ => none

def trigger? : Tree → Option String
  | .node n _ => n.trigger.map (·.text)
  | _ => none

/-- The transitions among some children that lead to FINAL, or those that do not. -/
def transitionsOf (final : Bool) (cs : List Tree) : List Tree :=
  (allOf .transition cs).filter fun c => (c.target? == some "FINAL") == final

end Tree

/-! ## What shows what -/

def Child.list? : Child → Option (List Element)
  | .many es => some es
  | .one _ => none

namespace Element

def children : Element → List (String × Child)
  | .mk _ cs => cs

/-- The elements in the list under a key. -/
def list? (e : Element) (key : String) : Option (List Element) :=
  (e.children.find? (·.1 == key)).bind fun c => c.2.list?

/-- The only reference of `e` is to the state of this name in `root`. -/
def Refers (root e : Element) (key name : String) : Prop :=
  ∃ h ∈ root.headers, h.IsState name ∧ e.header.refs = [(key, .one h.id)]

/-- The element of a transition: it is located where its arrow stands, and refers to the target unless that is FINAL. -/
structure ShowsTransition (root : Element) (c : Tree) (e : Element) : Prop where
  types : e.header.types = ["Transition"]
  location : ∃ arrow l, Tree.tokenOf? .arrow c.children = some arrow ∧ e.header.location = some l ∧
    l.line = arrow.line ∧ l.column = arrow.column + 1
  trigger : ∃ x, c.trigger? = some x ∧ e.header.attributes = [("trigger", .str (unquoted x))]
  final : c.target? = some "FINAL" → e.header.refs = []
  target : c.target? ≠ some "FINAL" → ∃ n, c.target? = some n ∧ root.Refers e "target" n

/-- The element of a state apart from the states in it. -/
structure ShowsState (root : Element) (type : String) (keys : List String) (cs : List Tree) (e : Element) : Prop where
  types : e.header.types = ["State", type]
  name : ∃ n, Tree.nameOf? cs = some n ∧ e.header.attributes = [("name", .str n)]
  keys : e.children.map (·.1) = keys
  transitions : ∃ ts, e.list? "transitions" = some ts ∧
    List.Forall₂ (ShowsTransition root) (Tree.transitionsOf false cs) ts
  final : ∃ fs, e.list? "final transitions" = some fs ∧
    List.Forall₂ (ShowsTransition root) (Tree.transitionsOf true cs) fs

/-- The initial section among some children leads to the state that is referred to. -/
def ShowsInitial (root : Element) (cs : List Tree) (e : Element) : Prop :=
  ∃ it n, Tree.firstOf? .initial cs = some it ∧ it.target? = some n ∧ root.Refers e "initialState" n

/-- The element of a context: a composite state lists the contexts directly inside it. -/
inductive Shows (root : Element) : Tree → Element → Prop
  | simple {n : Node} {cs : List Tree} {e : Element} (hn : n.rule = .simple)
      (hs : ShowsState root "SimpleState" ["transitions", "final transitions"] cs e) (href : e.header.refs = []) :
      Shows root (.node n cs) e
  | composite {n : Node} {cs : List Tree} {e : Element} {es : List Element} (hn : n.rule = .composite)
      (hs : ShowsState root "CompositeState" ["transitions", "final transitions", "states"] cs e)
      (hi : ShowsInitial root cs e) (hes : e.list? "states" = some es)
      (hin : List.Forall₂ (Shows root) (Tree.contexts cs) es) : Shows root (.node n cs) e

/-- The element of a machine's tree. -/
structure IsPictureOf (e : Element) (t : Tree) : Prop where
  /-- No two elements share an identifier. -/
  distinct : (e.headers.map (·.id)).Nodup
  /-- A reference leads to exactly one element, and this is a state. -/
  closed : ∀ h ∈ e.headers, ∀ r ∈ h.refs,
    ∃ k ∈ e.headers, r.2 = .one k.id ∧ (e.headers.map (·.id)).count k.id = 1 ∧ "State" ∈ k.types
  /-- The states of the tree, wherever they stand, have one element each, and no others have the type of states. -/
  states : List.Forall₂ (fun s h => ∃ n, s.name? = some n ∧ h.IsState n) (sitesAmong none t.children)
    (e.headers.filter fun h => "State" ∈ h.types)
  /-- Each element stands in the list of the one around it. -/
  placed : ∃ es, e.children = [("states", .many es)] ∧ List.Forall₂ (Shows e) (Tree.contexts t.children) es
  starts : e.ShowsInitial t.children e

end Element

/-! ## Building and showing -/

section Showing

variable {b : Builder} {root : Element}

/-- Every declared state can be referred to. -/
def Builder.Finds (b : Builder) (root : Element) : Prop :=
  ∀ n, (b.registry.find? n).isSome → ∃ h ∈ root.headers, h.id = .minted (.state b.load n) ∧ h.IsState n

/-- A node and the transition built from it: both lead to FINAL or neither, and the one is shown as the other. -/
def Builder.Renders (b : Builder) (root : Element) (c : Tree) (t : Transition) : Prop :=
  (c.target? = some "FINAL" ↔ t.target.isFinal = true) ∧
    ∀ e, t.toElement b.load = .ok e → root.ShowsTransition c e

theorem Builder.target_inv {source text : String} {i : Nat} {around : List String} {target : Target}
    (h : b.target source i around text = .ok target) :
    (text = "FINAL" ∧ target.isFinal = true) ∨
      (text ≠ "FINAL" ∧ target = .state text ∧ (b.registry.find? text).isSome) := by
  unfold Builder.target at h
  split at h
  · rename_i hf
    cases h
    exact Or.inl ⟨hf, rfl⟩
  · rename_i hf
    split at h
    · rename_i hd
      cases h
      exact Or.inr ⟨hf, rfl, hd⟩
    · cases h

theorem Transition.toElement_header {load : Nat} {t : Transition} {e : Element} (h : t.toElement load = .ok e) :
    e.header = ⟨.minted t.id, ["Transition"], [("trigger", .str t.trigger)], t.targetRef load, some t.location,
      some t.label⟩ := by
  obtain ⟨guard, -, h⟩ := bind_eq_ok.mp h
  obtain rfl := pure_eq_ok.mp h
  rfl

theorem Builder.transition_renders (hroot : b.Finds root) {source : String} {around : List String} {i : Nat} {n : Node}
    {cs : List Tree} {t : Transition} (h : b.transition source around i n cs = .ok t) :
    b.Renders root (.node n cs) t := by
  unfold Builder.transition at h
  obtain ⟨arrow, harrow, h⟩ := bind_eq_ok.mp h
  obtain ⟨guard, -, h⟩ := bind_eq_ok.mp h
  obtain ⟨as, -, h⟩ := bind_eq_ok.mp h
  obtain ⟨head, hhead, h⟩ := bind_eq_ok.mp h
  obtain ⟨trigger, htrigger, h⟩ := bind_eq_ok.mp h
  obtain ⟨target, htarget, h⟩ := bind_eq_ok.mp h
  obtain rfl := pure_eq_ok.mp h
  have hhead : n.target.map (·.text) = some head.text := by rw [need_eq_ok.mp hhead]; rfl
  have htrigger : n.trigger.map (·.text) = some trigger.text := by rw [need_eq_ok.mp htrigger]; rfl
  have htarget := Builder.target_inv htarget
  refine ⟨?_, fun e he => ?_⟩
  · rw [Tree.target?, hhead]
    rcases htarget with ⟨hf, hfin⟩ | ⟨hf, rfl, -⟩
    · simp [hf, hfin]
    · simp [hf, Target.isFinal]
  have hh := Transition.toElement_header he
  refine ⟨by rw [hh], ⟨arrow, _, need_eq_ok.mp harrow, by rw [hh], rfl, rfl⟩, ⟨_, htrigger, by rw [hh]⟩, ?_, ?_⟩
  · intro hfin
    rw [Tree.target?, hhead] at hfin
    rcases htarget with ⟨-, hfinal⟩ | ⟨hf, -⟩
    · rw [hh]
      cases target with
      | state n => cases hfinal
      | final i a => rfl
    · exact absurd (Option.some.inj hfin) hf
  · intro hne
    rw [Tree.target?, hhead] at hne
    rcases htarget with ⟨hf, -⟩ | ⟨-, rfl, hd⟩
    · exact absurd (congrArg some hf) hne
    · obtain ⟨k, hk, hid, hstate⟩ := hroot _ hd
      refine ⟨_, hhead, k, hk, hstate, ?_⟩
      rw [hh, hid]
      rfl

/-- The transitions of one of the two lists, in the order of the text. -/
theorem Builder.transitions_show (hroot : b.Finds root) {source : String} {around : List String} {cs : List Tree}
    {ts : List Transition} (h : b.transitions source around cs = .ok ts) (final : Bool) {es : List Element}
    (hes : (ts.filter fun t => t.target.isFinal == final).mapM (·.toElement b.load) = .ok es) :
    List.Forall₂ root.ShowsTransition (Tree.transitionsOf final cs) es := by
  have hall : List.Forall₂ (b.Renders root) (Tree.allOf .transition cs) ts := by
    rw [← List.zipIdx_map_fst 0 (Tree.allOf .transition cs), List.forall₂_map_left_iff]
    refine (mapM_eq_ok h).imp fun c t hc => ?_
    obtain ⟨c, i⟩ := c
    cases c with
    | leaf _ => cases hc
    | fault _ => cases hc
    | node n us => exact Builder.transition_renders hroot hc
  have hpart : List.Forall₂ (b.Renders root) (Tree.transitionsOf final cs)
      (ts.filter fun t => t.target.isFinal == final) := by
    refine List.rel_filter (fun c t hct => ?_) hall
    have hsame : (c.target? == some "FINAL") = t.target.isFinal := by
      rw [Bool.eq_iff_iff, beq_iff_eq, hct.1]
    show ((c.target? == some "FINAL") == final) = true ↔ _
    rw [hsame]
  exact (forall₂_meet hpart.flip (mapM_eq_ok hes)).imp fun c e ⟨t, hct, hte⟩ => hct.2 e hte

theorem Builder.state_shown (hroot : b.Finds root) {name type : String} {around ancestors : List String}
    {cs : List Tree} {ts : List Transition} {states : List (String × Child)} {refs : List (String × Ref)} {e : Element}
    (hname : Tree.nameOf? cs = some name) (hts : b.transitions name around cs = .ok ts)
    (he : (b.state name ancestors ts).toElement b.load type states refs = .ok e) :
    root.ShowsState type (["transitions", "final transitions"] ++ states.map (·.1)) cs e ∧ e.header.refs = refs ∧
      ∃ us fs, e.children = [("transitions", .many us), ("final transitions", .many fs)] ++ states := by
  obtain ⟨us, hus, he⟩ := bind_eq_ok.mp he
  obtain ⟨fs, hfs, he⟩ := bind_eq_ok.mp he
  obtain rfl := pure_eq_ok.mp he
  refine ⟨⟨rfl, ⟨name, hname, rfl⟩, by simp [Element.children], ⟨us, rfl, ?_⟩, ⟨fs, rfl, ?_⟩⟩, rfl, us, fs, rfl⟩
  · refine Builder.transitions_show hroot hts false ?_
    simpa [Builder.state] using hus
  · refine Builder.transitions_show hroot hts true ?_
    simpa [Builder.state] using hfs

theorem Builder.initial_shown (hroot : b.Finds root) {built : Registry} {cs : List Tree} {it : Tree} {i : Initial}
    {e : Element} (hit : Tree.firstOf? .initial cs = some it) (hi : b.initial built it = .ok i)
    (he : e.header.refs = [("initialState", .one (.minted (.state b.load i.target)))]) : root.ShowsInitial cs e := by
  obtain ⟨k, hk, hid, hstate⟩ := hroot _ (Builder.initial_declared hi)
  refine ⟨it, i.target, hit, ?_, k, hk, hstate, by rw [he, hid]⟩
  unfold Builder.initial at hi
  split at hi
  · obtain ⟨tok, ht, hi⟩ := bind_eq_ok.mp hi
    obtain ⟨d, -, hi⟩ := bind_eq_ok.mp hi
    obtain rfl := pure_eq_ok.mp hi
    rw [Tree.target?, need_eq_ok.mp ht]
    rfl
  · cases hi

mutual

theorem member_shown (hroot : b.Finds root) : ∀ (t : Tree) {around : List String} {k : Member} {e : Element},
    b.member around t = .ok k → k.toElement b.load = .ok e → ∃ c, t.context? = some c ∧ root.Shows c e
  | .leaf _, _, _, _, hk, he => by cases hk; cases he
  | .fault _, _, _, _, hk, he => by cases hk; cases he
  | .node n cs, around, k, e, hk, he => by
    unfold Builder.member at hk
    unfold Tree.context?
    cases hrule : n.rule with
    | state =>
      rw [hrule] at hk
      exact firstMember_shown hroot cs hk he
    | simple =>
      rw [hrule] at hk
      obtain ⟨tok, ht, hk⟩ := bind_eq_ok.mp hk
      obtain ⟨ts, hts, hk⟩ := bind_eq_ok.mp hk
      obtain rfl := pure_eq_ok.mp hk
      obtain ⟨hs, href, -⟩ := Builder.state_shown hroot (Builder.need_name_eq_ok ht) hts he
      exact ⟨_, rfl, .simple hrule hs href⟩
    | composite =>
      rw [hrule] at hk
      obtain ⟨tok, ht, hk⟩ := bind_eq_ok.mp hk
      obtain ⟨it, hit, hk⟩ := bind_eq_ok.mp hk
      obtain ⟨i, hi, hk⟩ := bind_eq_ok.mp hk
      obtain ⟨ts, hts, hk⟩ := bind_eq_ok.mp hk
      obtain ⟨ms, hms, hk⟩ := bind_eq_ok.mp hk
      obtain rfl := pure_eq_ok.mp hk
      obtain ⟨es, hes, he⟩ := bind_eq_ok.mp he
      obtain ⟨hs, href, us, fs, hcs⟩ := Builder.state_shown hroot (Builder.need_name_eq_ok ht) hts he
      refine ⟨_, rfl, .composite hrule hs (Builder.initial_shown hroot (need_eq_ok.mp hit) hi href) ?_
        (members_shown hroot cs hms hes)⟩
      rw [Element.list?, hcs]
      rfl
    | _ =>
      rw [hrule] at hk
      obtain rfl := pure_eq_ok.mp hk
      cases he

theorem firstMember_shown (hroot : b.Finds root) : ∀ (cs : List Tree) {around : List String} {k : Member} {e : Element},
    b.firstMember around cs = .ok k → k.toElement b.load = .ok e →
    ∃ c, Tree.firstContext? cs = some c ∧ root.Shows c e
  | [], _, _, _, hk, _ => by cases hk
  | c :: _, _, _, _, hk, he => member_shown hroot c hk he

theorem members_shown (hroot : b.Finds root) : ∀ (cs : List Tree) {around : List String} {ms : List Member}
    {es : List Element}, b.members around cs = .ok ms → membersToElements b.load ms = .ok es →
    List.Forall₂ root.Shows (Tree.contexts cs) es
  | [], _, _, _, hms, hes => by cases hms; cases hes; exact .nil
  | c :: cs, around, ms, es, hms, hes => by
    unfold Builder.members at hms
    split at hms
    · rename_i hc
      obtain ⟨k, hk, hms⟩ := bind_eq_ok.mp hms
      obtain ⟨ms', hms', hms⟩ := bind_eq_ok.mp hms
      obtain rfl := pure_eq_ok.mp hms
      obtain ⟨e, he, hes⟩ := bind_eq_ok.mp hes
      obtain ⟨es', hes', hes⟩ := bind_eq_ok.mp hes
      obtain rfl := pure_eq_ok.mp hes
      obtain ⟨x, hx, hshow⟩ := member_shown hroot c hk he
      have hcons : Tree.contexts (c :: cs) = x :: Tree.contexts cs := by
        simp [Tree.contexts, Tree.allOf, hc, hx]
      rw [hcons]
      exact .cons hshow (members_shown hroot cs hms' hes')
    · rename_i hc
      have hskip : Tree.contexts (c :: cs) = Tree.contexts cs := by simp [Tree.contexts, Tree.allOf, hc]
      rw [hskip]
      exact members_shown hroot cs hms hes

end

end Showing

/-- Every machine that is built and shown gives a picture of its tree. -/
theorem toElement_isPictureOf {load : Nat} {t : Tree} {m : Machine} {e : Element} (hm : Machine.ofTree load t = .ok m)
    (he : m.toElement = .ok e) : e.IsPictureOf t := by
  obtain ⟨b, hload, hload', hr, hms, it, i, hit, hi, hinit⟩ := ofTree_inv hm
  have hsame : m.load = b.load := hload'.trans hload.symm
  have hfinds : b.Finds e := by
    intro n hn
    rw [← hsame]
    refine exists_header hm he ?_
    rw [Machine.find?_isSome, ← declared_names hr hms]
    exact Registry.find?_isSome.mp hn
  have hparts := he
  obtain ⟨es, hes, hparts⟩ := bind_eq_ok.mp hparts
  obtain rfl := pure_eq_ok.mp hparts
  rw [hsame] at hes
  refine ⟨headers_distinct hm he, fun h hh r hr => refs_closed hm he hh hr, state_headers hm he,
    ⟨es, rfl, members_shown hfinds t.children hms hes⟩, Builder.initial_shown hfinds hit hi ?_⟩
  rw [← hsame]
  simp [Element.header, hinit]

/-! ## Reading a file -/

namespace Gong

/-- A gong; the semicolon after its last transition is missing. -/
def text : String := r"StateMachine Gong{INITIAL->Up;state Up{->FINAL:'stop';->Up:'hit'}}"

def session : Session := Session.empty.afterAll [.text "gong" text]

/-- How many complaints there are about a text, and whether it was taken all the same. -/
def verdict (r : Reply) : Nat × Bool := (r.complaints.length, r.result.isOk)

theorem verdict_session : verdict (session.parse (.str "gong")).2 = (1, true) := by decide +kernel

end Gong

namespace Session

theorem shown_eq_ok {m : Machine} {a : Answer} (h : shown m = .ok a) : ∃ e, m.toElement = .ok e ∧ a = .root e := by
  unfold shown at h
  split at h
  · rename_i e he
    cases h
    exact ⟨e, he, rfl⟩
  · cases h

/-- A file that is answered was read, and built a machine that is shown. -/
theorem builds_of_ok {s : Session} {file : Value} {a : Answer} (h : (s.parse file).2.result = .ok a) :
    ∃ name text m, s.Builds file name text m ∧ shown m = .ok a := by
  unfold Session.parse at h
  split at h
  · cases h
  · rename_i name bytes hopen
    split at h
    · cases h
    · rename_i text htext
      dsimp only at h
      split at h
      · cases h
      · rename_i m hm
        exact ⟨name, text, m, ⟨⟨bytes, hopen, htext⟩, hm⟩, h⟩

/-- Whenever a file is read, the answer is a picture of the tree of its text. -/
theorem shown_is_picture (s : Session) (file : Value) {a : Answer} (h : (s.parse file).2.result = .ok a) :
    ∃ name text m e, s.Builds file name text m ∧ a = .root e ∧ e.IsPictureOf (Statechart.parse .machine text).tree := by
  obtain ⟨name, text, m, hb, hshown⟩ := builds_of_ok h
  obtain ⟨e, he, rfl⟩ := shown_eq_ok hshown
  exact ⟨name, text, m, e, hb, rfl, toElement_isPictureOf hb.built he⟩

/-- The gong is shown, though its text had to be mended. -/
theorem mended_gong_is_picture :
    (Gong.session.parse (.str "gong")).2.complaints.length = 1 ∧
    ∃ a, (Gong.session.parse (.str "gong")).2.result = .ok a ∧
      ∃ name text m e, Gong.session.Builds (.str "gong") name text m ∧ a = .root e ∧
        e.IsPictureOf (Statechart.parse .machine text).tree := by
  have hverdict := Gong.verdict_session
  simp only [Gong.verdict, Prod.mk.injEq] at hverdict
  obtain ⟨hcount, hok⟩ := hverdict
  refine ⟨hcount, ?_⟩
  cases hres : (Gong.session.parse (.str "gong")).2.result with
  | ok a => exact ⟨a, rfl, shown_is_picture Gong.session (.str "gong") hres⟩
  | error f =>
    rw [hres] at hok
    cases hok

end Session

end Statechart
