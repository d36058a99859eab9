/-
  Statechart.Proofs.Parentage — what the parents and depths of a machine that is built say
  of where its states stand.

  Simple states are built with the composite state around them as their parent, composite
  states without one. An initial pseudo-state takes the parent that its target has at
  that moment: the target of a composite state is, as a rule, built after it and has none
  yet.

  Proved (`parent_of_simple_only`): the parent of a simple state is the composite state
  that holds it, and its depth says whether it is inside one; a composite state has
  neither, wherever it stands. The initial pseudo-state of a composite state never has
  that composite state as its parent. It has one at all only if it leads to a simple
  state that is declared earlier, and then the composite state that holds that.
  So parents are not containment from the second level on (`wing_unknown_inside`).
-/

import Statechart.Proofs.Nesting
import Statechart.Proofs.Sites
import Statechart.Tree.Parser

namespace Statechart

/-! ## Enclosing states -/

/-- The composite states around a state, the outermost first. -/
def Machine.enclosing (m : Machine) (n : String) : List String :=
  (m.composites.filter fun c => n ∈ (declaredAll c.2).map (·.state.name)).map (·.1.name)

mutual

theorem Member.composites_trans : ∀ (m : Member) {c c' : State × List Member}, c ∈ m.composites →
    c' ∈ compositesAll c.2 → c' ∈ m.composites
  | .simple _, _, _, h, _ => by cases h
  | .hole, _, _, h, _ => by cases h
  | .composite s i ms, c, c', h, h' => by
    rcases List.mem_cons.mp h with rfl | h
    · exact List.mem_cons_of_mem _ h'
    · exact List.mem_cons_of_mem _ (compositesAll_trans ms h h')

theorem compositesAll_trans : ∀ (ms : List Member) {c c' : State × List Member}, c ∈ compositesAll ms →
    c' ∈ compositesAll c.2 → c' ∈ compositesAll ms
  | [], _, _, h, _ => by cases h
  | m :: ms, c, c', h, h' => by
    rcases List.mem_append.mp h with h | h
    · exact List.mem_append_left _ (m.composites_trans h h')
    · exact List.mem_append_right _ (compositesAll_trans ms h h')

end

mutual

/-- A composite state stands right before the states it contains. -/
theorem Member.composites_split : ∀ (m : Member) {c : State × List Member}, c ∈ m.composites →
    ∃ ds i es, m.declared = ds ++ .composite c.1 i :: (declaredAll c.2 ++ es)
  | .simple _, _, h => by cases h
  | .hole, _, h => by cases h
  | .composite s i ms, c, h => by
    rcases List.mem_cons.mp h with rfl | h
    · exact ⟨[], i, [], by simp [Member.declared]⟩
    · obtain ⟨ds, j, es, hd⟩ := compositesAll_split ms h
      exact ⟨.composite s i :: ds, j, es, by rw [Member.declared, hd, List.cons_append]⟩

theorem compositesAll_split : ∀ (ms : List Member) {c : State × List Member}, c ∈ compositesAll ms →
    ∃ ds i es, declaredAll ms = ds ++ .composite c.1 i :: (declaredAll c.2 ++ es)
  | [], _, h => by cases h
  | m :: ms, c, h => by
    rw [declaredAll]
    rcases List.mem_append.mp h with h | h
    · obtain ⟨ds, i, es, hd⟩ := m.composites_split h
      exact ⟨ds, i, es ++ declaredAll ms, by rw [hd]; simp⟩
    · obtain ⟨ds, i, es, hd⟩ := compositesAll_split ms h
      exact ⟨m.declared ++ ds, i, es, by rw [hd]; simp⟩

end

/-! ## Depth -/

section Depth

variable {load : Nat} {t : Tree} {m : Machine}

/-- A simple state has no ancestor exactly if no composite state is around it. -/
theorem ancestors_eq_nil_iff (h : Machine.ofTree load t = .ok m) {s : State} (hs : .simple s ∈ m.declared) :
    s.ancestors = [] ↔ m.enclosing s.name = [] := by
  obtain ⟨b, -, hb⟩ := ofTree_places h
  have hwf := ofTree_wellFormed h
  rw [Machine.enclosing, List.map_eq_nil_iff, List.filter_eq_nil_iff]
  simp only [decide_eq_true_eq]
  constructor
  · intro hnil c hc hin
    obtain ⟨d, hd, hname⟩ := List.mem_map.mp hin
    -- Names are distinct, so what stands inside `c` under this name is the simple state.
    have hfind := hwf.find? (compositesAll_subset m.members hc hd)
    rw [hname, show s.name = (Declared.simple s).state.name from rfl, hwf.find? hs] at hfind
    obtain rfl := Option.some.inj hfind
    rcases simple_placedAll c.2 hd with hin | ⟨c', hc', hin⟩
    · rw [hb.inside c hc s hin] at hnil
      cases hnil
    · rw [hb.inside c' (compositesAll_trans m.members hc hc') s hin] at hnil
      cases hnil
  · intro hout
    rcases simple_placedAll m.members hs with htop | ⟨c, hc, hin⟩
    · exact hb.simple s htop
    · exact absurd (List.mem_map.mpr ⟨_, mem_declaredAll hin List.mem_cons_self, rfl⟩) (hout c hc)

/-- The depth of a simple state says whether it is inside a composite state, not how deep. -/
theorem depth_eq_min (h : Machine.ofTree load t = .ok m) {s : State} (hs : .simple s ∈ m.declared) :
    s.depth = min 1 (m.enclosing s.name).length := by
  have hnil := ancestors_eq_nil_iff h hs
  rw [State.depth]
  rcases (ofTree_wellFormed h).simple s hs with ha | ⟨c, i, -, ha⟩
  · rw [ha, hnil.mp ha]
    rfl
  · have : m.enclosing s.name ≠ [] := fun hn => by
      rw [hnil.mpr hn] at ha
      cases ha
    have := List.length_pos_iff.mpr this
    rw [ha, List.length_singleton]
    omega

end Depth

/-! ## Initial pseudo-states -/

theorem forall₂_split {α β : Type} {R : α → β → Prop} {b : β} {cs : List β} : ∀ {bs : List β} {as : List α},
    List.Forall₂ R as (bs ++ b :: cs) → ∃ xs a ys, as = xs ++ a :: ys ∧ List.Forall₂ R xs bs ∧ R a b
  | [], _, .cons hab _ => ⟨[], _, _, rfl, .nil, hab⟩
  | _ :: _, _, .cons hab h => by
    obtain ⟨xs, a, ys, rfl, hxs, ha⟩ := forall₂_split h
    exact ⟨_ :: xs, a, ys, rfl, .cons hab hxs, ha⟩

/-- Where keys are distinct, what stands before a member is what is met before its key. -/
theorem takeWhile_of_nodup {α : Type} {f : α → String} {as bs : List α} {a : α} (h : ((as ++ a :: bs).map f).Nodup) :
    (as ++ a :: bs).takeWhile (fun x => f x != f a) = as := by
  have hnot : ∀ x ∈ as, f x ≠ f a := by
    intro x hx heq
    rw [List.map_append, List.nodup_append'] at h
    exact h.2.2 (List.mem_map_of_mem hx) (by simp [heq])
  rw [List.takeWhile_append_of_pos (by simpa using hnot)]
  simp

theorem Registry.parentOf_eq_some_iff {r : Registry} (hr : r.names.Nodup) {n p : String} :
    r.parentOf n = some p ↔ ∃ d ∈ r, d.name = n ∧ d.composite = false ∧ d.container = some p := by
  rw [Registry.parentOf, Option.bind_eq_some_iff]
  constructor
  · rintro ⟨d, hd, hp⟩
    have := List.find?_some hd
    simp only [Bool.and_eq_true, beq_iff_eq, Bool.not_eq_true'] at this
    exact ⟨d, List.mem_of_find?_eq_some hd, this.1, this.2, hp⟩
  · rintro ⟨d, hd, rfl, hs, hp⟩
    refine ⟨d, ?_, hp⟩
    obtain ⟨e, he⟩ := Option.isSome_iff_exists.mp
      (List.find?_isSome (p := fun x : Declaration => x.name == d.name && !x.composite).mpr ⟨d, hd, by simp [hs]⟩)
    have := List.find?_some he
    simp only [Bool.and_eq_true, beq_iff_eq] at this
    rw [he, List.inj_on_of_nodup_map hr (List.mem_of_find?_eq_some he) hd this.1]

/-- What is declared, and what is built for it. -/
structure Declaration.Gives (x : Declaration) (d : Declared) : Prop where
  key : x.key = d.key
  parent : ∀ s, d = .simple s → s.parent? = x.container

/-- What is declared and what is built at one site. -/
theorem Site.Declares.gives {b : Builder} {s : Site} {x : Declaration} {d : Declared} (hx : s.Declares x)
    (hd : b.Builds s d) : x.Gives d := by
  obtain ⟨hname, hrule, hcont⟩ := hx
  cases hd with
  | @simple container cs name ts hn _ =>
    have hc : x.composite = false := by
      cases hcomp : x.composite with
      | false => rfl
      | true => simp [hcomp] at hrule
    obtain rfl : name = x.name := Option.some.inj (hn.symm.trans hname)
    refine ⟨by simp [Declaration.key, Declared.key, Builder.state, hc], fun s hs => ?_⟩
    cases hs
    rw [hcont]
    cases container <;> rfl
  | @composite container cs name it i ts hn _ _ _ =>
    have hc : x.composite = true := by
      cases hcomp : x.composite with
      | true => rfl
      | false => simp [hcomp] at hrule
    obtain rfl : name = x.name := Option.some.inj (hn.symm.trans hname)
    exact ⟨by simp [Declaration.key, Declared.key, Builder.state, hc], fun s hs => nomatch hs⟩

theorem Builder.initial_parent {b : Builder} {built : Registry} {it : Tree} {i : Initial}
    (h : b.initial built it = .ok i) : i.parent = built.parentOf i.target := by
  unfold Builder.initial at h
  split at h
  · obtain ⟨tok, -, h⟩ := bind_eq_ok.mp h
    obtain ⟨d, -, h⟩ := bind_eq_ok.mp h
    obtain rfl := pure_eq_ok.mp h
    rfl
  · cases h

section Initial

variable {load : Nat} {t : Tree} {m : Machine}

/-- The machine's own initial pseudo-state is made before any state. -/
theorem initial_parent_eq_none (h : Machine.ofTree load t = .ok m) : ∃ i, m.initial = some i ∧ i.parent = none := by
  obtain ⟨b, -, -, -, -, it, i, -, hi, hm⟩ := ofTree_inv h
  exact ⟨i, hm, Builder.initial_parent hi⟩

/-- The initial pseudo-state of a composite state has the parent of the simple state it leads to, if that is declared
    before the composite state. -/
theorem initial_parent_eq_some_iff (h : Machine.ofTree load t = .ok m) {ds es : List Declared} {c : State} {i : Initial}
    (hm : m.declared = ds ++ .composite c (some i) :: es) {p : String} :
    i.parent = some p ↔ ∃ s, .simple s ∈ ds ∧ s.name = i.target ∧ s.parent? = some p := by
  obtain ⟨b, -, -, hr, hms, -⟩ := ofTree_inv h
  have hbuilt := declared_sites hms
  rw [hm] at hbuilt
  -- The registry is cut at the composite state as the list of states is.
  obtain ⟨xs, x, ys, hreg, hxs, s, hx, hc⟩ := forall₂_split (forall₂_meet (registry_sites hr) hbuilt)
  have hdistinct : b.registry.names.Nodup := declareStates_distinct t.children hr List.nodup_nil
  have hbefore : b.registry.before x.name = xs := by
    rw [hreg] at hdistinct ⊢
    exact takeWhile_of_nodup hdistinct
  have hparent : i.parent = Registry.parentOf xs i.target := by
    have hname := hx.name
    cases hc with
    | @composite container cs name it _ ts hn _ hi _ =>
      obtain rfl : name = x.name := Option.some.inj (hn.symm.trans hname)
      rw [← hbefore]
      exact Builder.initial_parent hi
  have hxs : List.Forall₂ Declaration.Gives xs ds := hxs.imp fun y d ⟨_, hy, hd⟩ => hy.gives hd
  have hnodup : Registry.names xs |>.Nodup := by
    rw [hreg, Registry.names, List.map_append] at hdistinct
    exact hdistinct.of_append_left
  rw [hparent, Registry.parentOf_eq_some_iff hnodup]
  constructor
  · rintro ⟨y, hy, hname, hsimple, hp⟩
    obtain ⟨d, hd, hg⟩ := exists_of_forall₂ hxs.flip y hy
    obtain ⟨hkey, hpar⟩ : y.Gives d := hg
    cases d with
    | composite s j => simp [Declaration.key, Declared.key, hsimple] at hkey
    | simple s =>
      simp only [Declaration.key, Declared.key, Prod.mk.injEq] at hkey
      exact ⟨s, hd, hkey.1.symm.trans hname, (hpar s rfl).trans hp⟩
  · rintro ⟨s, hs, hname, hp⟩
    obtain ⟨y, hy, hg⟩ := exists_of_forall₂ hxs _ hs
    have hkey := hg.key
    simp only [Declaration.key, Declared.key, Prod.mk.injEq] at hkey
    exact ⟨y, hy, hkey.1.trans hname, hkey.2, (hg.parent s rfl).symm.trans hp⟩

/-- What a composite state holds is declared after it. -/
theorem not_parent_of_before (h : Machine.ofTree load t = .ok m) {ds es : List Declared} {c s : State}
    {i : Option Initial} (hm : m.declared = ds ++ .composite c i :: es) (hs : .simple s ∈ ds) :
    s.parent? ≠ some c.name := by
  intro hp
  obtain ⟨b, -, hb⟩ := ofTree_places h
  have hdistinct := (ofTree_wellFormed h).distinct
  rcases simple_placedAll m.members (hm ▸ List.mem_append_left _ hs) with htop | ⟨k, hk, hin⟩
  · rw [State.parent?, hb.simple s htop] at hp
    cases hp
  · rw [State.parent?, hb.inside k hk s hin] at hp
    have hname : k.1.name = c.name := by simpa using hp
    obtain ⟨ds', j, es', hm'⟩ := compositesAll_split m.members hk
    -- The composite state stands in one place, and the simple state would stand on both sides of it.
    have hds : ds = ds' := by
      have hcut := takeWhile_of_nodup (hm ▸ hdistinct : ((ds ++ .composite c i :: es).map (·.state.name)).Nodup)
      have hcut' := takeWhile_of_nodup
        (hm' ▸ hdistinct : ((ds' ++ .composite k.1 j :: (declaredAll k.2 ++ es')).map (·.state.name)).Nodup)
      rw [← hcut, ← hcut', ← hm, ← hm', Declared.state, Declared.state, hname]
      rfl
    have hnd : m.declared.Nodup := hdistinct.of_map _
    rw [show m.declared = _ from hm', List.nodup_append'] at hnd
    exact hnd.2.2 (hds ▸ hs)
      (List.mem_cons_of_mem _ (List.mem_append_left _ (mem_declaredAll hin List.mem_cons_self)))

/-- Parents are those of the states that hold a simple state, and no others. -/
theorem simple_parent_eq_some_iff (h : Machine.ofTree load t = .ok m) {s : State} (hs : .simple s ∈ m.declared)
    {p : String} : s.parent? = some p ↔ m.Holds p s.name := by
  have hfind : m.find? s.name = some (.simple s) := (ofTree_wellFormed h).find? hs
  rw [← parent_eq_some_iff h hfind]
  simp [Machine.parent?, Machine.state?, hfind, Declared.state]

end Initial

/-! ## Parents and containment -/

namespace Inn

/-- A wing with a room with a bed, and a barn with hay; whoever enters the barn is shown to the bed. -/
def text : String :=
  r"StateMachine Inn{INITIAL->Bed;" ++
  r"composite state Wing{INITIAL->Room;composite state Room{INITIAL->Bed;state Bed{}}}" ++
  r"composite state Barn{INITIAL->Bed;state Hay{}}}"

/-- What is seen in the inn: two initial pseudo-states, those of the wing and of the barn, and where things stand. -/
def Seen (m : Machine) (wing room bed : State) (i k : Initial) : Prop :=
  (i = ⟨room.name, none⟩ ∧ k = ⟨bed.name, some room.name⟩) ∧
  (m.Holds wing.name room.name ∧ (m.enclosing room.name).length = 1 ∧ room.parent? = none ∧ room.depth = 0) ∧
  m.Holds room.name bed.name ∧ (m.enclosing bed.name).length = 2 ∧ bed.depth = 1

instance (m : Machine) (wing room bed : State) (i k : Initial) : Decidable (Seen m wing room bed i k) :=
  inferInstanceAs (Decidable (_ ∧ _))

/-- Whether the inn that was read looks like this. -/
def looksRight (p : Parsed) : Bool :=
  match Machine.ofTree 0 p.tree with
  | .error _ => false
  | .ok m =>
    match m.declared with
    | [.composite wing (some i), .composite room _, .simple bed, .composite _ (some k), _] =>
      p.complaints = [] ∧ Seen m wing room bed i k
    | _ => false

theorem exists_of_looksRight {p : Parsed} (h : looksRight p = true) :
    ∃ m wing room bed barn i j k d, p.complaints = [] ∧ Machine.ofTree 0 p.tree = .ok m ∧
      m.declared = [.composite wing (some i), .composite room j, .simple bed, .composite barn (some k), d] ∧
      Seen m wing room bed i k := by
  unfold looksRight at h
  split at h
  · cases h
  · rename_i m hm
    split at h
    · rename_i wing i room j bed barn k d hd
      obtain ⟨hc, hseen⟩ := of_decide_eq_true h
      exact ⟨m, wing, room, bed, barn, i, j, k, d, hc, hm, hd, hseen⟩
    · cases h

theorem exists_seen : ∃ m wing room bed barn i j k d, (parse .machine text).complaints = [] ∧
    Machine.ofTree 0 (parse .machine text).tree = .ok m ∧
    m.declared = [.composite wing (some i), .composite room j, .simple bed, .composite barn (some k), d] ∧
    Seen m wing room bed i k :=
  exists_of_looksRight (by decide +kernel)

end Inn

/-- The parent of a simple state is the composite state that holds it, if any, and its depth is 1 inside a composite
    state and 0 outside; composite states have no parent and depth 0. The machine's initial pseudo-state has no
    parent; that of a composite state never has the composite state as its parent, but that of its target if this is
    a simple state declared before. -/
theorem Machine.parent_of_simple_only {load : Nat} {t : Tree} {m : Machine} (h : Machine.ofTree load t = .ok m) :
    (∀ s, .simple s ∈ m.declared →
      (∀ p, s.parent? = some p ↔ m.Holds p s.name) ∧ s.depth = min 1 (m.enclosing s.name).length) ∧
    (∀ s, .simple s ∈ m.members → s.parent? = none) ∧
    (∀ c i, .composite c i ∈ m.declared → c.parent? = none ∧ c.depth = 0) ∧
    (∃ i, m.initial = some i ∧ i.parent = none) ∧
    ∀ ds c i es, m.declared = ds ++ .composite c (some i) :: es →
      i.parent ≠ some c.name ∧
      ∀ p, i.parent = some p ↔ ∃ s, .simple s ∈ ds ∧ s.name = i.target ∧ m.Holds p s.name := by
  have hwf := ofTree_wellFormed h
  refine ⟨fun s hs => ⟨fun p => simple_parent_eq_some_iff h hs, depth_eq_min h hs⟩, fun s hs => ?_, fun c i hc => ?_,
    initial_parent_eq_none h, fun ds c i es hm => ⟨fun hp => ?_, fun p => ?_⟩⟩
  · obtain ⟨b, -, hb⟩ := ofTree_places h
    rw [State.parent?, hb.simple s hs]
    rfl
  · have hnil := (hwf.composite c i hc).1
    exact ⟨by rw [State.parent?, hnil]; rfl, by rw [State.depth, hnil]; rfl⟩
  · obtain ⟨s, hs, -, hp⟩ := (initial_parent_eq_some_iff h hm).mp hp
    exact not_parent_of_before h hm hs hp
  · rw [initial_parent_eq_some_iff h hm]
    refine exists_congr fun s => and_congr_right fun hs => and_congr_right fun _ => ?_
    exact simple_parent_eq_some_iff h (hm ▸ List.mem_append_left _ hs)

/-- The bed has the room as its parent. The barn starts in the bed, and its initial pseudo-state takes that parent. -/
theorem Machine.barn_borrows_parent_of_bed :
    ∃ m room bed barn k, Machine.ofTree 0 (parse .machine Inn.text).tree = .ok m ∧
      (.simple bed ∈ m.declared ∧ m.Holds room bed.name ∧ bed.parent? = some room) ∧
      .composite barn (some k) ∈ m.declared ∧ k.target = bed.name ∧ k.parent = some room := by
  obtain ⟨m, wing, room, bed, barn, i, j, k, d, -, hm, hd, ⟨-, rfl⟩, -, hholds, -⟩ := Inn.exists_seen
  obtain ⟨hsimple, -, -, -, hinit⟩ := parent_of_simple_only hm
  have hbed : .simple bed ∈ m.declared := by simp [hd]
  have hbarn := (hinit [.composite wing (some i), .composite room j, .simple bed] barn _ [d] hd).2 room.name
  refine ⟨m, room.name, bed, barn, ⟨bed.name, some room.name⟩, hm, ⟨hbed, hholds, ?_⟩, by simp [hd], rfl, ?_⟩
  · exact ((hsimple bed hbed).1 room.name).mpr hholds
  · exact hbarn.mpr ⟨bed, by simp, rfl, hholds⟩

/-- The room is in the wing and has no parent, nor has the wing's initial pseudo-state that leads to it. The bed is at
    depth 1 with two states around it. The text is flawless. -/
theorem Machine.wing_unknown_inside :
    ∃ m wing room bed i j, (parse .machine Inn.text).complaints = [] ∧
      Machine.ofTree 0 (parse .machine Inn.text).tree = .ok m ∧
      (.composite wing (some i) ∈ m.declared ∧ i.target = room.name ∧ i.parent = none) ∧
      (.composite room j ∈ m.declared ∧ m.Holds wing.name room.name ∧ room.parent? = none ∧ room.depth = 0 ∧
        (m.enclosing room.name).length = 1) ∧
      .simple bed ∈ m.declared ∧ bed.depth = 1 ∧ (m.enclosing bed.name).length = 2 := by
  obtain ⟨m, wing, room, bed, barn, i, j, k, d, hc, hm, hd, ⟨rfl, -⟩, ⟨hholds, henc, hp, hdepth⟩, -, henc', hdepth'⟩ :=
    Inn.exists_seen
  refine ⟨m, wing, room, bed, ⟨room.name, none⟩, j, hc, hm, ⟨?_, rfl, rfl⟩, ⟨?_, hholds, hp, hdepth, henc⟩, ?_,
    hdepth', henc'⟩
  · simp [hd]
  · simp [hd]
  · simp [hd]

end Statechart
