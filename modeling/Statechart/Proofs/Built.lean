/-
  Statechart.Proofs.Built — what holds of every machine that is built from a tree,
  whatever the tree looks like.

  Declaring the states of a tree and building them are two walks over it. They meet the
  same states in the same order (`members_names`), so every name the registry knows is
  the name of exactly one state of the machine, and everything the builder looked up in
  the registry is there. So what is listed under a name are the transitions of one state,
  and the machine can be taken as assembled state by state (`ofTree_eq_assemble`).

  Proved (`ofTree_wellFormed`): the names of all states are distinct; a transition starts
  in the state it is listed under and leads to a declared state or to FINAL; the machine
  and each composite state start in a declared state; a simple state has no ancestor or
  one composite state, and a composite state has none.
-/

import Statechart.Proofs.Growth
import Mathlib.Data.List.Forall2
import Mathlib.Data.List.Nodup

namespace Statechart

/-! ## Results that are there -/

theorem bind_eq_ok {ε α β : Type} {r : Except ε α} {f : α → Except ε β} {b : β} :
    (r >>= f) = .ok b ↔ ∃ a, r = .ok a ∧ f a = .ok b := by
  cases r <;> simp [bind, Except.bind]

theorem bind_eq_error {ε α β : Type} {r : Except ε α} {f : α → Except ε β} {e : ε} :
    (r >>= f) = .error e ↔ r = .error e ∨ ∃ a, r = .ok a ∧ f a = .error e := by
  cases r <;> simp [bind, Except.bind]

@[simp] theorem pure_eq_ok {ε α : Type} {a b : α} : (pure a : Except ε α) = .ok b ↔ a = b := by
  simp [pure, Except.pure]

theorem need_eq_ok {α : Type} {p : Missing} {o : Option α} {a : α} : need p o = .ok a ↔ o = some a := by
  cases o <;> simp [need]

theorem mapM_eq_ok {ε α β : Type} {f : α → Except ε β} {as : List α} {bs : List β} (h : as.mapM f = .ok bs) :
    List.Forall₂ (fun a b => f a = .ok b) as bs := by
  induction as generalizing bs with
  | nil =>
    obtain rfl : [] = bs := by simpa using h
    exact .nil
  | cons a as ih =>
    rw [List.mapM_cons] at h
    obtain ⟨b, hb, h⟩ := bind_eq_ok.mp h
    obtain ⟨bs', hbs, h⟩ := bind_eq_ok.mp h
    obtain rfl := pure_eq_ok.mp h
    exact .cons hb (ih hbs)

theorem exists_of_forall₂ {α β : Type} {R : α → β → Prop} {as : List α} {bs : List β} (h : List.Forall₂ R as bs) :
    ∀ b ∈ bs, ∃ a ∈ as, R a b := by
  induction h with
  | nil => intro b hb; cases hb
  | @cons a b as bs hab _ ih =>
    intro c hc
    rcases List.mem_cons.mp hc with rfl | hc
    · exact ⟨a, List.mem_cons_self, hab⟩
    · obtain ⟨d, hd, hr⟩ := ih c hc
      exact ⟨d, List.mem_cons_of_mem _ hd, hr⟩

/-- Of things that differ in their keys, one that alone has a property is all that a filter for it leaves. -/
theorem filter_eq_singleton {α β : Type} {key : α → β} {l : List α} {a : α} {p : α → Bool}
    (hnodup : (l.map key).Nodup) (ha : a ∈ l) (hp : p a = true) (honly : ∀ b ∈ l, p b = true → b = a) :
    l.filter p = [a] := by
  obtain ⟨us, vs, rfl⟩ := List.append_of_mem ha
  rw [List.map_append, List.map_cons, List.nodup_append'] at hnodup
  obtain ⟨-, hcons, hdisjoint⟩ := hnodup
  obtain ⟨hafter, -⟩ := List.nodup_cons.mp hcons
  have hus : us.filter p = [] := by
    rw [List.filter_eq_nil_iff]
    intro u hu hpu
    rw [honly u (by simp [hu]) hpu] at hu
    exact hdisjoint (List.mem_map_of_mem hu) List.mem_cons_self
  have hvs : vs.filter p = [] := by
    rw [List.filter_eq_nil_iff]
    intro v hv hpv
    rw [honly v (by simp [hv]) hpv] at hv
    exact hafter (List.mem_map_of_mem hv)
  simp [hp, hus, hvs]

theorem exists_bind_eq_ok {ε α β : Type} {r : Except ε α} {f : α → Except ε β} :
    (∃ b, (r >>= f) = .ok b) ↔ ∃ a, r = .ok a ∧ ∃ b, f a = .ok b := by
  cases r <;> simp [bind, Except.bind]

theorem exists_mapM_eq_ok {ε α β : Type} {f : α → Except ε β} {as : List α} :
    (∃ bs, as.mapM f = .ok bs) ↔ ∀ a ∈ as, ∃ b, f a = .ok b := by
  induction as with
  | nil => simp [pure, Except.pure]
  | cons a as ih =>
    rw [List.mapM_cons, exists_bind_eq_ok, List.forall_mem_cons, ← ih]
    constructor
    · rintro ⟨b, hb, h⟩
      obtain ⟨bs, hbs, -⟩ := exists_bind_eq_ok.mp h
      exact ⟨⟨b, hb⟩, bs, hbs⟩
    · rintro ⟨⟨b, hb⟩, bs, hbs⟩
      exact ⟨b, hb, exists_bind_eq_ok.mpr ⟨bs, hbs, _, rfl⟩⟩

theorem eq_ok_of_toOption {ε α : Type} {r : Except ε α} {a : α} (h : r.toOption = some a) : r = .ok a := by
  cases r with
  | ok b =>
    cases h
    rfl
  | error e => cases h

theorem eq_error_of_isOk {ε α : Type} {r : Except ε α} (h : r.isOk = false) : ∃ e, r = .error e := by
  cases r with
  | ok a => cases h
  | error e => exact ⟨e, rfl⟩

/-! ## Transitions -/

namespace Builder

variable {b : Builder} {source : String} {around : List String}

theorem target_declared {i : Nat} {text n : String} (h : b.target source i around text = .ok (.state n)) :
    (b.registry.find? n).isSome := by
  unfold target at h
  split at h
  · cases h
  · split at h
    · rename_i hd; cases h; exact hd
    · cases h

/-- What is known of a transition of `source` in place `i`. -/
structure Leaves (b : Builder) (source : String) (i : Nat) (t : Transition) : Prop where
  id : t.id = .transition b.load source i
  source : t.source = source
  target : ∀ n, t.target = .state n → (b.registry.find? n).isSome

theorem transition_leaves {i : Nat} {n : Node} {cs : List Tree} {t : Transition}
    (h : b.transition source around i n cs = .ok t) : b.Leaves source i t := by
  unfold transition at h
  obtain ⟨arrow, -, h⟩ := bind_eq_ok.mp h
  obtain ⟨guard, -, h⟩ := bind_eq_ok.mp h
  obtain ⟨as, -, h⟩ := bind_eq_ok.mp h
  obtain ⟨head, -, h⟩ := bind_eq_ok.mp h
  obtain ⟨trigger, -, h⟩ := bind_eq_ok.mp h
  obtain ⟨target, ht, h⟩ := bind_eq_ok.mp h
  obtain rfl := pure_eq_ok.mp h
  refine ⟨rfl, rfl, fun n hn => ?_⟩
  obtain rfl : target = .state n := hn
  exact target_declared ht

theorem transitions_leave {cs : List Tree} {ts : List Transition} (h : b.transitions source around cs = .ok ts) :
    List.Forall₂ (fun (c : Tree × Nat) t => b.Leaves source c.2 t) (Tree.allOf .transition cs).zipIdx ts := by
  refine (mapM_eq_ok h).imp fun c t hc => ?_
  obtain ⟨c, i⟩ := c
  cases c with
  | node n cs => exact transition_leaves hc
  | leaf _ => cases hc
  | fault _ => cases hc

theorem transitions_ids {cs : List Tree} {ts : List Transition} (h : b.transitions source around cs = .ok ts) :
    (ts.map (·.id)).Nodup := by
  have hids : (Tree.allOf .transition cs).zipIdx.map (fun c => Id.transition b.load source c.2) = ts.map (·.id) := by
    rw [← List.forall₂_eq_eq_eq, List.forall₂_map_left_iff, List.forall₂_map_right_iff]
    exact (transitions_leave h).imp fun _ _ hc => hc.id.symm
  have hinj : Function.Injective (Id.transition b.load source) := fun i j hij => by injection hij
  have hnd : ((Tree.allOf .transition cs).zipIdx.map (·.2)).Nodup := by
    rw [List.zipIdx_map_snd]
    exact List.nodup_range'
  have := hnd.map hinj
  rw [List.map_map] at this
  exact hids ▸ this

theorem transitions_mem {cs : List Tree} {ts : List Transition} (h : b.transitions source around cs = .ok ts)
    {t : Transition} (ht : t ∈ ts) : ∃ i, b.Leaves source i t := by
  obtain ⟨c, -, hc⟩ := exists_of_forall₂ (transitions_leave h) t ht
  exact ⟨c.2, hc⟩

end Builder

/-! ## Declaring and building walk alike -/

/-- What a state is known by: its name, and whether it is composite. -/
def Declaration.key (d : Declaration) : String × Bool := (d.name, d.composite)

def Declared.key : Declared → String × Bool
  | .simple s => (s.name, false)
  | .composite s _ => (s.name, true)

theorem declare_eq_ok {r r' : Registry} {container : Option String} {composite : Bool} {cs : List Tree}
    {name : String} (h : declare r container composite cs = .ok (r', name)) :
    (∃ tok, Tree.tokenOf? .name cs = some tok ∧ tok.text = name) ∧ r.find? name = none ∧
      r'.map (·.key) = r.map (·.key) ++ [(name, composite)] := by
  unfold declare at h
  obtain ⟨keyword, -, h⟩ := bind_eq_ok.mp h
  obtain ⟨tok, ht, h⟩ := bind_eq_ok.mp h
  split at h
  · cases h
  · rename_i hn
    cases pure_eq_ok.mp h
    exact ⟨⟨tok, need_eq_ok.mp ht, rfl⟩, by simpa using hn, by simp [Declaration.key]⟩

mutual

theorem member_names (b : Builder) : ∀ (t : Tree) {container : Option String} {around : List String}
    {r r' : Registry} {m : Member}, declareTree container r t = .ok r' → b.member around t = .ok m →
    r'.map (·.key) = r.map (·.key) ++ m.declared.map (·.key)
  | .leaf _, _, _, r, r', m, hr, hm => by
    cases hr; cases hm; simp [Member.declared]
  | .fault _, _, _, r, r', m, hr, hm => by
    cases hr; cases hm; simp [Member.declared]
  | .node n cs, container, around, r, r', m, hr, hm => by
    unfold declareTree at hr
    unfold Builder.member at hm
    split at hr
    · rename_i hrule
      simp only [hrule] at hm
      exact firstMember_names b cs hr hm
    · rename_i hrule
      simp only [hrule] at hm
      obtain ⟨⟨r1, name⟩, hd, hr⟩ := bind_eq_ok.mp hr
      obtain ⟨tok, ht, hm⟩ := bind_eq_ok.mp hm
      obtain ⟨ts, -, hm⟩ := bind_eq_ok.mp hm
      obtain rfl := pure_eq_ok.mp hr
      obtain rfl := pure_eq_ok.mp hm
      obtain ⟨⟨tok', ht', rfl⟩, -, hk⟩ := declare_eq_ok hd
      obtain rfl : tok' = tok := Option.some.inj (ht'.symm.trans (need_eq_ok.mp ht))
      exact hk
    · rename_i hrule
      simp only [hrule] at hm
      obtain ⟨⟨r1, name⟩, hd, hr⟩ := bind_eq_ok.mp hr
      obtain ⟨tok, ht, hm⟩ := bind_eq_ok.mp hm
      obtain ⟨it, -, hm⟩ := bind_eq_ok.mp hm
      obtain ⟨i, -, hm⟩ := bind_eq_ok.mp hm
      obtain ⟨ts, -, hm⟩ := bind_eq_ok.mp hm
      obtain ⟨ms, hms, hm⟩ := bind_eq_ok.mp hm
      obtain rfl := pure_eq_ok.mp hm
      obtain ⟨⟨tok', ht', rfl⟩, -, hk⟩ := declare_eq_ok hd
      obtain rfl : tok' = tok := Option.some.inj (ht'.symm.trans (need_eq_ok.mp ht))
      rw [members_names b cs hr hms, hk, List.append_assoc]
      rfl
    · rename_i h1 h2 h3
      obtain rfl := pure_eq_ok.mp hr
      split at hm
      · exact absurd ‹_› h1
      · exact absurd ‹_› h2
      · exact absurd ‹_› h3
      · obtain rfl := pure_eq_ok.mp hm
        simp [Member.declared]

theorem firstMember_names (b : Builder) : ∀ (cs : List Tree) {container : Option String} {around : List String}
    {r r' : Registry} {m : Member}, declareFirst container r cs = .ok r' → b.firstMember around cs = .ok m →
    r'.map (·.key) = r.map (·.key) ++ m.declared.map (·.key)
  | [], _, _, _, _, _, hr, _ => by cases hr
  | c :: _, _, _, _, _, _, hr, hm => member_names b c hr hm

theorem members_names (b : Builder) : ∀ (cs : List Tree) {container : Option String} {around : List String}
    {r r' : Registry} {ms : List Member}, declareStates container r cs = .ok r' → b.members around cs = .ok ms →
    r'.map (·.key) = r.map (·.key) ++ (declaredAll ms).map (·.key)
  | [], _, _, _, _, _, hr, hm => by
    cases hr; cases hm; simp [declaredAll]
  | c :: cs, container, around, r, r', ms, hr, hm => by
    unfold declareStates at hr
    unfold Builder.members at hm
    split at hr
    · rename_i hc
      rw [if_pos hc] at hm
      obtain ⟨r1, h1, hr⟩ := bind_eq_ok.mp hr
      obtain ⟨m, h2, hm⟩ := bind_eq_ok.mp hm
      obtain ⟨ms', h3, hm⟩ := bind_eq_ok.mp hm
      obtain rfl := pure_eq_ok.mp hm
      rw [members_names b cs hr h3, member_names b c h1 h2]
      simp [declaredAll]
    · rename_i hc
      rw [if_neg hc] at hm
      exact members_names b cs hr hm

end

/-! ## Distinct names -/

def Registry.names (r : Registry) : List String := r.map (·.name)

theorem Registry.find?_isSome {r : Registry} {n : String} : (r.find? n).isSome ↔ n ∈ r.names := by
  simp [Registry.find?, Registry.names]

theorem declare_distinct {r r' : Registry} {container : Option String} {composite : Bool} {cs : List Tree}
    {name : String} (h : declare r container composite cs = .ok (r', name)) (hr : r.names.Nodup) :
    r'.names.Nodup := by
  obtain ⟨-, hnew, hk⟩ := declare_eq_ok h
  have hn : r'.names = r.names ++ [name] := by
    simpa [Registry.names, Declaration.key, Function.comp_def] using congrArg (List.map Prod.fst) hk
  have : name ∉ r.names := by
    rw [← Registry.find?_isSome, hnew]
    simp
  rw [hn]
  exact hr.append (List.nodup_singleton _) (by simpa using this)

mutual

theorem declareTree_distinct : ∀ (t : Tree) {container : Option String} {r r' : Registry},
    declareTree container r t = .ok r' → r.names.Nodup → r'.names.Nodup
  | .leaf _, _, _, _, h, hr => by cases h; exact hr
  | .fault _, _, _, _, h, hr => by cases h; exact hr
  | .node n cs, container, r, r', h, hr => by
    unfold declareTree at h
    split at h
    · exact declareFirst_distinct cs h hr
    · obtain ⟨⟨r1, name⟩, hd, h⟩ := bind_eq_ok.mp h
      obtain rfl := pure_eq_ok.mp h
      exact declare_distinct hd hr
    · obtain ⟨⟨r1, name⟩, hd, h⟩ := bind_eq_ok.mp h
      exact declareStates_distinct cs h (declare_distinct hd hr)
    · obtain rfl := pure_eq_ok.mp h
      exact hr

theorem declareFirst_distinct : ∀ (cs : List Tree) {container : Option String} {r r' : Registry},
    declareFirst container r cs = .ok r' → r.names.Nodup → r'.names.Nodup
  | [], _, _, _, h, _ => by cases h
  | c :: _, _, _, _, h, hr => declareTree_distinct c h hr

theorem declareStates_distinct : ∀ (cs : List Tree) {container : Option String} {r r' : Registry},
    declareStates container r cs = .ok r' → r.names.Nodup → r'.names.Nodup
  | [], _, _, _, h, hr => by cases h; exact hr
  | c :: cs, container, r, r', h, hr => by
    unfold declareStates at h
    split at h
    · obtain ⟨r1, h1, h⟩ := bind_eq_ok.mp h
      exact declareStates_distinct cs h (declareTree_distinct c h1 hr)
    · exact declareStates_distinct cs h hr

end

/-! ## What is built for each state -/

/-- What building makes sure of for a state among `ds`, built inside `around`. -/
structure Builder.Makes (b : Builder) (around : List String) (ds : List Declared) (d : Declared) : Prop where
  leaves : ∀ t ∈ d.state.outgoing, ∃ i, b.Leaves d.state.name i t
  ids : (d.state.outgoing.map (·.id)).Nodup
  simple : ∀ s, d = .simple s →
    s.ancestors = around ∨ ∃ c i, .composite c i ∈ ds ∧ s.ancestors = [c.name]
  composite : ∀ s i, d = .composite s i → s.ancestors = [] ∧ ∃ j, i = some j ∧ (b.registry.find? j.target).isSome

namespace Builder

variable {b : Builder} {around : List String}

theorem Makes.mono {ds ds' : List Declared} {d : Declared} (h : b.Makes around ds d) (hs : ds ⊆ ds') :
    b.Makes around ds' d := by
  refine ⟨h.leaves, h.ids, fun s hd => ?_, h.composite⟩
  rcases h.simple s hd with ha | ⟨c, i, hc, ha⟩
  · exact Or.inl ha
  · exact Or.inr ⟨c, i, hs hc, ha⟩

/-- What is built inside a composite state stands among the states of whatever the composite state is in. -/
theorem Makes.inside {ds ds' : List Declared} {d : Declared} {c : State} {i : Option Initial}
    (h : b.Makes [c.name] ds d) (hc : .composite c i ∈ ds') (hs : ds ⊆ ds') : b.Makes around ds' d := by
  refine ⟨h.leaves, h.ids, fun s hd => Or.inr ?_, h.composite⟩
  rcases h.simple s hd with ha | ⟨c', i', hc', ha⟩
  · exact ⟨c, i, hc, ha⟩
  · exact ⟨c', i', hs hc', ha⟩

theorem initial_declared {built : Registry} {t : Tree} {i : Initial} (h : b.initial built t = .ok i) :
    (b.registry.find? i.target).isSome := by
  unfold initial at h
  split at h
  · obtain ⟨tok, -, h⟩ := bind_eq_ok.mp h
    obtain ⟨d, hd, h⟩ := bind_eq_ok.mp h
    obtain rfl := pure_eq_ok.mp h
    rw [need_eq_ok.mp hd]
    rfl
  · cases h

end Builder

mutual

theorem member_makes (b : Builder) : ∀ (t : Tree) {around : List String} {m : Member},
    b.member around t = .ok m → ∀ d ∈ m.declared, b.Makes around m.declared d
  | .leaf _, _, _, h, d, hd => by cases h; cases hd
  | .fault _, _, _, h, d, hd => by cases h; cases hd
  | .node n cs, around, m, h, d, hd => by
    unfold Builder.member at h
    split at h
    · exact firstMember_makes b cs h d hd
    · obtain ⟨tok, -, h⟩ := bind_eq_ok.mp h
      obtain ⟨ts, hts, h⟩ := bind_eq_ok.mp h
      obtain rfl := pure_eq_ok.mp h
      obtain rfl := List.mem_singleton.mp hd
      exact ⟨fun t => Builder.transitions_mem hts, Builder.transitions_ids hts,
        fun s hs => Or.inl (by cases hs; rfl), fun s i hs => nomatch hs⟩
    · obtain ⟨tok, -, h⟩ := bind_eq_ok.mp h
      obtain ⟨it, -, h⟩ := bind_eq_ok.mp h
      obtain ⟨i, hi, h⟩ := bind_eq_ok.mp h
      obtain ⟨ts, hts, h⟩ := bind_eq_ok.mp h
      obtain ⟨ms, hms, h⟩ := bind_eq_ok.mp h
      obtain rfl := pure_eq_ok.mp h
      rcases List.mem_cons.mp hd with rfl | hd
      · refine ⟨fun t => Builder.transitions_mem hts, Builder.transitions_ids hts, (fun s hs => nomatch hs), ?_⟩
        intro s j hs
        cases hs
        exact ⟨rfl, i, rfl, Builder.initial_declared hi⟩
      · exact (members_make b cs hms d hd).inside List.mem_cons_self (List.subset_cons_self _ _)
    · obtain rfl := pure_eq_ok.mp h
      cases hd

theorem firstMember_makes (b : Builder) : ∀ (cs : List Tree) {around : List String} {m : Member},
    b.firstMember around cs = .ok m → ∀ d ∈ m.declared, b.Makes around m.declared d
  | [], _, _, h, _, _ => by cases h
  | c :: _, _, _, h, d, hd => member_makes b c h d hd

theorem members_make (b : Builder) : ∀ (cs : List Tree) {around : List String} {ms : List Member},
    b.members around cs = .ok ms → ∀ d ∈ declaredAll ms, b.Makes around (declaredAll ms) d
  | [], _, _, h, d, hd => by cases h; cases hd
  | c :: cs, around, ms, h, d, hd => by
    unfold Builder.members at h
    split at h
    · obtain ⟨m, hm, h⟩ := bind_eq_ok.mp h
      obtain ⟨ms', hms, h⟩ := bind_eq_ok.mp h
      obtain rfl := pure_eq_ok.mp h
      rcases List.mem_append.mp hd with hd | hd
      · exact (member_makes b c hm d hd).mono (List.subset_append_left _ _)
      · exact (members_make b cs hms d hd).mono (List.subset_append_right _ _)
    · exact members_make b cs h d hd

end

/-! ## Lists and states -/

theorem Declared.key_fst (d : Declared) : d.key.1 = d.state.name := by
  cases d <;> rfl

section

variable {load : Nat} {t : Tree} {registry : Registry} {ms : List Member}

/-- The registry and the machine know the same names, in the same order. -/
theorem registry_names (hr : Registry.ofTree t = .ok registry)
    (hms : Builder.members ⟨load, registry⟩ [] t.children = .ok ms) :
    registry.names = (declaredAll ms).map (·.state.name) := by
  have hkeys := congrArg (List.map Prod.fst) (members_names ⟨load, registry⟩ t.children hr hms)
  simpa [Registry.names, Declaration.key, Declared.key_fst, Function.comp_def] using hkeys

theorem declared_distinct (hr : Registry.ofTree t = .ok registry)
    (hms : Builder.members ⟨load, registry⟩ [] t.children = .ok ms) :
    ((declaredAll ms).map (·.state.name)).Nodup := by
  rw [← registry_names hr hms]
  exact declareStates_distinct t.children hr List.nodup_nil

theorem declared_source {b : Builder} {around : List String} {cs : List Tree} (hms : b.members around cs = .ok ms) :
    ∀ d ∈ declaredAll ms, ∀ e ∈ d.state.outgoing, e.source = d.state.name := by
  intro d hd e he
  obtain ⟨i, hi⟩ := (members_make b cs hms d hd).leaves e he
  exact hi.source

/-- To enter every transition and to fill in the lists at the end is to assemble the machine state by state. -/
theorem ofTree_eq_assemble (load : Nat) (t : Tree) : Machine.ofTree load t = Machine.assemble load t := by
  unfold Machine.ofTree Machine.assemble
  refine bind_congr_ok fun name _ => bind_congr_ok fun registry hr => ?_
  refine bind_congr_ok fun it _ => bind_congr_ok fun i _ => ?_
  rw [Builder.visitStates_eq, bind_map]
  refine bind_congr_ok fun ms hms => ?_
  have hunder : ∀ d ∈ declaredAll ms,
      (Links.empty.enterAll (departures (declaredAll ms))).outgoing.under d.state.name = d.state.outgoing := by
    intro d hd
    rw [Links.enterAll_outgoing, departures_of_source (declared_distinct hr hms) (declared_source hms) hd]
    rfl
  simp only [Links.growAll, fillAll_bareAll ms hunder]

end

/-- When a tree has a machine, and which: its name, its registry, its initial section and its states are there. -/
theorem ofTree_eq_ok {load : Nat} {t : Tree} {m : Machine} : Machine.ofTree load t = .ok m ↔
    ∃ name registry it i ms, Tree.tokenOf? .name t.children = some name ∧ Registry.ofTree t = .ok registry ∧
      Tree.firstOf? .initial t.children = some it ∧ Builder.initial ⟨load, registry⟩ [] it = .ok i ∧
      Builder.members ⟨load, registry⟩ [] t.children = .ok ms ∧
      m = ⟨load, name.text, some i, ms, (Links.empty.enterAll (departures (declaredAll ms))).incoming⟩ := by
  rw [ofTree_eq_assemble]
  unfold Machine.assemble
  simp only [bind_eq_ok, need_eq_ok, pure_eq_ok]
  constructor
  · rintro ⟨name, hname, registry, hr, it, hit, i, hi, ms, hms, rfl⟩
    exact ⟨name, registry, it, i, ms, hname, hr, hit, hi, hms, rfl⟩
  · rintro ⟨name, registry, it, i, ms, hname, hr, hit, hi, hms, rfl⟩
    exact ⟨name, hname, registry, hr, it, hit, i, hi, ms, hms, rfl⟩

/-! ## Well-formed machines -/

/-- What holds of a machine whose parts fit together. -/
structure Machine.WellFormed (m : Machine) : Prop where
  distinct : (m.declared.map (·.state.name)).Nodup
  source : ∀ d ∈ m.declared, ∀ t ∈ d.state.outgoing, t.source = d.state.name
  marked : ∀ d ∈ m.declared, ∀ t ∈ d.state.outgoing, ∃ i, t.id = .transition m.load d.state.name i
  ids : ∀ d ∈ m.declared, (d.state.outgoing.map (·.id)).Nodup
  target : ∀ d ∈ m.declared, ∀ t ∈ d.state.outgoing, ∀ n, t.target = .state n → (m.find? n).isSome
  starts : ∃ i, m.initial = some i ∧ (m.find? i.target).isSome
  simple : ∀ s, .simple s ∈ m.declared →
    s.ancestors = [] ∨ ∃ c i, .composite c i ∈ m.declared ∧ s.ancestors = [c.name]
  composite : ∀ s i, .composite s i ∈ m.declared →
    s.ancestors = [] ∧ ∃ j, i = some j ∧ (m.find? j.target).isSome

theorem Machine.find?_isSome {m : Machine} {n : String} : (m.find? n).isSome ↔ n ∈ m.declared.map (·.state.name) := by
  simp [Machine.find?]

/-- Every machine that is built from a tree is well-formed. -/
theorem ofTree_wellFormed {load : Nat} {t : Tree} {m : Machine} (h : Machine.ofTree load t = .ok m) : m.WellFormed := by
  obtain ⟨name, registry, it, i, ms, -, hr, -, hi, hms, hm⟩ := ofTree_eq_ok.mp h
  have hfound : ∀ n, (registry.find? n).isSome → (m.find? n).isSome := by
    intro n hn
    rw [Machine.find?_isSome, hm]
    exact registry_names hr hms ▸ Registry.find?_isSome.mp hn
  subst hm
  have hmakes := members_make ⟨load, registry⟩ t.children hms
  refine ⟨declared_distinct hr hms, declared_source hms, ?_, fun d hd => (hmakes d hd).ids, ?_,
    ⟨i, rfl, hfound _ (Builder.initial_declared hi)⟩, ?_, ?_⟩
  · intro d hd t ht
    obtain ⟨k, hk⟩ := (hmakes d hd).leaves t ht
    exact ⟨k, hk.id⟩
  · intro d hd t ht n hn
    obtain ⟨k, hk⟩ := (hmakes d hd).leaves t ht
    exact hfound n (hk.target n hn)
  · intro s hs
    exact (hmakes _ hs).simple s rfl
  · intro s j hs
    obtain ⟨ha, k, hj, hk⟩ := (hmakes _ hs).composite s j rfl
    exact ⟨ha, k, hj, hfound _ hk⟩

end Statechart
