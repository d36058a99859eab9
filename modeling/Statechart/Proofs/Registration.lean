/-
  Statechart.Proofs.Registration — what a session keeps of a file that cannot be read.

  Reading a file takes its text, builds the machine, registers it and shows it. All that
  can go wrong before the machine is registered leaves the session as it was. What can go
  wrong after it is that the machine cannot be shown: there is a hole in a list of states,
  or a guard without a comparison (`toElement_isOk_iff`). Then the request is refused, and
  all the same the machine is registered in the place of the one before it, whose
  execution is gone.

  Such a machine is never built from a text that is read without complaint
  (`ofTree_showable`): a derived guard has a comparison, and what is derived from the
  rule of a state is a state.

  Proved (`refused_read_atomic_unless_misread`): over any history, a file that is refused
  leaves no trace unless it is misread in this way, and a misread file always does.
-/

import Statechart.Proofs.Derivation
import Statechart.Proofs.History

namespace Statechart

/-! ## What can be shown -/

/-- Every guard of a state's transitions has a comparison. -/
def State.Compares (s : State) : Prop := ∀ t ∈ s.outgoing, ∀ g, t.guard = some g → g.comparison ≠ none

/-- What stands in a place can be shown, apart from what it contains. -/
def Member.Showable : Member → Prop
  | .simple s => s.Compares
  | .composite s i _ => i ≠ none ∧ s.Compares
  | .hole => False

mutual

/-- A place and those inside it. -/
def Member.places : Member → List Member
  | .simple s => [.simple s]
  | .composite s i ms => .composite s i ms :: placesAll ms
  | .hole => [.hole]

def placesAll : List Member → List Member
  | [] => []
  | m :: ms => m.places ++ placesAll ms

end

/-- Nothing in a machine keeps it from being shown. -/
def Machine.Showable (m : Machine) : Prop := ∀ k ∈ placesAll m.members, k.Showable

theorem Guard.toElement_isOk_iff {g : Guard} : (∃ e, g.toElement = .ok e) ↔ g.comparison ≠ none := by
  unfold Guard.toElement
  cases g.comparison <;> simp [need, bind, Except.bind, pure, Except.pure]

theorem Transition.toElement_isOk_iff {load : Nat} {t : Transition} :
    (∃ e, t.toElement load = .ok e) ↔ ∀ g, t.guard = some g → g.comparison ≠ none := by
  unfold Transition.toElement
  rw [exists_bind_eq_ok]
  cases hg : t.guard with
  | none => simp [pure, Except.pure]
  | some g =>
    simp only [Option.mapM_some, Option.some.injEq, forall_eq', ← Guard.toElement_isOk_iff]
    constructor
    · rintro ⟨o, ho, -⟩
      cases h : g.toElement with
      | ok e => exact ⟨e, rfl⟩
      | error d => simp [h] at ho
    · rintro ⟨e, he⟩
      exact ⟨some e, by simp [he], _, rfl⟩

theorem State.toElement_isOk_iff {load : Nat} {s : State} {type : String} {states : List (String × Child)}
    {refs : List (String × Ref)} : (∃ e, s.toElement load type states refs = .ok e) ↔ s.Compares := by
  unfold State.toElement
  rw [exists_bind_eq_ok]
  constructor
  · rintro ⟨ts, hts, h⟩ t ht
    obtain ⟨fs, hfs, -⟩ := exists_bind_eq_ok.mp h
    have hts := exists_mapM_eq_ok.mp ⟨ts, hts⟩ t
    have hfs := exists_mapM_eq_ok.mp ⟨fs, hfs⟩ t
    rw [List.mem_filter] at hts hfs
    -- Each transition is in one of the two lists.
    cases hf : t.target.isFinal with
    | true => exact Transition.toElement_isOk_iff.mp (hfs ⟨ht, hf⟩)
    | false => exact Transition.toElement_isOk_iff.mp (hts ⟨ht, by simp [hf]⟩)
  · intro h
    have hall : ∀ p : Transition → Bool, ∃ es, (s.outgoing.filter p).mapM (·.toElement load) = .ok es := fun p =>
      exists_mapM_eq_ok.mpr fun t ht => Transition.toElement_isOk_iff.mpr (h t (List.mem_of_mem_filter ht))
    obtain ⟨ts, hts⟩ := hall fun t => !t.target.isFinal
    obtain ⟨fs, hfs⟩ := hall fun t => t.target.isFinal
    exact ⟨ts, hts, exists_bind_eq_ok.mpr ⟨fs, hfs, _, rfl⟩⟩

mutual

theorem Member.toElement_isOk_iff {load : Nat} : ∀ m : Member,
    (∃ e, m.toElement load = .ok e) ↔ ∀ k ∈ m.places, k.Showable
  | .simple s => by
    rw [Member.toElement, State.toElement_isOk_iff, Member.places, List.forall_mem_singleton]
    rfl
  | .hole => by simp [Member.toElement, Member.places, Member.Showable]
  | .composite s none ms => by simp [Member.toElement, Member.places, Member.Showable]
  | .composite s (some i) ms => by
    rw [Member.toElement, exists_bind_eq_ok, Member.places, List.forall_mem_cons, ← membersToElements_isOk_iff ms]
    constructor
    · rintro ⟨es, hes, he⟩
      exact ⟨⟨nofun, State.toElement_isOk_iff.mp he⟩, es, hes⟩
    · rintro ⟨⟨-, hs⟩, es, hes⟩
      exact ⟨es, hes, State.toElement_isOk_iff.mpr hs⟩

theorem membersToElements_isOk_iff {load : Nat} : ∀ ms : List Member,
    (∃ es, membersToElements load ms = .ok es) ↔ ∀ k ∈ placesAll ms, k.Showable
  | [] => by simp [membersToElements, placesAll, pure, Except.pure]
  | m :: ms => by
    rw [membersToElements, exists_bind_eq_ok, placesAll, List.forall_mem_append, ← m.toElement_isOk_iff,
      ← membersToElements_isOk_iff ms]
    constructor
    · rintro ⟨e, he, h⟩
      obtain ⟨es, hes, -⟩ := exists_bind_eq_ok.mp h
      exact ⟨⟨e, he⟩, es, hes⟩
    · rintro ⟨⟨e, he⟩, es, hes⟩
      exact ⟨e, he, exists_bind_eq_ok.mpr ⟨es, hes, _, rfl⟩⟩

end

theorem Machine.toElement_isOk_iff {m : Machine} : (∃ e, m.toElement = .ok e) ↔ m.Showable := by
  unfold Machine.toElement Machine.Showable
  rw [exists_bind_eq_ok, ← @membersToElements_isOk_iff m.load m.members]
  constructor
  · rintro ⟨es, hes, -⟩
    exact ⟨es, hes⟩
  · rintro ⟨es, hes⟩
    exact ⟨es, hes, _, rfl⟩

/-! ## What is built from derived trees -/

theorem comparisonOf?_of_leaf {t : Token} {cs : List Tree} (hk : t.kind ∈ comparisons) (ht : .leaf t ∈ cs) :
    comparisonOf? cs ≠ none := by
  have hkinds : ∀ k ∈ comparisons, ∃ x ∈ comparisonKinds, x.1 = k := by decide
  obtain ⟨x, hx, hxt⟩ := hkinds _ hk
  have htoken : (Tree.tokenOf? x.1 cs).isSome :=
    List.find?_isSome.mpr ⟨t, List.mem_filterMap.mpr ⟨_, ht, rfl⟩, by simp [hxt]⟩
  have hfound : (comparisonKinds.find? fun x => (Tree.tokenOf? x.1 cs).isSome).isSome :=
    List.find?_isSome.mpr ⟨x, hx, htoken⟩
  simpa [comparisonOf?, Option.isSome_iff_ne_none] using hfound

theorem derived_guard {n : Node} {cs : List Tree} (h : (Tree.node n cs).Derived) (hn : n.rule = .guard) :
    comparisonOf? cs ≠ none := by
  have hf := h.fills (by rw [hn]; decide)
  rw [hn] at hf
  cases hf with
  | call _ _ hf =>
  cases hf with
  | token hk hf =>
  cases hf with
  | expression _ _ hf =>
  cases hf
  exact comparisonOf?_of_leaf hk (by simp)

theorem derived_state {n : Node} {cs : List Tree} (h : (Tree.node n cs).Derived) (hn : n.rule = .state) :
    ∃ k ts, cs = [.node k ts] ∧ (k.rule = .simple ∨ k.rule = .composite) := by
  have hf := h.fills (by rw [hn]; decide)
  rw [hn] at hf
  cases hf with
  | left hf =>
    cases hf with
    | @call _ _ _ _ k ts hk hf =>
    cases hf
    exact ⟨k, ts, rfl, Or.inl hk⟩
  | right hf =>
    cases hf with
    | @call _ _ _ _ k ts hk hf =>
    cases hf
    exact ⟨k, ts, rfl, Or.inr hk⟩

theorem guard_compares {id : Id} {t : Tree} {g : Guard} (h : Guard.ofTree id t = .ok g) (ht : t.hasRule .guard = true)
    (hd : t.Derived) : g.comparison ≠ none := by
  cases t with
  | leaf _ => cases ht
  | fault _ => cases ht
  | node n cs =>
    obtain ⟨x, -, h⟩ := bind_eq_ok.mp h
    obtain ⟨e, -, h⟩ := bind_eq_ok.mp h
    obtain ⟨e', -, h⟩ := bind_eq_ok.mp h
    obtain rfl := pure_eq_ok.mp h
    exact derived_guard hd (by simpa [Tree.hasRule] using ht)

namespace Builder

variable {b : Builder} {source : String} {around : List String}

theorem transition_compares {i : Nat} {n : Node} {cs : List Tree} {t : Transition}
    (h : b.transition source around i n cs = .ok t) (hd : ∀ c ∈ cs, c.Derived) :
    ∀ g, t.guard = some g → g.comparison ≠ none := by
  intro g hg
  unfold transition at h
  obtain ⟨arrow, -, h⟩ := bind_eq_ok.mp h
  obtain ⟨guard, hguard, h⟩ := bind_eq_ok.mp h
  obtain ⟨as, -, h⟩ := bind_eq_ok.mp h
  obtain ⟨head, -, h⟩ := bind_eq_ok.mp h
  obtain ⟨trigger, -, h⟩ := bind_eq_ok.mp h
  obtain ⟨target, -, h⟩ := bind_eq_ok.mp h
  obtain rfl := pure_eq_ok.mp h
  obtain rfl : guard = some g := hg
  cases hfirst : Tree.firstOf? .guard cs with
  | none =>
    rw [hfirst] at hguard
    cases hguard
  | some c =>
    rw [hfirst, Option.mapM_some] at hguard
    cases hc : Guard.ofTree (.guard b.load source i) c with
    | error d => simp [hc] at hguard
    | ok g' =>
      obtain rfl : g' = g := by simpa [hc] using hguard
      exact guard_compares hc (List.find?_some hfirst) (hd c (List.mem_of_find?_eq_some hfirst))

theorem transitions_compare {cs : List Tree} {ts : List Transition} {name : String} {ancestors : List String}
    (h : b.transitions source around cs = .ok ts) (hd : ∀ c ∈ cs, c.Derived) :
    (b.state name ancestors ts).Compares := by
  intro t ht
  obtain ⟨⟨c, i⟩, hc, hct⟩ := exists_of_forall₂ (mapM_eq_ok h) t ht
  have hmem : c ∈ cs := List.mem_of_mem_filter (List.fst_mem_of_mem_zipIdx hc)
  cases c with
  | leaf _ => cases hct
  | fault _ => cases hct
  | node n us => exact transition_compares hct (hd _ hmem).children

end Builder

mutual

theorem member_showable (b : Builder) : ∀ (t : Tree) {around : List String} {m : Member},
    b.member around t = .ok m → t.Derived →
    (t.hasRule .state = true ∨ t.hasRule .simple = true ∨ t.hasRule .composite = true) → ∀ k ∈ m.places, k.Showable
  | .leaf _, _, _, _, _, hr => by simp [Tree.hasRule] at hr
  | .fault _, _, _, _, _, hr => by simp [Tree.hasRule] at hr
  | .node n cs, around, m, h, hd, hr => by
    unfold Builder.member at h
    split at h
    · exact firstMember_showable b cs h hd.children (derived_state hd ‹_›)
    · obtain ⟨tok, -, h⟩ := bind_eq_ok.mp h
      obtain ⟨ts, hts, h⟩ := bind_eq_ok.mp h
      obtain rfl := pure_eq_ok.mp h
      intro k hk
      rw [List.mem_singleton.mp hk]
      exact Builder.transitions_compare hts hd.children
    · obtain ⟨tok, -, h⟩ := bind_eq_ok.mp h
      obtain ⟨it, -, h⟩ := bind_eq_ok.mp h
      obtain ⟨i, -, h⟩ := bind_eq_ok.mp h
      obtain ⟨ts, hts, h⟩ := bind_eq_ok.mp h
      obtain ⟨ms, hms, h⟩ := bind_eq_ok.mp h
      obtain rfl := pure_eq_ok.mp h
      intro k hk
      rcases List.mem_cons.mp hk with rfl | hk
      · exact ⟨nofun, Builder.transitions_compare hts hd.children⟩
      · exact members_showable b cs hms hd.children k hk
    · rename_i hstate hsimple hcomposite
      simp only [Tree.hasRule, beq_iff_eq] at hr
      rcases hr with hr | hr | hr
      · exact (hstate hr).elim
      · exact (hsimple hr).elim
      · exact (hcomposite hr).elim

theorem firstMember_showable (b : Builder) : ∀ (cs : List Tree) {around : List String} {m : Member},
    b.firstMember around cs = .ok m → (∀ c ∈ cs, c.Derived) →
    (∃ n ts, cs = [.node n ts] ∧ (n.rule = .simple ∨ n.rule = .composite)) → ∀ k ∈ m.places, k.Showable
  | [], _, _, h, _, _ => by cases h
  | c :: cs, _, _, h, hd, hr => by
    refine member_showable b c h (hd c List.mem_cons_self) (Or.inr ?_)
    obtain ⟨n, ts, hcs, hr⟩ := hr
    rw [(List.cons.inj hcs).1]
    simpa [Tree.hasRule] using hr

theorem members_showable (b : Builder) : ∀ (cs : List Tree) {around : List String} {ms : List Member},
    b.members around cs = .ok ms → (∀ c ∈ cs, c.Derived) → ∀ k ∈ placesAll ms, k.Showable
  | [], _, _, h, _, k, hk => by cases h; cases hk
  | c :: cs, around, ms, h, hd, k, hk => by
    have hcs : ∀ c ∈ cs, c.Derived := fun c hc => hd c (List.mem_cons_of_mem _ hc)
    unfold Builder.members at h
    split at h
    · rename_i hr
      obtain ⟨m, hm, h⟩ := bind_eq_ok.mp h
      obtain ⟨ms', hms, h⟩ := bind_eq_ok.mp h
      obtain rfl := pure_eq_ok.mp h
      rcases List.mem_append.mp hk with hk | hk
      · exact member_showable b c hm (hd c List.mem_cons_self) (Or.inl hr) k hk
      · exact members_showable b cs hms hcs k hk
    · exact members_showable b cs h hcs k hk

end

theorem ofTree_showable {load : Nat} {t : Tree} {m : Machine} (h : Machine.ofTree load t = .ok m)
    (hd : ∀ c ∈ t.children, c.Derived) : m.Showable := by
  obtain ⟨name, registry, it, i, ms, -, -, -, -, hms, rfl⟩ := ofTree_eq_ok.mp h
  exact members_showable _ t.children hms hd

/-! ## Reading a file -/

namespace Session

variable {s : Session} {file : Value} {name text : String} {m : Machine}

/-- The text of a file builds a machine. -/
structure Builds (s : Session) (file : Value) (name text : String) (m : Machine) : Prop where
  read : ∃ bytes, s.openFile file = .ok (name, bytes) ∧ asciiText bytes = .ok text
  built : Machine.ofTree s.count (Statechart.parse .machine text).tree = .ok m

/-- A machine is built from a file that cannot be shown. -/
def Misreads (s : Session) (file : Value) (name : String) (m : Machine) : Prop :=
  ∃ text, s.Builds file name text m ∧ ¬ m.Showable

/-- The machine of a file is another one, its execution is gone, and nothing else is different. -/
structure Replaces (s : Session) (name : String) (m : Machine) (t : Session) : Prop where
  before : s.machines.get? name ≠ some m
  machine : t.machines.get? name = some m
  execution : t.executions.get? name = none
  others : ∀ n, n ≠ name → t.machines.get? n = s.machines.get? n ∧ t.executions.get? n = s.executions.get? n
  files : t.files = s.files

/-- The answer to reading a file: the machine as it is shown. -/
def shown (m : Machine) : Except Fault Answer :=
  match m.toElement with
  | .ok e => .ok (.root e)
  | .error d => .error (.defect d)

theorem shown_eq_error_iff : (∃ f, shown m = .error f) ↔ ¬ m.Showable := by
  rw [← Machine.toElement_isOk_iff]
  unfold shown
  cases m.toElement <;> simp

theorem Builds.parse (h : s.Builds file name text m) :
    s.parse file = (s.register name m, ⟨(Statechart.parse .machine text).complaints, shown m⟩) := by
  obtain ⟨⟨bytes, hopen, htext⟩, hm⟩ := h
  simp only [Session.parse, hopen, htext, hm]
  rfl

/-- Without a machine to register nothing happens. -/
theorem parse_of_not_builds (h : ∀ name text m, ¬ s.Builds file name text m) : (s.parse file).1 = s := by
  unfold Session.parse
  split
  · rfl
  · rename_i name bytes hopen
    split
    · rfl
    · rename_i text htext
      dsimp only
      split
      · rfl
      · rename_i m hm
        exact absurd ⟨⟨bytes, hopen, htext⟩, hm⟩ (h name text m)

/-- A machine that is registered is new, for its number is. -/
theorem Sound.replaces (hs : s.Sound) (h : s.Builds file name text m) : s.Replaces name m (s.register name m) := by
  refine ⟨fun hold => ?_, ?_, ?_, fun n hn => ?_, rfl⟩
  · have hlt := (hs.machine hold).1
    have hload := ofTree_load h.built
    omega
  · simp [register]
  · simp [register, Table.get?_erase]
  · simp [register, Table.get?_erase, Table.get?_put, hn]

theorem Misreads.result (h : s.Misreads file name m) :
    (∃ f, (s.parse file).2.result = .error f) ∧ (s.parse file).2.complaints ≠ [] := by
  obtain ⟨text, hb, hshow⟩ := h
  rw [hb.parse]
  constructor
  · exact shown_eq_error_iff.mpr hshow
  · exact fun hc => hshow (ofTree_showable hb.built (parse_derived hc))

end Session

/-! ## A bell

  The file of a bell is read, its execution is started, and then a guard without a comparison is written into it. -/

namespace Bell

def text : String := r"StateMachine Bell {INITIAL->Still;state Still{->Still:'ring';}}"

def flawed : String := r"StateMachine Bell {INITIAL->Still;state Still{->Still:'ring'[x 1];}}"

def history : List Turn :=
  [.text "bell" text, .request (.parse (.str "bell")), .request (.start (.str "bell") .null), .text "bell" flawed]

/-- The number of the machine that is registered for the bell, and whether it is being executed. -/
def kept (s : Session) : Option Nat × Bool :=
  ((s.machines.get? "bell").map (·.load), (s.executions.get? "bell").isSome)

theorem kept_before_and_after :
    let s := Session.empty.afterAll history
    kept s = (some 0, true) ∧ (s.parse (.str "bell")).2.result.isOk = false ∧
      kept (s.parse (.str "bell")).1 = (some 2, false) := by decide +kernel

theorem lost {s t : Session} (hs : kept s = (some 0, true)) (ht : kept t = (some 2, false)) :
    t.machines.get? "bell" ≠ s.machines.get? "bell" ∧ t.executions.get? "bell" ≠ s.executions.get? "bell" := by
  simp only [kept, Prod.mk.injEq] at hs ht
  constructor
  · intro h
    rw [h, hs.1] at ht
    cases ht.1
  · intro h
    rw [h, hs.2] at ht
    cases ht.2

end Bell

/-! ## What is left of a refused file -/

namespace Session

/-- Over any history, a file that is refused leaves the session as it was unless it is misread. A misread file is
    always refused, with complaints about its text, and the machine and the execution of before are lost. -/
theorem refused_read_atomic_unless_misread (ts : List Turn) (file : Value) :
    let s := empty.afterAll ts
    (∀ f, (s.parse file).2.result = .error f → (∀ name m, ¬ s.Misreads file name m) → (s.parse file).1 = s) ∧
    ∀ name m, s.Misreads file name m → (∃ f, (s.parse file).2.result = .error f) ∧
      (s.parse file).2.complaints ≠ [] ∧ s.Replaces name m (s.parse file).1 := by
  intro s
  refine ⟨fun f hf hno => ?_, fun name m h => ?_⟩
  · refine parse_of_not_builds fun name text m hb => ?_
    rw [hb.parse] at hf
    exact hno name m ⟨text, hb, shown_eq_error_iff.mp ⟨f, hf⟩⟩
  · refine ⟨h.result.1, h.result.2, ?_⟩
    obtain ⟨text, hb, -⟩ := h
    rw [hb.parse]
    exact (afterAll_sound ts).replaces hb

/-- The flawed bell was misread; a request that names no file is refused without a trace. -/
theorem refused_bell_misread :
    let s := empty.afterAll Bell.history
    (∃ name m, s.Misreads (.str "bell") name m ∧ (s.parse (.str "bell")).2.complaints ≠ [] ∧
      s.Replaces name m (s.parse (.str "bell")).1) ∧ (s.parse .null).1 = s := by
  have hkept := Bell.kept_before_and_after
  have hread := refused_read_atomic_unless_misread Bell.history
  generalize empty.afterAll Bell.history = s at hkept hread ⊢
  obtain ⟨hbefore, hres, hafter⟩ := hkept
  obtain ⟨f, hf⟩ := eq_error_of_isOk hres
  constructor
  · by_contra hno
    have hsame := (hread (.str "bell")).1 f hf fun name m h =>
      hno ⟨name, m, h, ((hread (.str "bell")).2 name m h).2⟩
    exact (Bell.lost hbefore hafter).1 (by rw [hsame])
  · refine (hread .null).1 _ rfl ?_
    rintro name m ⟨text, ⟨⟨bytes, hopen, -⟩, -⟩, -⟩
    cases hopen

/-- The flawed bell is refused, and what was registered and executed before is lost. -/
theorem refused_bell_not_atomic :
    let s := empty.afterAll Bell.history
    (∃ f, (s.parse (.str "bell")).2.result = .error f) ∧
      (s.parse (.str "bell")).1.machines.get? "bell" ≠ s.machines.get? "bell" ∧
      (s.parse (.str "bell")).1.executions.get? "bell" ≠ s.executions.get? "bell" := by
  have hkept := Bell.kept_before_and_after
  generalize empty.afterAll Bell.history = s at hkept ⊢
  obtain ⟨hbefore, hres, hafter⟩ := hkept
  exact ⟨eq_error_of_isOk hres, Bell.lost hbefore hafter⟩

end Session

end Statechart
