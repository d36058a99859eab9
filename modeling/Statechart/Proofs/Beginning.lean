/-
  Statechart.Proofs.Beginning — which machines can be started.

  Before the first step no variable is set. Every guard compares a variable, so at that
  point no guard has a value: either its expression has none, or the variable it is
  compared with is missing (`Guard.eval_empty`). But the first events are offered only
  after all guards on the chain of parents were looked at. So a guard anywhere on the
  chain keeps a machine from being started, whatever it says, and guards elsewhere do not
  matter (`start_isOk_iff`).

  Proved (`started_iff_unguarded`): after any history, a registered machine is started if
  and only if initial targets lead to a simple state and no guard is met there.
-/

import Statechart.Proofs.History
import Statechart.Proofs.Renumbering.Execution

namespace Statechart

/-! ## Guards without variables -/

/-- Where no variable is set no guard has a value. The expression is evaluated before the variable is read, so the
    complaint may be about either. -/
theorem Guard.eval_empty (g : Guard) :
    g.eval .empty = .error (.unset g.name) ∨ ∃ e, g.expression.eval .empty = .error e ∧ g.eval .empty = .error e := by
  unfold Guard.eval
  cases he : g.expression.eval .empty with
  | error e => exact Or.inr ⟨e, rfl, rfl⟩
  | ok y => exact Or.inl rfl

theorem guardsHaveValues_empty {ts : List Transition} : GuardsHaveValues .empty ts ↔ ∀ t ∈ ts, t.guard = none := by
  constructor
  · intro h t ht
    cases hg : t.guard with
    | none => rfl
    | some g =>
      obtain ⟨b, hb⟩ := h t ht g hg
      rcases g.eval_empty with he | ⟨e, -, he⟩
      · rw [he] at hb
        cases hb
      · rw [he] at hb
        cases hb
  · intro h t ht g hg
    rw [h t ht] at hg
    cases hg

/-! ## The start of a machine -/

/-- Initial targets lead from the machine's own to the simple state `n`, and no transition of `n` or of a state on its
    chain of parents has a guard. -/
def Machine.StartsUnguarded (m : Machine) (n : String) : Prop :=
  ∃ i ns ks, m.initial = some i ∧ m.Settles i.target ns n ∧ m.Chain n ks ∧ ∀ t ∈ ks.flatMap m.outgoing, t.guard = none

theorem Machine.start_eq_ok_iff {m : Machine} (hm : m.WellFormed) {n : String} :
    m.start = .ok n ↔ ∃ i ns, m.initial = some i ∧ m.Settles i.target ns n := by
  constructor
  · exact start_settles hm
  · rintro ⟨i, ns, hi, hns⟩
    rw [Machine.start, hi]
    exact hns.nested

namespace Execution

theorem fresh_offer_isOk_iff (run : Nat) {m : Machine} {n : String} :
    (∃ steps, (fresh run m n).offer = .ok steps) ↔ ∀ t ∈ (m.lineage n).flatMap m.outgoing, t.guard = none := by
  rw [offer_idle rfl rfl rfl, exists_bind_eq_ok, ← guardsHaveValues_empty]
  constructor
  · rintro ⟨es, he, -⟩
    obtain ⟨ts, hts, -⟩ := bind_eq_ok.mp he
    exact (enabledAmong_eq_ok.mp hts).1
  · intro h
    have hts : enabledAmong .empty (fresh run m n).candidates = .ok _ := enabledAmong_eq_ok.mpr ⟨h, rfl⟩
    exact ⟨_, bind_eq_ok.mpr ⟨_, hts, rfl⟩, _, rfl⟩

theorem start_isOk_iff (run : Nat) {m : Machine} (hm : m.WellFormed) :
    (∃ x, Execution.start run m = .ok x) ↔ ∃ n, m.StartsUnguarded n := by
  constructor
  · rintro ⟨x, hx⟩
    obtain ⟨n, hn, -⟩ := start_eq_ok hx
    obtain ⟨i, ns, hi, hns⟩ := start_settles hm hn
    refine ⟨n, i, ns, m.lineage n, hi, hns, hm.chain_lineage n, ?_⟩
    apply (fresh_offer_isOk_iff run).mp
    rw [start_of_ok hn] at hx
    cases ho : (fresh run m n).offer with
    | ok steps => exact ⟨steps, rfl⟩
    | error e =>
      rw [ho] at hx
      cases hx
  · rintro ⟨n, i, ns, ks, hi, hns, hks, hfree⟩
    rw [hks.unique (hm.chain_lineage n)] at hfree
    obtain ⟨steps, ho⟩ := (fresh_offer_isOk_iff run).mpr hfree
    refine ⟨(fresh run m n).offering steps, ?_⟩
    rw [start_of_ok ((Machine.start_eq_ok_iff hm).mpr ⟨i, ns, hi, hns⟩), ho]
    rfl

end Execution

/-! ## The request to start -/

namespace Session

variable {s : Session} {name : String} {m : Machine}

theorem start_answered_iff (hm : s.machines.get? name = some m) :
    (∃ a, (s.start (.str name)).2.result = .ok a) ↔ ∃ x, Execution.start s.count m = .ok x := by
  have hread : s.machines.read (.str name) = .ok (name, m) := Table.read_eq_ok.mpr ⟨rfl, hm⟩
  simp only [Session.start, hread]
  cases Execution.start s.count m with
  | error f => simp [Reply.refuse]
  | ok x => simp

/-- After any history, the execution of a machine that is registered for a file is started on request if and only if
    initial targets lead to a simple state and no transition of it or of a state on its chain of parents has a guard. -/
theorem started_iff_unguarded (ts : List Turn) (hm : (empty.afterAll ts).machines.get? name = some m)
    (entries : Value) :
    (∃ a, ((empty.afterAll ts).handle (.start (.str name) entries)).2.result = .ok a) ↔ ∃ n, m.StartsUnguarded n := by
  obtain ⟨-, text, hbuilt⟩ := (afterAll_sound ts).machine hm
  exact (start_answered_iff hm).trans (Execution.start_isOk_iff _ (ofTree_wellFormed hbuilt))

end Session

/-! ## A kettle

  The guard of the hot kettle is met by whatever starts inside it. -/

namespace Kettle

/-- A kettle that is switched on in the state of this name. -/
def text (first : String) : String :=
  r"StateMachine Kettle{INITIAL->" ++ first ++ ";" ++
  r"state Cold{}" ++
  r"composite state Hot{->Cold:'cool'[n<1];INITIAL->Full;state Full{}}}"

def history (first : String) : List Turn := [.text "kettle" (text first), .request (.parse (.str "kettle"))]

/-- Whether the kettle that was read can be started. -/
def starts? (s : Session) : Option Bool := (s.machines.get? "kettle").map fun m => (Execution.start 0 m).isOk

theorem starts?_cold : starts? (Session.empty.afterAll (history "Cold")) = some true := by decide +kernel

theorem starts?_hot : starts? (Session.empty.afterAll (history "Hot")) = some false := by decide +kernel

theorem startsUnguarded_iff {first : String} {b : Bool}
    (h : starts? (Session.empty.afterAll (history first)) = some b) :
    ∃ m, (Session.empty.afterAll (history first)).machines.get? "kettle" = some m ∧
      ((∃ n, m.StartsUnguarded n) ↔ b = true) := by
  obtain ⟨m, hm, rfl⟩ := Option.map_eq_some_iff.mp h
  obtain ⟨-, text, hbuilt⟩ := (Session.afterAll_sound _).machine hm
  refine ⟨m, hm, ?_⟩
  rw [← Execution.start_isOk_iff 0 (ofTree_wellFormed hbuilt)]
  cases Execution.start 0 m with
  | ok x => simp [Except.isOk, Except.toBool]
  | error f => simp [Except.isOk, Except.toBool]

end Kettle

/-- The cold kettle is started though it has a guard; the hot one is not, for the guard of the state around the one in
    which it starts. -/
theorem Session.cold_kettle_started_hot_refused :
    (∃ m, (empty.afterAll (Kettle.history "Cold")).machines.get? "kettle" = some m ∧ (∃ n, m.StartsUnguarded n) ∧
      ∃ a, ((empty.afterAll (Kettle.history "Cold")).handle (.start (.str "kettle") .null)).2.result = .ok a) ∧
    ∃ m, (empty.afterAll (Kettle.history "Hot")).machines.get? "kettle" = some m ∧ (¬ ∃ n, m.StartsUnguarded n) ∧
      ¬ ∃ a, ((empty.afterAll (Kettle.history "Hot")).handle (.start (.str "kettle") .null)).2.result = .ok a := by
  obtain ⟨m, hm, hcold⟩ := Kettle.startsUnguarded_iff Kettle.starts?_cold
  obtain ⟨m', hm', hhot⟩ := Kettle.startsUnguarded_iff Kettle.starts?_hot
  have hstarts : ∃ n, m.StartsUnguarded n := hcold.mpr rfl
  have hguarded : ¬ ∃ n, m'.StartsUnguarded n := fun h => absurd (hhot.mp h) (by decide)
  refine ⟨⟨m, hm, hstarts, (started_iff_unguarded _ hm .null).mpr hstarts⟩, m', hm', hguarded, fun h => ?_⟩
  exact hguarded ((started_iff_unguarded _ hm' .null).mp h)

end Statechart
