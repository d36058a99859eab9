/-
  Statechart.Proofs.Circles — initial targets lead to a simple state, or round in a circle.

  A composite state may start in any state of the machine, not only in one of its own, so
  following initial targets is no way down into the nesting. `route?` is the way as it
  goes: the state entered, the state that starts in, the one that starts in, and so on.
  It ends only in a simple state. A machine goes round in a circle where some composite
  state stands twice on the way.
  - `Settles.route?`: a way that ends lists the composite states passed through and the
    simple state at its end, so no state stands on it twice.
  - `circles_of_runs_on`: a way that does not end has a composite state at every place,
    and there are more places than composite states.

  Proved (`settles_or_circles`): in every machine that is built, entering a state ends in
  a simple state, behind composite states that are each passed once, or it goes round in
  a circle, and then it does not end however long it is followed. Nothing starts nowhere.
-/

import Statechart.Proofs.BigStep
import Statechart.Tree.Parser
import Mathlib.Data.Fintype.Pigeonhole

namespace Statechart

namespace Machine

variable {m : Machine} {n k : String} {ns : List String}

/-! ## The way of initial targets -/

/-- The names of all states. -/
def names (m : Machine) : List String := m.declared.map (·.state.name)

/-- The names of the composite states. -/
def compositeNames (m : Machine) : List String := (m.declared.filter (·.key.2)).map (·.state.name)

/-- Where a composite state starts. -/
def onward? (m : Machine) (n : String) : Option String :=
  match m.find? n with
  | some (.composite _ (some i)) => some i.target
  | _ => none

/-- The state that initial targets have led to from `n` after so many of them. -/
def route? (m : Machine) (n : String) : Nat → Option String
  | 0 => some n
  | j + 1 => (m.onward? n).bind (m.route? · j)

/-- Some composite state stands twice on the way of initial targets from `n`. -/
def Circles (m : Machine) (n : String) : Prop :=
  ∃ c ∈ m.compositeNames, ∃ i j, i < j ∧ m.route? n i = some c ∧ m.route? n j = some c

theorem onward?_simple {s : State} (h : m.find? n = some (.simple s)) : m.onward? n = none := by
  simp [onward?, h]

theorem onward?_composite {s : State} {i : Initial} (h : m.find? n = some (.composite s (some i))) :
    m.onward? n = some i.target := by
  simp [onward?, h]

theorem mem_names : n ∈ m.names ↔ (m.find? n).isSome := Machine.find?_isSome.symm

theorem mem_compositeNames {s : State} {i : Option Initial} (h : m.find? n = some (.composite s i)) :
    n ∈ m.compositeNames := by
  have hname : s.name = n := by simpa [Declared.state] using List.find?_some h
  refine List.mem_map.mpr ⟨.composite s i, List.mem_filter.mpr ⟨List.mem_of_find?_eq_some h, rfl⟩, hname⟩

/-! ## Ways that end -/

theorem Settles.route? (h : m.Settles n ns k) (j : Nat) : m.route? n j = (ns ++ [k])[j]? := by
  induction h generalizing j with
  | simple hs =>
    cases j with
    | zero => rfl
    | succ j => simp [Machine.route?, onward?_simple hs]
  | composite hc _ ih =>
    cases j with
    | zero => rfl
    | succ j => simp [Machine.route?, onward?_composite hc, ih]

theorem Settles.subset_composites (h : m.Settles n ns k) : ns ⊆ m.compositeNames := by
  induction h with
  | simple _ => exact List.nil_subset _
  | composite hc _ ih => exact List.cons_subset.mpr ⟨mem_compositeNames hc, ih⟩

theorem Settles.end_simple (h : m.Settles n ns k) : ∃ s, m.find? k = some (.simple s) := by
  induction h with
  | simple hs => exact ⟨_, hs⟩
  | composite _ _ ih => exact ih

theorem Settles.passes_composite (h : m.Settles n ns k) : ∀ c ∈ ns, ∃ s i, m.find? c = some (.composite s i) := by
  induction h with
  | simple _ => simp
  | composite hc _ ih =>
    intro c hmem
    rcases List.mem_cons.mp hmem with rfl | hmem
    · exact ⟨_, _, hc⟩
    · exact ih c hmem

/-- The composite states passed through differ, and none is the simple state at the end. -/
theorem Settles.way_nodup (h : m.Settles n ns k) : (ns ++ [k]).Nodup := by
  refine h.nodup.append (List.nodup_singleton k) ?_
  intro c hc hk
  rw [List.mem_singleton.mp hk] at hc
  obtain ⟨s, i, hcomposite⟩ := h.passes_composite k hc
  obtain ⟨s', hsimple⟩ := h.end_simple
  simp [hcomposite] at hsimple

theorem Settles.not_circles (h : m.Settles n ns k) : ¬ m.Circles n := by
  rintro ⟨c, -, i, j, hij, hi, hj⟩
  rw [h.route?] at hi hj
  obtain ⟨hlt, -⟩ := List.getElem?_eq_some_iff.mp hi
  have := (List.getElem?_inj hlt h.way_nodup).mp (hi.trans hj.symm)
  omega

theorem Settles.length_le_composites (h : m.Settles n ns k) : ns.length ≤ m.compositeNames.length :=
  (h.nodup.subperm h.subset_composites).length_le

/-! ## Ways that do not end -/

/-- What is not simple starts somewhere, in a state that is declared as well. -/
theorem WellFormed.find?_cases (hm : m.WellFormed) (hn : (m.find? n).isSome) :
    (∃ s, m.find? n = some (.simple s)) ∨
      ∃ s i, m.find? n = some (.composite s (some i)) ∧ (m.find? i.target).isSome := by
  obtain ⟨d, hd⟩ := Option.isSome_iff_exists.mp hn
  cases d with
  | simple s => exact Or.inl ⟨s, hd⟩
  | composite s i =>
    obtain ⟨-, j, rfl, hj⟩ := hm.composite s i (List.mem_of_find?_eq_some hd)
    exact Or.inr ⟨s, j, hd, hj⟩

/-- A way without an end goes on from a composite state to another way without an end. -/
theorem WellFormed.runs_on (hm : m.WellFormed) (hn : (m.find? n).isSome) (h : ∀ ns k, ¬ m.Settles n ns k) :
    ∃ s i, m.find? n = some (.composite s (some i)) ∧ (m.find? i.target).isSome ∧
      ∀ ns k, ¬ m.Settles i.target ns k := by
  rcases hm.find?_cases hn with ⟨s, hs⟩ | ⟨s, i, hc, hi⟩
  · exact absurd (.simple hs) (h [] n)
  · exact ⟨s, i, hc, hi, fun ns k hns => h (n :: ns) k (.composite hc hns)⟩

theorem WellFormed.follow_of_runs_on (hm : m.WellFormed) (hn : (m.find? n).isSome) (h : ∀ ns k, ¬ m.Settles n ns k)
    (fuel : Nat) : m.follow fuel n = .error .endless := by
  induction fuel generalizing n with
  | zero => rfl
  | succ fuel ih =>
    obtain ⟨s, i, hc, hi, hon⟩ := hm.runs_on hn h
    rw [follow, hc]
    exact ih hi hon

theorem WellFormed.route?_of_runs_on (hm : m.WellFormed) (hn : (m.find? n).isSome) (h : ∀ ns k, ¬ m.Settles n ns k)
    (j : Nat) : ∃ c ∈ m.compositeNames, m.route? n j = some c := by
  induction j generalizing n with
  | zero =>
    obtain ⟨s, i, hc, -⟩ := hm.runs_on hn h
    exact ⟨n, mem_compositeNames hc, rfl⟩
  | succ j ih =>
    obtain ⟨s, i, hc, hi, hon⟩ := hm.runs_on hn h
    simpa [Machine.route?, onward?_composite hc] using ih hi hon

/-- There are only so many composite states, so a way without an end comes back to one of them. -/
theorem WellFormed.circles_of_runs_on (hm : m.WellFormed) (hn : (m.find? n).isSome)
    (h : ∀ ns k, ¬ m.Settles n ns k) : m.Circles n := by
  choose c hmem hroute using hm.route?_of_runs_on hn h
  obtain ⟨i, j, hne, heq⟩ :=
    Finite.exists_ne_map_eq_of_infinite fun j => (⟨c j, hmem j⟩ : {x // x ∈ m.compositeNames})
  have heq : c i = c j := congrArg Subtype.val heq
  rcases Nat.lt_or_gt_of_ne hne with hlt | hlt
  · exact ⟨c i, hmem i, i, j, hlt, hroute i, heq ▸ hroute j⟩
  · exact ⟨c i, hmem i, j, i, hlt, heq ▸ hroute j, hroute i⟩

/-! ## Settling or circling -/

theorem WellFormed.circles_iff (hm : m.WellFormed) (hn : (m.find? n).isSome) :
    m.Circles n ↔ ∀ ns k, ¬ m.Settles n ns k :=
  ⟨fun hc _ _ hns => hns.not_circles hc, hm.circles_of_runs_on hn⟩

/-- In every machine that is built, entering a state goes round in a circle exactly if some composite state stands
    twice on the way of initial targets from it, and then it does not end however far it is followed. Otherwise it
    ends in a declared simple state, behind composite states that are passed once each, so not more of them than
    there are. It never comes to a state that starts nowhere. The machine itself starts in a declared state. -/
theorem settles_or_circles {load : Nat} {t : Tree} (h : Machine.ofTree load t = .ok m) :
    (∃ i, m.initial = some i ∧ i.target ∈ m.names ∧ m.start = m.nested i.target) ∧
    ∀ n ∈ m.names,
      m.nested n ≠ .error .noInitialState ∧
      (m.nested n = .error .endless ↔ m.Circles n) ∧
      (m.Circles n → ∀ fuel, m.follow fuel n = .error .endless) ∧
      (¬ m.Circles n → ∃ ns s, m.Settles n ns s.name ∧ ns.Nodup ∧ ns ⊆ m.compositeNames ∧
        ns.length ≤ m.compositeNames.length ∧ .simple s ∈ m.declared ∧ m.nested n = .ok s.name) := by
  have hm := ofTree_wellFormed h
  constructor
  · obtain ⟨i, hi, hfound⟩ := hm.starts
    exact ⟨i, hi, mem_names.mpr hfound, by rw [Machine.start, hi]⟩
  intro n hn
  rw [mem_names] at hn
  by_cases hc : m.Circles n
  · have hends := hm.follow_of_runs_on hn ((hm.circles_iff hn).mp hc)
    have hnested : m.nested n = .error .endless := hends _
    simp [hnested, hc, hends]
  · obtain ⟨ns, k, hns⟩ : ∃ ns k, m.Settles n ns k := by
      by_contra hno
      exact hc ((hm.circles_iff hn).mpr fun ns k hns => hno ⟨ns, k, hns⟩)
    obtain ⟨s, hs⟩ := hns.end_simple
    obtain rfl : s.name = k := by simpa [Declared.state] using List.find?_some hs
    have hnested := hns.nested
    refine ⟨by simp [hnested], by simp [hnested, hc], fun hcircles => absurd hcircles hc, fun _ => ?_⟩
    exact ⟨ns, s, hns, hns.nodup, hns.subset_composites, hns.length_le_composites, List.mem_of_find?_eq_some hs,
      hnested⟩

end Machine

namespace Maze

/-- Behind the gate a hall with a seat; the two wings each start in the other. -/
def text : String :=
  r"StateMachine Maze{INITIAL->Gate;" ++
  r"composite state Gate{INITIAL->Hall;composite state Hall{INITIAL->Seat;state Seat{}}}" ++
  r"composite state East{INITIAL->West;state Nook{}}" ++
  r"composite state West{INITIAL->East;state Cell{}}}"

/-- Where entering the gate and the east wing of a machine ends, if both are there. -/
def ends (m : Machine) : Option (Option String × Option String) :=
  if "Gate" ∈ m.names ∧ "East" ∈ m.names then some ((m.nested "Gate").toOption, (m.nested "East").toOption) else none

theorem ends_text : (Machine.ofTree 0 (parse .machine text).tree).toOption.bind ends = some (some "Seat", none) := by
  decide +kernel

theorem exists_machine : ∃ m, Machine.ofTree 0 (parse .machine text).tree = .ok m ∧ "Gate" ∈ m.names ∧
    "East" ∈ m.names ∧ m.nested "Gate" = .ok "Seat" ∧ ∃ e, m.nested "East" = .error e := by
  obtain ⟨m, hm, hends⟩ := Option.bind_eq_some_iff.mp ends_text
  unfold ends at hends
  split at hends
  · rename_i hnames
    obtain ⟨hgate, heast⟩ := Prod.mk.inj (Option.some.inj hends)
    refine ⟨m, eq_ok_of_toOption hm, hnames.1, hnames.2, eq_ok_of_toOption hgate, ?_⟩
    cases he : m.nested "East" with
    | error e => exact ⟨e, rfl⟩
    | ok k => simp [he, Except.toOption] at heast
  · cases hends

end Maze

/-- Entering the gate ends in the seat, behind composite states that are passed once each; entering the east wing goes
    round in a circle. -/
theorem Machine.gate_settles_east_circles :
    ∃ m, Machine.ofTree 0 (parse .machine Maze.text).tree = .ok m ∧
      ("Gate" ∈ m.names ∧ ¬ m.Circles "Gate" ∧ ∃ ns s, m.Settles "Gate" ns s.name ∧ ns.Nodup ∧
        ns ⊆ m.compositeNames ∧ ns.length ≤ m.compositeNames.length ∧ .simple s ∈ m.declared ∧ s.name = "Seat") ∧
      "East" ∈ m.names ∧ m.Circles "East" ∧ ∀ fuel, m.follow fuel "East" = .error .endless := by
  obtain ⟨m, hm, hgate, heast, hseat, e, he⟩ := Maze.exists_machine
  obtain ⟨-, hall⟩ := settles_or_circles hm
  obtain ⟨-, hcircles, -, hsettles⟩ := hall "Gate" hgate
  obtain ⟨hsomewhere, hcircles', hendless, -⟩ := hall "East" heast
  have hnot : ¬ m.Circles "Gate" := by
    rw [← hcircles, hseat]
    simp
  obtain ⟨ns, s, hns, hnodup, hsub, hlen, hs, hnested⟩ := hsettles hnot
  have hround : m.Circles "East" := by
    rw [← hcircles', he]
    cases e with
    | endless => rfl
    | noInitialState => exact absurd he hsomewhere
  refine ⟨m, hm, ⟨hgate, hnot, ns, s, hns, hnodup, hsub, hlen, hs, ?_⟩, heast, hround, hendless hround⟩
  rw [hseat] at hnested
  exact (Except.ok.inj hnested).symm

end Statechart
