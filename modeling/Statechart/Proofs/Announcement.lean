/-
  Statechart.Proofs.Announcement — which of the states that a step enters and exits are
  announced by their breakpoints.

  A state covers the state it is and the states it contains. A step enters the states that
  cover the current state after it and not before, and exits those that cover it before
  and not after. Containment is read off the lists of states, and breakpoints are
  answered from the chain of parents, which has at most two states (`lineage_eq`).

  Proved: of the states that a step enters, those announced are the target, the state
  that becomes current and, unless this is the target itself, the state that holds it
  (`entered_announced`); of those that it exits, the current state and the source of the
  transition (`exited_announced`). All others are passed over in silence, from one level
  of nesting on (`home_entered_in_silence`, `home_exited_in_silence`).
-/

import Statechart.Breakpoint
import Statechart.Proofs.Nesting
import Statechart.Proofs.Phase
import Statechart.Tree.Parser

namespace Statechart

/-! ## Covering -/

namespace Machine

/-- The state `n` is the target or contains it. Nothing contains a final pseudo-state. -/
def Covers (m : Machine) (n : String) : Target → Prop
  | .state k => n = k ∨ m.Contains n k
  | .final _ _ => False

/-- The state `n` has the target in its list of states. -/
def HoldsTarget (m : Machine) (n : String) : Target → Prop
  | .state k => m.Holds n k
  | .final _ _ => False

instance (m : Machine) (n : String) : (t : Target) → Decidable (m.Covers n t)
  | .state k => inferInstanceAs (Decidable (n = k ∨ m.Contains n k))
  | .final _ _ => inferInstanceAs (Decidable False)

instance (m : Machine) (n : String) : (t : Target) → Decidable (m.HoldsTarget n t)
  | .state k => inferInstanceAs (Decidable (m.Holds n k))
  | .final _ _ => inferInstanceAs (Decidable False)

theorem Covers.state {m : Machine} {n : String} {t : Target} (h : m.Covers n t) : ∃ k, t = .state k := by
  cases t with
  | state k => exact ⟨k, rfl⟩
  | final _ _ => exact h.elim

end Machine

/-! ## Looking for a state by its identifier -/

theorem isIdent_state {load : Nat} {n k : String} :
    (Value.ident (.state load n)).isIdent (.state load k) = decide (n = k) := by
  by_cases h : n = k
  · simp [Value.isIdent, h]
  · simp [Value.isIdent, h, Ne.symm h]

@[simp] theorem Target.id_state (load : Nat) (n : String) : (Target.state n).id load = .state load n := rfl

theorem find?_isIdent (load : Nat) (n : String) (ks : List String) :
    ((ks.map Target.state).find? fun t => (Value.ident (.state load n)).isIdent (t.id load)) =
      if n ∈ ks then some (.state n) else none := by
  induction ks with
  | nil => rfl
  | cons k ks ih =>
    rw [List.map_cons, List.find?_cons, Target.id_state, isIdent_state, ih]
    by_cases h : n = k
    · simp [h]
    · simp [h]

/-- A walk from a state to its parent that stops at `g` and does not look for it. -/
theorem mem_takeWhile_lineage {m : Machine} (hm : m.WellFormed) {n g k : String} (hn : n ≠ g) :
    n ∈ (m.lineage k).takeWhile (· != g) ↔ k ≠ g ∧ (n = k ∨ m.parent? k = some n) := by
  rw [hm.lineage_eq k]
  by_cases hk : k = g
  · simp [hk]
  cases hp : m.parent? k with
  | none => simp [hk]
  | some p =>
    by_cases hpg : p = g
    · simp [hk, hpg, Ne.symm hn]
    · simp [hk, hpg, eq_comm (a := n) (b := p)]

/-- Reaching is noticed for the target, the state it leads to and, if that is another one, its parent. -/
theorem reached?_state {m : Machine} (hm : m.WellFormed) {n g k : String}
    (h : Execution.arrive m (.state g) = .ok (.state k)) :
    reached? m (.state g) (.ident (.state m.load n)) =
      .ok (if n = g ∨ n = k ∨ (g ≠ k ∧ m.parent? k = some n) then some (.state n) else none) := by
  unfold reached?
  simp only [Target.id_state, isIdent_state, decide_eq_true_eq, h]
  by_cases hg : n = g
  · simp [hg]
  have hwalk : ((m.lineage k).map Target.state).takeWhile (· != .state g) =
      ((m.lineage k).takeWhile (· != g)).map .state := by
    rw [List.takeWhile_map]
    congr 2
    funext j
    rw [Bool.eq_iff_iff]
    simp
  rw [if_neg hg]
  simp only [bind, Except.bind, pure, Except.pure, Target.lineage, hwalk]
  rw [find?_isIdent, Except.ok.injEq]
  refine if_congr ?_ rfl rfl
  rw [mem_takeWhile_lineage hm hg]
  constructor
  · rintro ⟨hk, h | h⟩
    · exact Or.inr (Or.inl h)
    · exact Or.inr (Or.inr ⟨Ne.symm hk, h⟩)
  · rintro (h | rfl | ⟨hk, h⟩)
    · exact absurd h hg
    · exact ⟨hg, Or.inl rfl⟩
    · exact ⟨Ne.symm hk, Or.inr h⟩

/-- Exiting is noticed for the current state and for the source of the transition. -/
theorem exited?_state {x : Execution} (hm : x.machine.WellFormed) {n k source : String} (hx : x.current = .state k)
    (hs : source ∈ x.machine.lineage k) :
    exited? x source (.ident (.state x.machine.load n)) =
      if n = k ∨ n = source then some (.state n) else none := by
  rw [hm.lineage_eq k] at hs
  simp only [exited?, hx, Target.lineage, hm.lineage_eq k, List.map_cons, exitedAmong?, Target.id_state, isIdent_state,
    decide_eq_true_eq, Id.state.injEq, true_and]
  by_cases hk : n = k
  · simp [hk]
  rw [if_neg hk]
  by_cases hks : k = source
  · subst hks
    simp [hk]
  rw [if_neg hks]
  obtain hp : x.machine.parent? k = some source := by
    rcases List.mem_cons.mp hs with rfl | hs
    · exact absurd rfl hks
    · simpa using hs
  by_cases hn : n = source
  · simp [hn, hp, exitedAmong?, Target.id_state, isIdent_state]
  · simp [hn, hk, hp, exitedAmong?, Target.id_state, isIdent_state]

/-! ## The steps that change the state -/

namespace Execution

variable {x : Execution} {v : Env} {s : Atomic} {source : String} {target : Target}

theorem Stage.ids (h : x.Stage v) : (x.available.map Step.id).Nodup := by
  cases h with
  | idle _ _ ho => exact ho.ids
  | stuck _ _ _ _ ha => rw [ha]; exact List.nodup_singleton _
  | chosen h => exact h.offered.ids
  | entered h => exact h.offered.ids
  | fires h => exact h.offered.ids

/-- A step that changes the state leads from a state on whose chain of parents the source is to where the target
    leads. -/
theorem Stage.changes (h : x.Stage v) (hm : x.machine.WellFormed) (hs : .atomic s ∈ x.available)
    (ha : s.action = .move source target) (hne : (x.execute (.ident s.id)).1.current ≠ x.current) :
    (∃ k, x.current = .state k ∧ source ∈ x.machine.lineage k) ∧
      x.machine.Arrives target (x.execute (.ident s.id)).1.current := by
  have hget := get_of_mem h.ids hs
  cases hc : s.completed with
  | true =>
    have : x.execute (.ident s.id) = (x, .error .stepCompleted) := by
      simp [Execution.execute, show x.get (.ident s.id) = .ok (.atomic s) from hget, isCompleted, hc]
    exact absurd (by rw [this]) hne
  | false =>
    rw [execute_of_get hget hc] at hne ⊢
    cases h.performs hs hc with
    | event _ _ _ _ _ ha' => rw [ha] at ha'; cases ha'
    | activate _ _ ha' => rw [ha] at ha'; cases ha'
    | assign _ _ _ ha' => rw [ha] at ha'; cases ha'
    | move hf _ hl ha' _ =>
      obtain ⟨rfl, rfl⟩ := Action.move.inj (ha.symm.trans ha')
      obtain ⟨k, ns, hk, hchain, hsrc⟩ := hf.toWithin.source hm
      rw [hchain.unique (hm.chain_lineage k)] at hsrc
      refine ⟨⟨k, hk, hsrc⟩, ?_⟩
      cases hp : x.perform s.action with
      | error e => exact absurd (by rw [hp]) hne
      | ok y =>
        have harr := (fires_move (s := s) hf hm hl (ha ▸ hp)).2.2.2.1
        dsimp only
        cases (y.past s).offer with
        | error e => exact harr
        | ok steps => exact harr

/-- What a breakpoint of a type on a state says about a step. -/
def ask (x : Execution) (type : BreakpointType) (step : Id) (state : State) : Except Fault (Option String) :=
  x.check (.str type.id) (.ident step) (.record [("s", .ident state.id)])

theorem ask_eq (type : BreakpointType) (state : State) (hget : x.get (.ident s.id) = .ok (.atomic s)) :
    x.ask type s.id state = hit x type (.record [("s", .ident state.id)]) (.atomic s) := by
  simp only [ask, check, BreakpointType.ofId?_id, hget]
  rfl

theorem hit_reached (id : Id) (ha : s.action = .move source target) {o : Option Target}
    (h : reached? x.machine target (.ident id) = .ok o) :
    hit x .stateReached (.record [("s", .ident id)]) (.atomic s) =
      .ok (o.map fun t => "State " ++ t.text ++ " is about to be reached.") := by
  have hread : readEntry .stateReached (.record [("s", .ident id)]) = .ok (.ident id) := by
    simp [readEntry, BreakpointType.entry, Value.get?]
  simp only [hit, ha, hread, bind, Except.bind, h]
  rfl

theorem hit_exited (id : Id) (ha : s.action = .move source target) :
    hit x .stateExited (.record [("s", .ident id)]) (.atomic s) =
      .ok ((exited? x source (.ident id)).map fun t => "State " ++ t.text ++ " is about to be exited.") := by
  have hread : readEntry .stateExited (.record [("s", .ident id)]) = .ok (.ident id) := by
    simp [readEntry, BreakpointType.entry, Value.get?]
  simp only [hit, ha, hread, bind, Except.bind]
  rfl

end Execution

/-! ## A house

  From the street one goes straight into the hall of a home, and out of it again. -/

namespace House

def text : String :=
  r"StateMachine House {INITIAL->Street;" ++
  r"state Street{->Hall:'enter';}" ++
  r"composite state Home{INITIAL->Hall;state Hall{->Street:'leave';}}}"

/-- On the street, about to enter the hall. -/
def entering : List Call := [Door.execute 0, Door.enter 1, Door.execute 2]

/-- In the hall, about to leave it. -/
def leaving : List Call := entering ++ [Door.execute 3, Door.execute 4, Door.enter 5, Door.execute 6]

/-- The state change that is offered. -/
def move? (y : Execution) : Option (Id × String × Target) :=
  y.available.findSome? fun
    | .atomic ⟨i, .move source target, _, _⟩ => some (i, source, target)
    | _ => none

theorem offered_of_move? {y : Execution} {i : Id} {source : String} {target : Target}
    (h : move? y = some (i, source, target)) :
    ∃ s, .atomic s ∈ y.available ∧ s.action = .move source target ∧ s.id = i := by
  obtain ⟨step, hmem, hstep⟩ := List.exists_of_findSome?_eq_some h
  split at hstep
  · cases hstep
    exact ⟨_, hmem, rfl, rfl⟩
  · cases hstep

/-- The hall is entered, and with it the home, of which a breakpoint says nothing. -/
def Enters (m : Machine) (y : Execution) : Prop :=
  move? y = some (.step 0 3, "Street", .state "Hall") ∧ (y.execute (.ident (.step 0 3))).2.isOk = true ∧
  (∃ d ∈ m.declared, ¬ m.Covers d.state.name y.current ∧
    m.Covers d.state.name (y.execute (.ident (.step 0 3))).1.current ∧
    (y.ask .stateReached (.step 0 3) d.state).toOption = some none) ∧
  ∃ d ∈ m.declared, d.state.name = "Hall" ∧ ¬ m.Covers d.state.name y.current ∧
    m.Covers d.state.name (y.execute (.ident (.step 0 3))).1.current

/-- The hall is exited, and with it the home, of which a breakpoint says nothing. -/
def Exits (m : Machine) (y : Execution) : Prop :=
  move? y = some (.step 0 7, "Hall", .state "Street") ∧ (y.execute (.ident (.step 0 7))).2.isOk = true ∧
  (∃ d ∈ m.declared, m.Covers d.state.name y.current ∧
    ¬ m.Covers d.state.name (y.execute (.ident (.step 0 7))).1.current ∧
    (y.ask .stateExited (.step 0 7) d.state).toOption = some none) ∧
  ∃ d ∈ m.declared, d.state.name = "Hall" ∧ m.Covers d.state.name y.current ∧
    ¬ m.Covers d.state.name (y.execute (.ident (.step 0 7))).1.current

instance (m : Machine) (y : Execution) : Decidable (Enters m y) := inferInstanceAs (Decidable (_ ∧ _))

instance (m : Machine) (y : Execution) : Decidable (Exits m y) := inferInstanceAs (Decidable (_ ∧ _))

/-- Whether all this happens in the machine that was read. -/
def happens (p : Parsed) : Bool :=
  match Machine.ofTree 0 p.tree with
  | .error _ => false
  | .ok m =>
    match Execution.start 0 m with
    | .error _ => false
    | .ok x => p.complaints = [] ∧ Enters m (x.afterAll entering) ∧ Exits m (x.afterAll leaving)

theorem exists_of_happens {p : Parsed} (h : happens p = true) : ∃ m x, p.complaints = [] ∧
    Machine.ofTree 0 p.tree = .ok m ∧ Execution.start 0 m = .ok x ∧
    Enters m (x.afterAll entering) ∧ Exits m (x.afterAll leaving) := by
  unfold happens at h
  split at h
  · cases h
  · rename_i m hm
    split at h
    · cases h
    · rename_i x hx
      obtain ⟨hc, he, hl⟩ := of_decide_eq_true h
      exact ⟨m, x, hc, hm, hx, he, hl⟩

theorem exists_run : ∃ m x, (parse .machine text).complaints = [] ∧
    Machine.ofTree 0 (parse .machine text).tree = .ok m ∧ Execution.start 0 m = .ok x ∧
    Enters m (x.afterAll entering) ∧ Exits m (x.afterAll leaving) :=
  exists_of_happens (by decide +kernel)

theorem Enters.silent {m : Machine} {y : Execution} (h : Enters m y) :
    ∃ s source target, .atomic s ∈ y.available ∧ s.action = .move source target ∧
      (y.execute (.ident s.id)).2.isOk = true ∧
      ∃ d ∈ m.declared, ¬ m.Covers d.state.name y.current ∧
        m.Covers d.state.name (y.execute (.ident s.id)).1.current ∧ y.ask .stateReached s.id d.state = .ok none := by
  obtain ⟨hmove, hok, ⟨d, hd, hbefore, hafter, hask⟩, -⟩ := h
  obtain ⟨s, hs, ha, hid⟩ := offered_of_move? hmove
  rw [← hid] at hok hafter hask
  exact ⟨s, _, _, hs, ha, hok, d, hd, hbefore, hafter, eq_ok_of_toOption hask⟩

theorem Exits.silent {m : Machine} {y : Execution} (h : Exits m y) :
    ∃ s source target, .atomic s ∈ y.available ∧ s.action = .move source target ∧
      (y.execute (.ident s.id)).2.isOk = true ∧
      ∃ d ∈ m.declared, m.Covers d.state.name y.current ∧
        ¬ m.Covers d.state.name (y.execute (.ident s.id)).1.current ∧ y.ask .stateExited s.id d.state = .ok none := by
  obtain ⟨hmove, hok, ⟨d, hd, hbefore, hafter, hask⟩, -⟩ := h
  obtain ⟨s, hs, ha, hid⟩ := offered_of_move? hmove
  rw [← hid] at hok hafter hask
  exact ⟨s, _, _, hs, ha, hok, d, hd, hbefore, hafter, eq_ok_of_toOption hask⟩

end House

/-! ## What is announced -/

namespace Execution

variable {x : Execution}

/-- After any calls, of the states that a step enters those are announced that are the target or the state that becomes
    current, or that hold this state while it is not the target. -/
theorem entered_announced {load run : Nat} {t : Tree} {m : Machine} (hm : Machine.ofTree load t = .ok m)
    (hx : Execution.start run m = .ok x) (cs : List Call) :
    let y := x.afterAll cs
    ∀ s source target, .atomic s ∈ y.available → s.action = .move source target →
    let z := (y.execute (.ident s.id)).1
    ∀ d ∈ m.declared, ¬ m.Covers d.state.name y.current → m.Covers d.state.name z.current →
      y.ask .stateReached s.id d.state =
        .ok (if target = .state d.state.name ∨ z.current = .state d.state.name ∨
            (target ≠ z.current ∧ m.HoldsTarget d.state.name z.current)
          then some ("State " ++ d.state.name ++ " is about to be reached.") else none) := by
  intro y s source target hs ha z d hd hbefore hafter
  have hwf := ofTree_wellFormed hm
  obtain ⟨_, -, hall⟩ := afterAll_stage hwf hx
  obtain ⟨hmach, v, hst, -⟩ := hall cs
  have hwf' : y.machine.WellFormed := hmach ▸ hwf
  have hne : z.current ≠ y.current := fun h => hbefore (h ▸ hafter)
  obtain ⟨-, harr⟩ := hst.changes hwf' hs ha hne
  obtain ⟨k, hk⟩ := hafter.state
  rw [hmach, show ((x.afterAll cs).execute (.ident s.id)).1.current = _ from hk] at harr
  obtain ⟨st, hsimple⟩ := harr.rests
  rw [hk]
  cases harr with
  | @state g _ _ hset =>
    have hreach := reached?_state (n := d.state.name) hwf (Machine.Arrives.state hset).arrive
    rw [← ofTree_id hm hd, ← hmach] at hreach
    rw [ask_eq _ _ (get_of_mem hst.ids hs), hit_reached _ ha hreach, hmach]
    simp only [Target.state.injEq, Machine.HoldsTarget, ← parent_eq_some_iff hm hsimple, ne_eq,
      @eq_comm _ _ d.state.name]
    split
    · rfl
    · rfl

/-- The hall is entered from the street, and announced. -/
theorem hall_entry_announced :
    ∃ m x, Machine.ofTree 0 (parse .machine House.text).tree = .ok m ∧ Execution.start 0 m = .ok x ∧
      let y := x.afterAll House.entering
      ∃ s, .atomic s ∈ y.available ∧ ∃ d ∈ m.declared, ¬ m.Covers d.state.name y.current ∧
        m.Covers d.state.name (y.execute (.ident s.id)).1.current ∧
        y.ask .stateReached s.id d.state = .ok (some "State Hall is about to be reached.") := by
  obtain ⟨m, x, -, hm, hx, ⟨hmove, -, -, d, hd, hname, hbefore, hafter⟩, -⟩ := House.exists_run
  have hann := entered_announced hm hx House.entering
  refine ⟨m, x, hm, hx, ?_⟩
  generalize x.afterAll House.entering = y at hmove hbefore hafter hann ⊢
  obtain ⟨s, hs, ha, hid⟩ := House.offered_of_move? hmove
  rw [← hid] at hafter
  refine ⟨s, hs, d, hd, hbefore, hafter, ?_⟩
  rw [hann s _ _ hs ha d hd hbefore hafter, if_pos (Or.inl (by rw [hname])), hname]
  rfl

/-- The home is entered with its hall, and not announced, though the text is flawless and the step is executed. -/
theorem home_entered_in_silence :
    ∃ m x, (parse .machine House.text).complaints = [] ∧
      Machine.ofTree 0 (parse .machine House.text).tree = .ok m ∧ Execution.start 0 m = .ok x ∧
      let y := x.afterAll House.entering
      ∃ s source target, .atomic s ∈ y.available ∧ s.action = .move source target ∧
        (y.execute (.ident s.id)).2.isOk = true ∧
        ∃ d ∈ m.declared, ¬ m.Covers d.state.name y.current ∧
          m.Covers d.state.name (y.execute (.ident s.id)).1.current ∧ y.ask .stateReached s.id d.state = .ok none := by
  obtain ⟨m, x, hc, hm, hx, hin, -⟩ := House.exists_run
  exact ⟨m, x, hc, hm, hx, hin.silent⟩

/-- After any calls, of the states that a step exits those are announced that are the current state or the source of the
    transition. -/
theorem exited_announced {load run : Nat} {t : Tree} {m : Machine} (hm : Machine.ofTree load t = .ok m)
    (hx : Execution.start run m = .ok x) (cs : List Call) :
    let y := x.afterAll cs
    ∀ s source target, .atomic s ∈ y.available → s.action = .move source target →
    let z := (y.execute (.ident s.id)).1
    ∀ d ∈ m.declared, m.Covers d.state.name y.current → ¬ m.Covers d.state.name z.current →
      y.ask .stateExited s.id d.state =
        .ok (if y.current = .state d.state.name ∨ source = d.state.name
          then some ("State " ++ d.state.name ++ " is about to be exited.") else none) := by
  intro y s source target hs ha z d hd hbefore hafter
  have hwf := ofTree_wellFormed hm
  obtain ⟨_, -, hall⟩ := afterAll_stage hwf hx
  obtain ⟨hmach, v, hst, -⟩ := hall cs
  have hwf' : y.machine.WellFormed := hmach ▸ hwf
  have hne : z.current ≠ y.current := fun h => hafter (h ▸ hbefore)
  obtain ⟨⟨k, hk, hsrc⟩, -⟩ := hst.changes hwf' hs ha hne
  have hexit := exited?_state (n := d.state.name) hwf' hk hsrc
  rw [show (x.afterAll cs).machine.load = m.load by rw [hmach], ← ofTree_id hm hd] at hexit
  rw [ask_eq _ _ (get_of_mem hst.ids hs), hit_exited _ ha, hexit, show y.current = .state k from hk]
  simp only [Target.state.injEq, @eq_comm _ _ d.state.name]
  split
  · rfl
  · rfl

/-- The hall is exited for the street, and announced. -/
theorem hall_exit_announced :
    ∃ m x, Machine.ofTree 0 (parse .machine House.text).tree = .ok m ∧ Execution.start 0 m = .ok x ∧
      let y := x.afterAll House.leaving
      ∃ s, .atomic s ∈ y.available ∧ ∃ d ∈ m.declared, m.Covers d.state.name y.current ∧
        ¬ m.Covers d.state.name (y.execute (.ident s.id)).1.current ∧
        y.ask .stateExited s.id d.state = .ok (some "State Hall is about to be exited.") := by
  obtain ⟨m, x, -, hm, hx, -, hmove, -, -, d, hd, hname, hbefore, hafter⟩ := House.exists_run
  have hann := exited_announced hm hx House.leaving
  refine ⟨m, x, hm, hx, ?_⟩
  generalize x.afterAll House.leaving = y at hmove hbefore hafter hann ⊢
  obtain ⟨s, hs, ha, hid⟩ := House.offered_of_move? hmove
  rw [← hid] at hafter
  refine ⟨s, hs, d, hd, hbefore, hafter, ?_⟩
  rw [hann s _ _ hs ha d hd hbefore hafter, if_pos (Or.inr hname.symm), hname]
  rfl

/-- The home is exited with its hall, and not announced. -/
theorem home_exited_in_silence :
    ∃ m x, (parse .machine House.text).complaints = [] ∧
      Machine.ofTree 0 (parse .machine House.text).tree = .ok m ∧ Execution.start 0 m = .ok x ∧
      let y := x.afterAll House.leaving
      ∃ s source target, .atomic s ∈ y.available ∧ s.action = .move source target ∧
        (y.execute (.ident s.id)).2.isOk = true ∧
        ∃ d ∈ m.declared, m.Covers d.state.name y.current ∧
          ¬ m.Covers d.state.name (y.execute (.ident s.id)).1.current ∧ y.ask .stateExited s.id d.state = .ok none := by
  obtain ⟨m, x, hc, hm, hx, -, hout⟩ := House.exists_run
  exact ⟨m, x, hc, hm, hx, hout.silent⟩

end Execution

end Statechart
