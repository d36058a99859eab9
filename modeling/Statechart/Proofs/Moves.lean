/-
  Statechart.Proofs.Moves — what one step of the parser can do.

  A step that repairs the text passes over tokens, may put one in, and takes notes: it
  complains, and keeps in mind what it recovers from. `Repairs` closes these under one
  another, so that what each of them keeps, every repair keeps.

  `Moves` is the list of all that a step can do, each with what is known of the token in
  view when it is done: read it, mend its absence, enter a rule, open an item, give the
  rule up, put all that was read below a new node, or leave the rule.
  - `step_moves`: a step of a parser that is not finished is one of these moves. All
    that follows about reading is shown for the moves.
  - A repair is made only where the token in view does not fit (`Stuck`), and where
    nothing was being recovered from it complains (`Mends`).
  - `run_eq_of_le`: a run that has come to the end stays there.
  - `run_induction`, `Fair.run_quiet`: what a move keeps, and what one keeps that
    complains of nothing, a run keeps.
-/

import Statechart.Proofs.Derivation

namespace Statechart

namespace Parser

variable {p q o : Parser}

/-! ## Repairs -/

/-- Nothing changes but what the parser keeps in mind beside the tree, and no complaint is taken back. -/
structure Notes (p q : Parser) : Prop where
  rule : q.frame.rule = p.frame.rule
  children : q.frame.children = p.frame.children
  todo : q.frame.todo = p.frame.todo
  callers : q.callers = p.callers
  ahead : q.ahead = p.ahead
  ending : q.ending = p.ending
  complaints : q.complaints = [] → p.complaints = []

/-- Tokens are passed over or put in, and notes are taken. -/
inductive Repairs (p : Parser) : Parser → Prop
  | nothing : Repairs p p
  | note {q o : Parser} : Repairs p q → Notes q o → Repairs p o
  | pass {q : Parser} : Repairs p q → Repairs p q.consume
  | putIn {q : Parser} (o : Parser) (ks : List Kind) : Repairs p q → Repairs p (q.add (.fault (o.missing ks)))

theorem Repairs.trans (h : Repairs p q) (h' : Repairs q o) : Repairs p o := by
  induction h' with
  | nothing => exact h
  | note _ hn ih => exact ih.note hn
  | pass _ ih => exact ih.pass
  | putIn o ks _ ih => exact ih.putIn o ks

/-- The rule being read, its items left and its callers stay in a repair. -/
structure Keeps (p q : Parser) : Prop where
  rule : q.frame.rule = p.frame.rule
  todo : q.frame.todo = p.frame.todo
  callers : q.callers = p.callers
  ending : q.ending = p.ending

theorem advance_keeps (p : Parser) : Keeps p p.advance := by
  unfold advance
  split <;> exact ⟨rfl, rfl, rfl, rfl⟩

theorem Repairs.keeps (h : Repairs p q) : Keeps p q := by
  induction h with
  | nothing => exact ⟨rfl, rfl, rfl, rfl⟩
  | note _ hn ih =>
    exact ⟨hn.rule.trans ih.rule, hn.todo.trans ih.todo, hn.callers.trans ih.callers, hn.ending.trans ih.ending⟩
  | @pass q _ ih =>
    have hadv := (q.add (if q.recovering then .fault q.view else .leaf q.view)).advance_keeps
    exact ⟨hadv.rule.trans ih.rule, hadv.todo.trans ih.todo, hadv.callers.trans ih.callers,
      hadv.ending.trans ih.ending⟩
  | putIn _ _ _ ih => exact ⟨ih.rule, ih.todo, ih.callers, ih.ending⟩

theorem Repairs.complaints (h : Repairs p q) (hq : q.complaints = []) : p.complaints = [] := by
  induction h with
  | nothing => exact hq
  | note _ hn ih => exact ih (hn.complaints hq)
  | pass _ ih => exact ih (by simpa using hq)
  | putIn _ _ _ ih => exact ih hq

theorem ahead_consume (p : Parser) : p.consume.ahead = p.ahead.tail := by
  unfold consume advance add
  cases p.ahead <;> rfl

theorem Repairs.length_le (h : Repairs p q) : q.ahead.length ≤ p.ahead.length := by
  induction h with
  | nothing => exact Nat.le_refl _
  | note _ hn ih => rw [hn.ahead]; exact ih
  | @pass q _ ih => rw [ahead_consume, List.length_tail]; omega
  | putIn _ _ _ ih => exact ih

theorem notes_settle (p : Parser) : Notes p p.settle := ⟨rfl, rfl, rfl, rfl, rfl, rfl, id⟩

theorem notes_complain (p : Parser) (message : String) : Notes p (p.complain message) := by
  unfold complain
  split
  · exact ⟨rfl, rfl, rfl, rfl, rfl, rfl, id⟩
  · exact ⟨rfl, rfl, rfl, rfl, rfl, rfl, fun h => absurd h (by simp)⟩

theorem notes_remember (p : Parser) (slot : Slot) (t : Token) : Notes p (p.remember slot t) := by
  cases slot <;> exact ⟨rfl, rfl, rfl, rfl, rfl, rfl, id⟩

theorem repairs_skipTo (ks : List Kind) (n : Nat) (p : Parser) : Repairs p (skipTo ks n p) := by
  induction n generalizing p with
  | zero => exact .nothing
  | succ n ih =>
    rw [skipTo]
    split
    · exact .nothing
    · exact (Repairs.pass .nothing).trans (ih p.consume)

/-! ## Repairs where the token in view does not fit -/

/-- The items left cannot be gone on with: something must be read for them, and it is not the token in view. -/
structure Stuck (p : Parser) : Prop where
  through : (lookAll p.frame.todo).through = false
  kind : p.view.kind ∉ (lookAll p.frame.todo).kinds

/-- A repair that leaves a complaint, unless something was being recovered from. -/
structure Mends (p q : Parser) : Prop where
  repairs : Repairs p q
  complains : p.Candid → q.complaints ≠ []

theorem Mends.then (h : Mends p q) (h' : Repairs q o) : Mends p o :=
  ⟨h.repairs.trans h', fun hc ho => h.complains hc (h'.complaints ho)⟩

theorem mends_complain (p : Parser) (message : String) : Mends p (p.complain message) :=
  ⟨.note .nothing (p.notes_complain message), fun hc => hc.complain message⟩

theorem mends_skipOne (h : p.skipOne = some q) : Mends p q := by
  unfold skipOne at h
  split at h
  · cases h
    exact (p.mends_complain _).then (.note (.pass .nothing) (notes_settle _))
  · cases h

/-- Giving up a rule drops the items left of it, behind a repair. -/
theorem giveUp_eq (p : Parser) (place : Nat) : ∃ q, Mends p q ∧ p.giveUp place = q.goOn [] := by
  unfold giveUp
  dsimp only
  generalize p.complain _ = q, p.mends_complain _ = hq
  refine ⟨_, (hq.then ?_).then (repairs_skipTo _ _ _), rfl⟩
  split
  · exact .note (.pass .nothing) ⟨rfl, rfl, rfl, rfl, rfl, rfl, id⟩
  · exact .note .nothing ⟨rfl, rfl, rfl, rfl, rfl, rfl, id⟩

theorem putIn_eq (p : Parser) (ks : List Kind) (slot : Slot) (rest : List Item) :
    ∃ q, Mends p q ∧ p.putIn ks slot rest = q.goOn rest := by
  unfold putIn
  dsimp only
  generalize p.complain _ = q, p.mends_complain _ = hq
  refine ⟨_, (hq.then ?_).then (.note .nothing (notes_remember _ slot (p.missing ks))), rfl⟩
  split
  · exact .putIn p ks .nothing
  · exact .nothing

/-- Synchronizing does nothing, or it repairs what the items left cannot go on with. -/
def Synced (p q : Parser) : Prop := q = p ∨ p.Stuck ∧ Mends p q

theorem sync_cases (p : Parser) (afterRound : Bool) :
    (∃ q, p.sync afterRound = some q ∧ Synced p q) ∨ p.sync afterRound = none ∧ p.Stuck := by
  unfold sync
  dsimp only
  split
  · exact Or.inl ⟨p, rfl, Or.inl rfl⟩
  · rename_i hfit
    simp only [Bool.or_eq_true, not_or, List.contains_iff_mem] at hfit
    have hstuck : p.Stuck := ⟨by simpa using hfit.1.2, hfit.2⟩
    split
    · exact Or.inl ⟨_, rfl, Or.inr ⟨hstuck, (p.mends_complain _).then (repairs_skipTo _ _ _)⟩⟩
    · cases hs : p.skipOne with
      | none => exact Or.inr ⟨rfl, hstuck⟩
      | some q => exact Or.inl ⟨q, rfl, Or.inr ⟨hstuck, mends_skipOne hs⟩⟩

theorem Synced.keeps (h : Synced p q) : Keeps p q := by
  rcases h with rfl | ⟨-, h⟩
  · exact ⟨rfl, rfl, rfl, rfl⟩
  · exact h.repairs.keeps

theorem Synced.length_le (h : Synced p q) : q.ahead.length ≤ p.ahead.length := by
  rcases h with rfl | ⟨-, h⟩
  · exact Nat.le_refl _
  · exact h.repairs.length_le

/-! ## Moves -/

/-- The item asks for a rule, to be read from these items on. -/
inductive Calls : Item → Rule → List Item → Prop
  | rule (r : Rule) : Calls (.call r) r r.body
  | expression (level : Nat) : Calls (.expression level) .expression (expressionBody level)

/-- With a token of the kind `k` in view, the item in front of `rest` is replaced by what it consists of. -/
inductive Opens (k : Kind) (rest : List Item) : Item → List Item → Prop
  | present {place : Nat} {body : List Item} :
      k ∈ (lookAll body).kinds → Opens k rest (.option place body) (body ++ rest)
  | absent {place : Nat} {body : List Item} : k ∉ (lookAll body).kinds → Opens k rest (.option place body) rest
  | many {place again : Nat} {body : List Item} : k ∈ (lookAll body).kinds →
      Opens k rest (.many place again body) (body ++ .again again body :: rest)
  | none {place again : Nat} {body : List Item} : k ∉ (lookAll body).kinds → Opens k rest (.many place again body) rest
  | some {place again : Nat} {body : List Item} :
      Opens k rest (.some place again body) (body ++ .again again body :: rest)
  | again {place : Nat} {body : List Item} : k ∈ (lookAll body).kinds →
      Opens k rest (.again place body) (body ++ .again place body :: rest)
  | enough {place : Nat} {body : List Item} : k ∉ (lookAll body).kinds → Opens k rest (.again place body) rest
  | left {place : Nat} {left right : List Item} : k ∈ (lookAll left).kinds →
      Opens k rest (.choice place left right) (left ++ rest)
  | right {place : Nat} {left right : List Item} : k ∉ (lookAll left).kinds → k ∈ (lookAll right).kinds →
      Opens k rest (.choice place left right) (right ++ rest)
  | operand {level : Nat} : (∀ bound, k.level? = .some bound → bound < level) → Opens k rest (.operators level) rest

/-- None of the two sides of a choice begins with a token of the kind `k`. -/
def Barred (k : Kind) (i : Item) : Prop :=
  ∃ place left right, i = .choice place left right ∧ k ∉ (lookAll left).kinds ∧ k ∉ (lookAll right).kinds

/-- All that a step can do. -/
inductive Moves (p : Parser) : Parser → Prop
  | leave {c : Frame} {cs : List Frame} : p.frame.todo = [] → p.callers = c :: cs →
      Moves p (add { p with frame := c, callers := cs } p.close)
  | read {place : Nat} {ks : List Kind} {slot : Slot} {rest : List Item} :
      p.frame.todo = .token place ks slot :: rest → p.view.kind ∈ ks → Moves p (p.take slot rest)
  | mend {place : Nat} {ks : List Kind} {slot : Slot} {rest : List Item} {q : Parser} :
      p.frame.todo = .token place ks slot :: rest → p.view.kind ∉ ks → Mends p q → Moves p (q.goOn rest)
  | enter {i : Item} {r : Rule} {body rest : List Item} : p.frame.todo = i :: rest → Calls i r body →
      Moves p (p.enter r body rest)
  | opens {i : Item} {rest items : List Item} {q : Parser} : p.frame.todo = i :: rest → Synced p q →
      Opens q.view.kind rest i items → Moves p (q.goOn items)
  | giveUp {i : Item} {rest : List Item} {q : Parser} : p.frame.todo = i :: rest →
      p.Stuck ∨ Barred p.view.kind i → Mends p q → Moves p (q.goOn [])
  | wrap {level bound : Nat} {rest : List Item} : p.frame.todo = .operators level :: rest →
      p.view.kind.level? = some bound → level ≤ bound → Moves p (p.wrap (operatorBody level bound ++ rest))

theorem sees_iff {ks : List Kind} : p.sees ks = true ↔ p.view.kind ∈ ks := by simp [sees]

theorem stuck_of_token {place : Nat} {ks : List Kind} {slot : Slot} {rest : List Item}
    (ht : p.frame.todo = .token place ks slot :: rest) (hk : p.view.kind ∉ ks) : p.Stuck := by
  constructor <;> simp [ht, lookAll, Item.look, hk]

theorem moves_giveUp {i : Item} {rest : List Item} (ht : p.frame.todo = i :: rest)
    (hk : p.Stuck ∨ Barred p.view.kind i) (place : Nat) : Moves p (p.giveUp place) := by
  obtain ⟨q, hq, he⟩ := p.giveUp_eq place
  rw [he]
  exact .giveUp ht hk hq

theorem moves_read {place : Nat} {ks : List Kind} {slot : Slot} {rest : List Item}
    (ht : p.frame.todo = .token place ks slot :: rest) : Moves p (p.read place ks slot rest) := by
  unfold Parser.read
  split
  · exact .read ht (sees_iff.mp ‹_›)
  rename_i hk
  rw [sees_iff] at hk
  split
  · rename_i q hq
    exact .mend ht hk ((mends_skipOne hq).then
      (.note (.pass (.note .nothing (notes_settle q))) (notes_remember _ slot q.view)))
  split
  · obtain ⟨q, hq, he⟩ := p.putIn_eq ks slot rest
    rw [he]
    exact .mend ht hk hq
  have hstuck := stuck_of_token ht hk
  split
  · exact moves_giveUp ht (Or.inl hstuck) place
  · -- what is remembered before giving up is no part of the repair proper
    obtain ⟨q, hq, he⟩ := (p.remember slot p.view).giveUp_eq place
    rw [he]
    refine .giveUp ht (Or.inl hstuck) ⟨(Repairs.note .nothing (notes_remember p slot p.view)).trans hq.repairs, ?_⟩
    exact fun hc => hq.complains (hc.remember slot p.view)

/-- A step that first synchronizes gives up where it is stuck, and goes on from what it finds otherwise. -/
theorem moves_synced {i : Item} {rest : List Item} {afterRound : Bool} {place : Nat} {k : Parser → Parser}
    (ht : p.frame.todo = i :: rest) (hk : ∀ q, Synced p q → Moves p (k q)) :
    Moves p (match p.sync afterRound with
      | none => p.giveUp place
      | some q => k q) := by
  rcases p.sync_cases afterRound with ⟨q, hq, hs⟩ | ⟨hn, hs⟩
  · rw [hq]
    exact hk q hs
  · rw [hn]
    exact moves_giveUp ht (Or.inl hs) place

/-- A parser that has repaired and then gives up has done one repair. -/
theorem Synced.giveUp {i : Item} {rest : List Item} (hs : Synced p q) (ht : p.frame.todo = i :: rest)
    (hb : Barred q.view.kind i) (place : Nat) : Moves p (q.giveUp place) := by
  rcases hs with rfl | ⟨hstuck, hm⟩
  · exact moves_giveUp ht (Or.inr hb) place
  · obtain ⟨o, ho, he⟩ := q.giveUp_eq place
    rw [he]
    exact .giveUp ht (Or.inl hstuck) (hm.then ho.repairs)

theorem moves_round {i : Item} {again : Nat} {body rest : List Item} (ht : p.frame.todo = i :: rest) (hs : Synced p q)
    (hin : q.view.kind ∈ (lookAll body).kinds → Opens q.view.kind rest i (body ++ .again again body :: rest))
    (hout : q.view.kind ∉ (lookAll body).kinds → Opens q.view.kind rest i rest) :
    Moves p (q.round again body rest) := by
  unfold round
  split
  · exact .opens ht hs (hin (sees_iff.mp ‹_›))
  · rename_i hk
    rw [sees_iff] at hk
    exact .opens ht hs (hout hk)

/-- A step of a parser that is not finished is a move. -/
theorem step_moves (h : p.finished = false) : Moves p p.step := by
  unfold step
  split
  case h_1 ht =>
    split
    · rename_i hc
      simp [finished, ht, hc] at h
    · exact .leave ht ‹_›
  case h_2 ht => exact moves_read ht
  case h_3 ht => exact .enter ht (.rule _)
  case h_4 ht => exact .enter ht (.expression _)
  case h_5 place body rest ht =>
    refine moves_synced (k := fun q => if q.sees (lookAll body).kinds then q.goOn (body ++ rest) else q.goOn rest) ht ?_
    intro q hs
    split
    · exact .opens ht hs (.present (sees_iff.mp ‹_›))
    · rename_i hk
      rw [sees_iff] at hk
      exact .opens ht hs (.absent hk)
  case h_6 place again body rest ht =>
    exact moves_synced (k := fun q => q.round again body rest) ht fun q hs => moves_round ht hs .many .none
  case h_7 place again body rest ht =>
    exact moves_synced (k := fun q => q.goOn (body ++ .again again body :: rest)) ht fun q hs => .opens ht hs .some
  case h_8 place body rest ht =>
    exact moves_synced (k := fun q => q.round place body rest) ht fun q hs => moves_round ht hs .again .enough
  case h_9 place left right rest ht =>
    refine moves_synced (k := fun q =>
      if q.sees (lookAll left).kinds then q.goOn (left ++ rest)
      else if q.sees (lookAll right).kinds then q.goOn (right ++ rest) else q.giveUp place) ht ?_
    intro q hs
    split
    · exact .opens ht hs (.left (sees_iff.mp ‹_›))
    rename_i hl
    rw [sees_iff] at hl
    split
    · exact .opens ht hs (.right hl (sees_iff.mp ‹_›))
    · rename_i hr
      rw [sees_iff] at hr
      exact hs.giveUp ht ⟨place, left, right, rfl, hl, hr⟩ place
  case h_10 level rest ht =>
    split
    · rename_i hk
      exact .opens ht (Or.inl rfl) (.operand fun bound hb => by rw [hk] at hb; cases hb)
    · rename_i bound hk
      split
      · exact .wrap ht hk ‹_›
      · rename_i hl
        refine .opens ht (Or.inl rfl) (.operand fun b hb => ?_)
        rw [hk] at hb
        cases hb
        omega

/-- A move takes no complaint back. -/
theorem Moves.complaints (h : Moves p q) (hq : q.complaints = []) : p.complaints = [] := by
  cases h with
  | leave _ _ => exact hq
  | read _ _ => simpa using hq
  | mend _ _ hm => exact hm.repairs.complaints hq
  | enter _ _ => exact hq
  | opens _ hs _ =>
    rcases hs with rfl | ⟨-, hm⟩
    · exact hq
    · exact hm.repairs.complaints hq
  | giveUp _ _ hm => exact hm.repairs.complaints hq
  | wrap _ _ _ => exact hq

/-! ## Runs -/

theorem run_of_finished (h : p.finished = true) (n : Nat) : run n p = p := by
  cases n with
  | zero => rfl
  | succ n => rw [run, if_pos h]

theorem run_add (n m : Nat) (p : Parser) : run (n + m) p = run m (run n p) := by
  induction n generalizing p with
  | zero => rw [Nat.zero_add, run]
  | succ n ih =>
    rw [Nat.succ_add, run, run]
    split
    · rw [run_of_finished ‹_›]
    · exact ih p.step

/-- A run that has come to the end stays there. -/
theorem run_eq_of_le {n m : Nat} (hn : (run n p).finished = true) (hm : n ≤ m) : run m p = run n p := by
  obtain ⟨k, rfl⟩ := Nat.exists_eq_add_of_le hm
  rw [run_add, run_of_finished hn]

/-- What every move keeps, every run keeps. -/
theorem run_induction {P : Parser → Prop} (hstep : ∀ p q, P p → Moves p q → P q) {p : Parser} (h : P p) (n : Nat) :
    P (run n p) := by
  induction n generalizing p with
  | zero => exact h
  | succ n ih =>
    rw [run]
    split
    · exact h
    · exact ih (hstep p p.step h (step_moves (by simpa using ‹¬ p.finished = true›)))

theorem run_complaints {n : Nat} (h : (run n p).complaints = []) : p.complaints = [] :=
  run_induction (P := fun q => q.complaints = [] → p.complaints = []) (fun _ _ ih hm hq => ih (hm.complaints hq)) id n h

/-- What a move keeps that complains of nothing, a run keeps that does. -/
theorem Fair.run_quiet {P : Parser → Prop}
    (hstep : ∀ p q : Parser, Moves p q → P p → p.Candid → q.complaints = [] → P q) (h : p.Fair) (hp : P p) (n : Nat)
    (hc : (Parser.run n p).complaints = []) : P (Parser.run n p) := by
  induction n generalizing p with
  | zero => exact hp
  | succ n ih =>
    rw [Parser.run] at hc ⊢
    split at hc
    · rw [if_pos ‹_›]
      exact hp
    · rename_i hf
      rw [if_neg hf]
      have hm := step_moves (p := p) (by simpa using hf)
      exact ih h.step (hstep p p.step hm hp h.candid (run_complaints hc)) hc

end Parser

end Statechart
