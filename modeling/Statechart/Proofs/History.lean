/-
  Statechart.Proofs.History — what a session can have come to.

  A history is a list of turns: a file is written, or a request comes in, whether it is
  answered or refused. `Becomes` lists what one turn can make of a session: it stays, a
  file changes, a machine is registered, an execution starts, or a call is passed on to
  one execution. Nothing later opens `handle` to see what a request changes.

  Proved (`afterAll_sound`): after any history, a registered machine was built from a
  text, under a number below the session's count; the execution of a file has come from
  a start of the machine registered for that file by calls alone; and no two executions
  have the same number.
-/

import Statechart.Session
import Statechart.Proofs.Stage

namespace Statechart

/-! ## Tables -/

namespace Table

variable {α : Type} {t : Table α} {k n : String} {a : α}

theorem get?_erase : (t.erase k).get? n = if n = k then none else t.get? n := by
  induction t with
  | nil => simp [erase, get?]
  | cons e t ih =>
    simp only [erase, get?, List.filter_cons] at ih ⊢
    by_cases hk : e.1 = k
    · subst hk
      by_cases hn : n = e.1
      · subst hn
        simp
      · simpa [hn, Ne.symm hn] using ih
    · by_cases hn : e.1 = n
      · subst hn
        simp [hk]
      · simpa [hk, hn] using ih

theorem get?_put : (t.put k a).get? n = if n = k then some a else t.get? n := by
  by_cases h : n = k
  · subst h
    simp [put, get?]
  · have := get?_erase (t := t) (k := k) (n := n)
    rw [if_neg h] at this ⊢
    rw [← this]
    simp [put, get?, Ne.symm h]

@[simp] theorem get?_put_self : (t.put k a).get? k = some a := by simp [get?_put]

theorem read_eq_ok {v : Value} : t.read v = .ok (k, a) ↔ v = .str k ∧ t.get? k = some a := by
  cases v with
  | str s =>
    rw [read]
    cases hs : t.get? s with
    | none =>
      constructor
      · intro h
        cases h
      · rintro ⟨hsk, hk⟩
        cases hsk
        rw [hs] at hk
        cases hk
    | some b =>
      constructor
      · intro h
        cases h
        exact ⟨rfl, hs⟩
      · rintro ⟨hsk, hk⟩
        cases hsk
        rw [hs] at hk
        cases hk
        rfl
  | _ => simp [read]

end Table

/-! ## Turns -/

/-- What can happen to a session. -/
inductive Turn where
  | write (name : String) (bytes : List UInt8)
  | request (r : Request)

/-- A file is written that holds a text of ASCII characters. -/
def Turn.text (name text : String) : Turn := .write name (text.toList.map fun c => c.toNat.toUInt8)

namespace Session

variable {s t : Session}

def after (s : Session) : Turn → Session
  | .write name bytes => s.write name bytes
  | .request r => (s.handle r).1

def afterAll (s : Session) (ts : List Turn) : Session := ts.foldl after s

theorem afterAll_append (s : Session) (ts us : List Turn) : s.afterAll (ts ++ us) = (s.afterAll ts).afterAll us :=
  List.foldl_append

/-- Keep an execution for a file. -/
def keep (s : Session) (name : String) (x : Execution) : Session :=
  { s with executions := s.executions.put name x }

/-- Keep an execution that was just started. -/
def launch (s : Session) (name : String) (x : Execution) : Session :=
  { s with executions := s.executions.put name x, count := s.count + 1 }

/-- What a turn can make of a session. -/
inductive Becomes (s : Session) : Session → Prop
  | same : Becomes s s
  | written (name : String) (bytes : List UInt8) : Becomes s (s.write name bytes)
  | registered {name text : String} {m : Machine} :
      Machine.ofTree s.count (Statechart.parse .machine text).tree = .ok m → Becomes s (s.register name m)
  | started {name : String} {m : Machine} {x : Execution} : s.machines.get? name = some m →
      Execution.start s.count m = .ok x → Becomes s (s.launch name x)
  | called {name : String} {x : Execution} (c : Call) : s.executions.get? name = some x →
      Becomes s (s.keep name (x.after c))

theorem parse_becomes (file : Value) : s.Becomes (s.parse file).1 := by
  unfold parse
  split
  · exact .same
  · split
    · exact .same
    · dsimp only
      split
      · exact .same
      · exact .registered ‹_›

theorem start_becomes (file : Value) : s.Becomes (s.start file).1 := by
  unfold start
  split
  · exact .same
  · rename_i hread
    split
    · exact .same
    · exact .started (Table.read_eq_ok.mp hread).2 ‹_›

theorem look_becomes (file : Value) (f : Execution → Except Fault Answer) : s.Becomes (s.look file f).1 := by
  unfold look
  split <;> exact .same

/-- A request that is passed on as a call changes the execution as the call does. -/
theorem change_becomes (c : Call) {file : Value} {f : Execution → Execution × Except Fault Answer}
    (hf : ∀ x, (f x).1 = x.after c) : s.Becomes (s.change file f).1 := by
  unfold change
  split
  · exact .same
  · rename_i name x hread
    show s.Becomes (s.keep name (f x).1)
    rw [hf]
    exact .called c (Table.read_eq_ok.mp hread).2

theorem after_becomes (s : Session) (t : Turn) : s.Becomes (s.after t) := by
  cases t with
  | write name bytes => exact .written name bytes
  | request r =>
    cases r with
    | parse file => exact parse_becomes file
    | start file _ => exact start_becomes file
    | state file => exact change_becomes .snapshot fun _ => rfl
    | breakpointTypes => exact .same
    | enter file step => exact change_becomes (.enter step) fun _ => rfl
    | execute file step => exact change_becomes (.execute step) fun _ => rfl
    | check file type step entries => exact look_becomes file _
    | steps file => exact look_becomes file _
    | location file step => exact look_becomes file _
    | inspect file step => exact look_becomes file _

end Session

/-! ## Numbers -/

theorem ofTree_load {load : Nat} {t : Tree} {m : Machine} (h : Machine.ofTree load t = .ok m) : m.load = load := by
  obtain ⟨_, _, _, _, _, -, -, -, -, -, rfl⟩ := ofTree_eq_ok.mp h
  rfl

namespace Execution

theorem start_run {run : Nat} {m : Machine} {x : Execution} (h : Execution.start run m = .ok x) : x.run = run := by
  unfold Execution.start at h
  split at h
  · cases h
  · dsimp only at h
    split at h
    · cases h
    · cases h
      rfl

theorem perform_numbers {x y : Execution} {a : Action} (hp : x.perform a = .ok y) :
    y.run = x.run ∧ y.count = x.count := by
  unfold perform at hp
  (repeat' split at hp) <;> cases hp <;> exact ⟨rfl, rfl⟩

theorem after_run (x : Execution) (c : Call) : (x.after c).run = x.run := by
  cases c with
  | execute id =>
    show (x.execute id).1.run = _
    have hx := x.executes id
    generalize x.execute id = r at hx
    cases hx with
    | refused => rfl
    | @stalled s y _ _ _ hp _ =>
      show y.run = x.run
      exact (perform_numbers hp).1
    | @done s y _ _ _ hp _ =>
      show y.run = x.run
      exact (perform_numbers hp).1
  | enter id =>
    show (x.enter id).1.run = _
    have hx := x.enters id
    generalize x.enter id = r at hx
    cases hx <;> rfl
  | check _ _ _ => rfl
  | snapshot => rfl

end Execution

/-! ## Every history -/

namespace Session

variable {s t : Session}

/-- A machine was built from a text, as the `m.load`-th thing that was numbered. -/
def Built (m : Machine) : Prop := ∃ text, Machine.ofTree m.load (Statechart.parse .machine text).tree = .ok m

/-- An execution has come from a start of a machine by calls alone. -/
def Runs (m : Machine) (x : Execution) : Prop :=
  ∃ x₀ cs, Execution.start x.run m = .ok x₀ ∧ x = x₀.afterAll cs

/-- What holds of a session after any history. -/
structure Sound (s : Session) : Prop where
  machine : ∀ {name m}, s.machines.get? name = some m → m.load < s.count ∧ Built m
  execution : ∀ {name x}, s.executions.get? name = some x →
    x.run < s.count ∧ ∃ m, s.machines.get? name = some m ∧ Runs m x
  apart : ∀ {name name' x x'}, s.executions.get? name = some x → s.executions.get? name' = some x' →
    x.run = x'.run → name = name'

theorem sound_empty : Sound empty := by
  refine ⟨?_, ?_, ?_⟩
  · intro name m h
    cases h
  · intro name x h
    cases h
  · intro name name' x x' h
    cases h

theorem Runs.after {m : Machine} {x : Execution} (h : Runs m x) (c : Call) : Runs m (x.after c) := by
  obtain ⟨x₀, cs, hstart, rfl⟩ := h
  exact ⟨x₀, cs ++ [c], by rwa [Execution.after_run], by rw [Execution.afterAll_append]; rfl⟩

theorem Sound.becomes (hs : s.Sound) (h : s.Becomes t) : t.Sound := by
  cases h with
  | same => exact hs
  | written name bytes => exact ⟨hs.machine, hs.execution, hs.apart⟩
  | @registered name text m hm =>
    refine ⟨?_, ?_, ?_⟩
    · intro n m' h
      simp only [register, Table.get?_put] at h ⊢
      split at h
      · cases h
        have hload := ofTree_load hm
        exact ⟨by omega, text, by rwa [hload]⟩
      · obtain ⟨hlt, hb⟩ := hs.machine h
        exact ⟨by omega, hb⟩
    · intro n x h
      simp only [register, Table.get?_erase, Table.get?_put] at h ⊢
      split at h
      · cases h
      · rename_i hn
        obtain ⟨hlt, m', hm', hr⟩ := hs.execution h
        exact ⟨by omega, m', by rwa [if_neg hn], hr⟩
    · intro n n' x x' h h'
      simp only [register, Table.get?_erase] at h h'
      split at h
      · cases h
      split at h'
      · cases h'
      exact hs.apart h h'
  | @started name m x hm hx =>
    have hrun := Execution.start_run hx
    refine ⟨?_, ?_, ?_⟩
    · intro n m' h
      obtain ⟨hlt, hb⟩ := hs.machine h
      exact ⟨Nat.lt_succ_of_lt hlt, hb⟩
    · intro n y h
      simp only [launch, Table.get?_put] at h ⊢
      split at h
      · rename_i hn
        cases h
        subst hn
        exact ⟨by omega, m, hm, x, [], by rwa [hrun], rfl⟩
      · obtain ⟨hlt, hr⟩ := hs.execution h
        exact ⟨by omega, hr⟩
    · intro n n' y y' h h' hyy
      simp only [launch, Table.get?_put] at h h'
      split at h <;> split at h'
      · subst n n'; rfl
      · cases h
        have := (hs.execution h').1
        omega
      · cases h'
        have := (hs.execution h).1
        omega
      · exact hs.apart h h' hyy
  | @called name x c hx =>
    have hrun := Execution.after_run x c
    refine ⟨hs.machine, ?_, ?_⟩
    · intro n y h
      simp only [keep, Table.get?_put] at h ⊢
      split at h
      · rename_i hn
        cases h
        subst hn
        obtain ⟨hlt, m, hm, hr⟩ := hs.execution hx
        exact ⟨by omega, m, hm, hr.after c⟩
      · exact hs.execution h
    · intro n n' y y' h h' hyy
      simp only [keep, Table.get?_put] at h h'
      split at h <;> split at h'
      · subst n n'; rfl
      · cases h
        subst n
        exact hs.apart hx h' (by rw [← hyy, hrun])
      · cases h'
        subst n'
        exact hs.apart h hx (by rw [hyy, hrun])
      · exact hs.apart h h' hyy

theorem Sound.afterAll (hs : s.Sound) (ts : List Turn) : (s.afterAll ts).Sound := by
  induction ts generalizing s with
  | nil => exact hs
  | cons t ts ih => exact ih (hs.becomes (s.after_becomes t))

/-- After any history the parts of a session fit together. -/
theorem afterAll_sound (ts : List Turn) : (empty.afterAll ts).Sound := sound_empty.afterAll ts

end Session

end Statechart
