/-
  Statechart.Proofs.Apart — a file is worked with as if there were no others.

  A session keeps one machine and one execution for each file. What the files share is the
  count from which machines and executions get their numbers, so what happens to one file
  decides which numbers another gets, and nothing else.

  Two sessions are compared. One gets some messages, the other only those that name no
  other file than `f`. The numbers that `f` takes in the first session are its marks;
  `relabel` maps the first of them to 0, the next to 1 and so on, as the second session
  counts, and every other number to one that the second session has not given out. The
  messages of the second session are those of the first, renumbered: they speak of the
  same things.

  - A message that names another file leaves what is kept for `f` as it is
    (`receive_elsewhere`).
  - Any other message is answered alike in both sessions, and what is kept for `f` stays
    the same up to its numbers (`receive_parallel`).

  Proved (`files_kept_apart`): all answers about `f`, and in the end its machine and its
  execution, are those of the session without other files, up to this renumbering.
-/

import Statechart.Proofs.Registration
import Statechart.Proofs.Renumbering.Execution
import Statechart.Proofs.Untouched
import Mathlib.Logic.Equiv.Basic

namespace Statechart

variable {ρ : Nat → Nat} {f : String}

/-! ## Reading requests -/

/-- The file that a request is about. -/
def Request.file? : Request → Option Value
  | .parse file => some file
  | .start file _ => some file
  | .state file => some file
  | .breakpointTypes => none
  | .check file _ _ _ => some file
  | .steps file => some file
  | .enter file _ => some file
  | .execute file _ => some file
  | .location file _ => some file
  | .inspect file _ => some file

theorem bind_renumbered {α β : Type} {h : α → α} {g : β → β} {k k' : α → Except Fault β} (r : Except Fault α)
    (hk : ∀ a, k' (h a) = renumbered ρ g (k a)) : (renumbered ρ h r >>= k') = renumbered ρ g (r >>= k) := by
  cases r with
  | error e => rfl
  | ok a => exact hk a

namespace Request

theorem argument_eq_ok {args v : Value} {key : String} (h : argument args key = .ok v) : args.get? key = some v := by
  unfold argument at h
  split at h
  · split at h
    · cases h
      assumption
    · cases h
  · cases h

theorem argument_renumber (args : Value) (key : String) :
    argument (args.renumber ρ) key = renumbered ρ (Value.renumber ρ) (argument args key) := by
  have hget := args.get?_renumber ρ key
  cases args with
  | record fs =>
    simp only [Value.renumber] at hget
    simp only [Value.renumber, argument, hget]
    cases (Value.record fs).get? key <;> rfl
  | _ => rfl

theorem ofCall?_renumber (name : String) (args : Value) :
    ofCall? name (args.renumber ρ) = (ofCall? name args).map (renumbered ρ (Request.renumber ρ)) := by
  unfold ofCall?
  dsimp only
  split <;> simp only [Option.map_some, Option.map_none, argument_renumber]
  · exact congrArg some (bind_renumbered _ fun _ => rfl)
  · exact congrArg some (bind_renumbered _ fun _ => bind_renumbered _ fun _ => rfl)
  · exact congrArg some (bind_renumbered _ fun _ => rfl)
  · rfl
  · exact congrArg some (bind_renumbered _ fun _ => bind_renumbered _ fun _ => bind_renumbered _ fun _ =>
      bind_renumbered _ fun _ => rfl)
  · exact congrArg some (bind_renumbered _ fun _ => rfl)
  · exact congrArg some (bind_renumbered _ fun _ => bind_renumbered _ fun _ => rfl)
  · exact congrArg some (bind_renumbered _ fun _ => bind_renumbered _ fun _ => rfl)
  · exact congrArg some (bind_renumbered _ fun _ => bind_renumbered _ fun _ => rfl)
  · exact congrArg some (bind_renumbered _ fun _ => bind_renumbered _ fun _ => rfl)

/-- A request that is about a file has it from the argument of that name. -/
theorem ofCall?_file {name : String} {args v : Value} {r : Request} (h : ofCall? name args = some (.ok r))
    (hv : r.file? = some v) : args.get? "sourceFile" = some v := by
  unfold ofCall? at h
  dsimp only at h
  split at h
  case h_4 => cases h; cases hv
  case h_11 => cases h
  all_goals
    obtain ⟨file, hfile, h⟩ := bind_eq_ok.mp (Option.some.inj h)
    -- the arguments after it do not matter
    repeat obtain ⟨_, -, h⟩ := bind_eq_ok.mp h
    rw [← pure_eq_ok.mp h] at hv
    rw [argument_eq_ok hfile, ← hv]
    rfl

end Request

/-! ## Messages -/

/-- A message of a client: a request by its name, with its arguments, and the files as they are when it comes in. -/
structure Message where
  name : String
  args : Value
  files : Table (List UInt8)

namespace Message

/-- The request of a message; there may be none. -/
def request? (m : Message) : Option (Except Fault Request) := Request.ofCall? m.name m.args

/-- A message concerns a file if it names no other. -/
def concerns (f : String) (m : Message) : Bool :=
  match m.args.get? "sourceFile" with
  | some (.str g) => g == f
  | some _ => false
  | none => true

/-- Two messages are the same up to numbers. If they ask to read the file, they find the same there. -/
structure Matches (ρ : Nat → Nat) (f : String) (m m' : Message) : Prop where
  name : m'.name = m.name
  args : m'.args = m.args.renumber ρ
  files : m.request? = some (.ok (.parse (.str f))) → m'.files.get? f = m.files.get? f

variable {m m' : Message} {r : Request} {v : Value}

theorem request?_file (h : m.request? = some (.ok r)) (hv : r.file? = some v) (hm : m.concerns f = true) :
    v = .str f := by
  rw [concerns, Request.ofCall?_file h hv] at hm
  cases v with
  | str g => exact congrArg Value.str (eq_of_beq hm)
  | _ => cases hm

theorem request?_elsewhere (h : m.request? = some (.ok r)) (hm : m.concerns f = false) : r.file? ≠ some (.str f) := by
  intro hv
  rw [concerns, Request.ofCall?_file h hv] at hm
  simp at hm

theorem Matches.concerns (h : m.Matches ρ f m') : m'.concerns f = m.concerns f := by
  rw [Message.concerns, Message.concerns, h.args, Value.get?_renumber]
  cases m.args.get? "sourceFile" with
  | none => rfl
  | some v => cases v <;> rfl

theorem Matches.request? (h : m.Matches ρ f m') :
    m'.request? = m.request?.map (renumbered ρ (Request.renumber ρ)) := by
  rw [Message.request?, h.name, h.args, Request.ofCall?_renumber]
  rfl

end Message

namespace Session

/-- The session with the files as they are now. -/
def seeing (s : Session) (files : Table (List UInt8)) : Session := { s with files := files }

/-- Answer a message, with the files as it finds them. -/
def receive (s : Session) (m : Message) : Session × Option Reply := (s.seeing m.files).dispatch m.name m.args

def receiveAll (s : Session) (ms : List Message) : Session := ms.foldl (fun s m => (s.receive m).1) s

/-- The answers to the messages that concern a file. -/
def answers (s : Session) (f : String) : List Message → List (Option Reply)
  | [] => []
  | m :: ms => (if m.concerns f then [(s.receive m).2] else []) ++ (s.receive m).1.answers f ms

/-- The numbers that are taken by messages that concern a file. -/
def marks (s : Session) (f : String) : List Message → List Nat
  | [] => []
  | m :: ms =>
    (if m.concerns f ∧ (s.receive m).1.count ≠ s.count then [s.count] else []) ++ (s.receive m).1.marks f ms

variable {s t : Session} {file : Value} {r : Request} {m m' : Message}

theorem openFile_eq_ok {name : String} {bytes : List UInt8} (h : s.openFile file = .ok (name, bytes)) :
    file = .str name ∧ s.files.get? name = some bytes := by
  unfold openFile at h
  split at h
  · split at h
    · cases h
      exact ⟨rfl, ‹_›⟩
    · cases h
  · cases h
  · cases h

/-! ## Messages that name another file -/

/-- What is kept for a file is as before. -/
structure Spares (f : String) (s t : Session) : Prop where
  machine : t.machines.get? f = s.machines.get? f
  execution : t.executions.get? f = s.executions.get? f

theorem parse_spares (hf : file ≠ .str f) : s.Spares f (s.parse file).1 := by
  by_cases h : ∃ name text m, s.Builds file name text m
  · obtain ⟨name, text, m, hb⟩ := h
    obtain ⟨bytes, hopen, -⟩ := hb.read
    have hname : f ≠ name := by
      rintro rfl
      exact hf (openFile_eq_ok hopen).1
    rw [hb.parse]
    exact ⟨by simp [register, Table.get?_put, hname], by simp [register, Table.get?_erase, hname]⟩
  · rw [parse_of_not_builds fun name text m hb => h ⟨name, text, m, hb⟩]
    exact ⟨rfl, rfl⟩

theorem name_ne_of_read {α : Type} {a : α} {table : Table α} {name : String} (h : table.read file = .ok (name, a))
    (hf : file ≠ .str f) : f ≠ name := by
  rintro rfl
  exact hf (Table.read_eq_ok.mp h).1

theorem start_spares (hf : file ≠ .str f) : s.Spares f (s.start file).1 := by
  unfold start
  split
  · exact ⟨rfl, rfl⟩
  · rename_i name m hread
    have hname := name_ne_of_read hread hf
    split
    · exact ⟨rfl, rfl⟩
    · exact ⟨rfl, by simp [Table.get?_put, hname]⟩

theorem change_spares (g : Execution → Execution × Except Fault Answer) (hf : file ≠ .str f) :
    s.Spares f (s.change file g).1 := by
  unfold change
  split
  · exact ⟨rfl, rfl⟩
  · rename_i name x hread
    have hname := name_ne_of_read hread hf
    exact ⟨rfl, by simp [Table.get?_put, hname]⟩

theorem look_spares (file : Value) (g : Execution → Except Fault Answer) : s.Spares f (s.look file g).1 := by
  rw [look_fst]
  exact ⟨rfl, rfl⟩

theorem handle_spares (hf : r.file? ≠ some (.str f)) : s.Spares f (s.handle r).1 := by
  have hfile {v : Value} (hv : r.file? = some v) : v ≠ .str f := fun h => hf (hv.trans (congrArg some h))
  cases r with
  | parse file => exact parse_spares (hfile rfl)
  | start file entries => exact start_spares (hfile rfl)
  | state file => exact change_spares _ (hfile rfl)
  | enter file step => exact change_spares _ (hfile rfl)
  | execute file step => exact change_spares _ (hfile rfl)
  | breakpointTypes => exact ⟨rfl, rfl⟩
  | check file type step entries => exact look_spares file _
  | steps file => exact look_spares file _
  | location file step => exact look_spares file _
  | inspect file step => exact look_spares file _

theorem receive_elsewhere (hm : m.concerns f = false) : s.Spares f (s.receive m).1 := by
  unfold receive dispatch
  split
  · exact ⟨rfl, rfl⟩
  · exact ⟨rfl, rfl⟩
  · rename_i r hr
    have h := handle_spares (s := s.seeing m.files) (Message.request?_elsewhere hr hm)
    exact ⟨h.machine, h.execution⟩

/-! ## Messages that concern the file -/

/-- Two sessions keep the same for a file, up to numbers. -/
structure Mirrors (ρ : Nat → Nat) (f : String) (s t : Session) : Prop where
  machine : t.machines.get? f = (s.machines.get? f).map (Machine.renumber ρ)
  execution : t.executions.get? f = (s.executions.get? f).map (Execution.renumber ρ)

/-- Two sessions answer alike, keep the same for a file, and take as many numbers. -/
structure Parallel {α : Type} (ρ : Nat → Nat) (g : α → α) (f : String) (s t : Session) (p q : Session × α) : Prop where
  answer : q.2 = g p.2
  mirrors : Mirrors ρ f p.1 q.1
  count : q.1.count + s.count = t.count + p.1.count

theorem Mirrors.refuse (h : Mirrors ρ f s t) (e : Fault) :
    Parallel ρ (Reply.renumber ρ) f s t (s, .refuse e) (t, .refuse (e.renumber ρ)) := ⟨rfl, h, rfl⟩

theorem read_mirrors {α : Type} {g : α → α} {a b : Table α} (h : b.get? f = (a.get? f).map g) :
    b.read (.str f) = renumbered ρ (fun p => (p.1, g p.2)) (a.read (.str f)) := by
  rw [Table.read, Table.read, h]
  cases a.get? f <;> rfl

theorem openFile_mirrors (h : t.files.get? f = s.files.get? f) :
    t.openFile (.str f) = renumbered ρ id (s.openFile (.str f)) := by
  rw [openFile, openFile, h]
  cases s.files.get? f with
  | some bytes => rfl
  | none =>
    dsimp only [renumbered]
    split <;> rfl

theorem asciiText_error {bytes : List UInt8} {e : Fault} (h : asciiText bytes = .error e) : e.renumber ρ = e := by
  unfold asciiText at h
  split at h <;> cases h
  rfl

theorem shown_renumber (m : Machine) : shown (m.renumber ρ) = renumbered ρ (Answer.renumber ρ) (shown m) := by
  unfold shown
  rw [toElement_renumber]
  cases m.toElement <;> rfl

theorem parse_parallel (hinj : Function.Injective ρ) (h : Mirrors ρ f s t) (hfiles : t.files.get? f = s.files.get? f)
    (hcount : (s.parse (.str f)).1.count ≠ s.count → ρ s.count = t.count) :
    Parallel ρ (Reply.renumber ρ) f s t (s.parse (.str f)) (t.parse (.str f)) := by
  have hopen' := openFile_mirrors (ρ := ρ) hfiles
  cases hopen : s.openFile (.str f) with
  | error e =>
    rw [hopen] at hopen'
    simp only [parse, hopen, hopen', renumbered]
    exact h.refuse e
  | ok p =>
    obtain ⟨name, bytes⟩ := p
    obtain rfl := Value.str.inj (openFile_eq_ok hopen).1
    rw [hopen] at hopen'
    cases htext : asciiText bytes with
    | error e =>
      simp only [parse, hopen, hopen', renumbered, id, htext]
      have := h.refuse e
      rwa [asciiText_error htext] at this
    | ok text =>
      cases hm : Machine.ofTree s.count (Statechart.parse .machine text).tree with
      | error d =>
        -- the number does not decide whether a machine is built
        have hm' := ofTree_renumber (Equiv.swap s.count t.count).injective s.count (Statechart.parse .machine text).tree
        rw [hm, Equiv.swap_apply_left] at hm'
        simp only [parse, hopen, hopen', renumbered, id, htext, hm, hm', Except.map]
        exact ⟨rfl, h, rfl⟩
      | ok m =>
        have hb : s.Builds (.str f) f text m := ⟨⟨bytes, hopen, htext⟩, hm⟩
        rw [hb.parse] at hcount ⊢
        have hρ : ρ s.count = t.count := hcount (Nat.succ_ne_self _)
        have hm' : Machine.ofTree t.count (Statechart.parse .machine text).tree = .ok (m.renumber ρ) := by
          rw [← hρ, ofTree_renumber hinj, hm]
          rfl
        have hb' : t.Builds (.str f) f text (m.renumber ρ) := ⟨⟨bytes, hopen', htext⟩, hm'⟩
        rw [hb'.parse, shown_renumber]
        refine ⟨rfl, ⟨?_, ?_⟩, ?_⟩
        · simp [register]
        · simp [register, Table.get?_erase]
        · simp only [register]
          omega

theorem start_parallel (h : Mirrors ρ f s t) (hcount : (s.start (.str f)).1.count ≠ s.count → ρ s.count = t.count) :
    Parallel ρ (Reply.renumber ρ) f s t (s.start (.str f)) (t.start (.str f)) := by
  have hread' := read_mirrors (ρ := ρ) h.machine
  cases hread : s.machines.read (.str f) with
  | error e =>
    rw [hread] at hread'
    simp only [start, hread, hread', renumbered]
    exact h.refuse e
  | ok p =>
    obtain ⟨name, m⟩ := p
    obtain rfl := Value.str.inj (Table.read_eq_ok.mp hread).1
    rw [hread] at hread'
    cases hx : Execution.start s.count m with
    | error e =>
      -- the number does not decide whether an execution starts
      have hx' := Execution.start_renumber (ρ := ρ) s.count m
      rw [hx] at hx'
      simp only [start, hread, hread', renumbered, hx, Execution.start_error hx']
      exact h.refuse e
    | ok x =>
      simp only [start, hread, hx] at hcount
      have hx' := Execution.start_renumber (ρ := ρ) s.count m
      rw [hcount (Nat.succ_ne_self _), hx] at hx'
      simp only [start, hread, hread', renumbered, hx, hx']
      refine ⟨rfl, ⟨h.machine, ?_⟩, ?_⟩
      · simp
      · dsimp only
        omega

theorem look_parallel (h : Mirrors ρ f s t) {g g' : Execution → Except Fault Answer}
    (hg : ∀ x, g' (x.renumber ρ) = renumbered ρ (Answer.renumber ρ) (g x)) :
    Parallel ρ (Reply.renumber ρ) f s t (s.look (.str f) g) (t.look (.str f) g') := by
  unfold look
  rw [read_mirrors (ρ := ρ) h.execution]
  cases s.executions.read (.str f) with
  | error e => exact h.refuse e
  | ok p => exact ⟨congrArg (Reply.mk []) (hg p.2), h, rfl⟩

theorem change_parallel (h : Mirrors ρ f s t) {g g' : Execution → Execution × Except Fault Answer}
    (hg : ∀ x, g' (x.renumber ρ) = ((g x).1.renumber ρ, renumbered ρ (Answer.renumber ρ) (g x).2)) :
    Parallel ρ (Reply.renumber ρ) f s t (s.change (.str f) g) (t.change (.str f) g') := by
  unfold change
  rw [read_mirrors (ρ := ρ) h.execution]
  cases hread : s.executions.read (.str f) with
  | error e => exact h.refuse e
  | ok p =>
    obtain ⟨name, x⟩ := p
    obtain rfl := Value.str.inj (Table.read_eq_ok.mp hread).1
    simp only [renumbered, hg]
    refine ⟨rfl, ⟨h.machine, ?_⟩, rfl⟩
    simp

/-- What is done with the result of an operation is done with it renumbered. -/
theorem map_renumbered {α : Type} {g : α → α} {a : α → Answer} (r : Except Fault α)
    (ha : ∀ x, a (g x) = (a x).renumber ρ) : (renumbered ρ g r).map a = renumbered ρ (Answer.renumber ρ) (r.map a) := by
  cases r with
  | error e => rfl
  | ok x => exact congrArg Except.ok (ha x)

theorem handle_parallel (hρ : Function.Injective ρ) (h : Mirrors ρ f s t) (hf : ∀ v, r.file? = some v → v = .str f)
    (hfiles : r = .parse (.str f) → t.files.get? f = s.files.get? f)
    (hcount : (s.handle r).1.count ≠ s.count → ρ s.count = t.count) :
    Parallel ρ (Reply.renumber ρ) f s t (s.handle r) (t.handle (r.renumber ρ)) := by
  cases r with
  | parse file =>
    obtain rfl := hf file rfl
    exact parse_parallel hρ h (hfiles rfl) hcount
  | start file entries =>
    obtain rfl := hf file rfl
    exact start_parallel h hcount
  | state file =>
    obtain rfl := hf file rfl
    simp only [handle, Request.renumber, Value.renumber]
    refine change_parallel h fun x => ?_
    rw [x.snapshot_renumber]
    rfl
  | breakpointTypes => exact ⟨rfl, h, rfl⟩
  | check file type step entries =>
    obtain rfl := hf file rfl
    refine look_parallel h fun x => ?_
    rw [x.check_renumber hρ]
    exact bind_renumbered _ fun _ => rfl
  | steps file =>
    obtain rfl := hf file rfl
    refine look_parallel h fun x => ?_
    have hviews : (x.renumber ρ).available.map (·.view) = (x.available.map (·.view)).map (StepView.renumber ρ) := by
      show (x.available.map (Step.renumber ρ)).map (·.view) = _
      rw [List.map_map, List.map_map]
      exact List.map_congr_left fun s _ => s.view_renumber
    rw [hviews]
    rfl
  | enter file step =>
    obtain rfl := hf file rfl
    simp only [handle, Request.renumber, Value.renumber]
    refine change_parallel h fun x => ?_
    rw [x.enter_renumber hρ]
    exact congrArg (Prod.mk _) (map_renumbered _ fun _ => rfl)
  | execute file step =>
    obtain rfl := hf file rfl
    simp only [handle, Request.renumber, Value.renumber]
    refine change_parallel h fun x => ?_
    rw [x.execute_renumber hρ]
    refine congrArg (Prod.mk _) (map_renumbered _ fun ids => ?_)
    rw [Answer.renumber, List.map_map, List.map_map]
    rfl
  | location file step =>
    obtain rfl := hf file rfl
    refine look_parallel h fun x => ?_
    rw [x.get_renumber hρ]
    refine bind_renumbered _ fun s => ?_
    rw [s.location?_renumber]
    rfl
  | inspect file step =>
    obtain rfl := hf file rfl
    refine look_parallel h fun x => ?_
    rw [x.find_renumber hρ]
    refine bind_renumbered _ fun o => ?_
    cases o with
    | none => rfl
    | some s =>
      simp only [Option.map_some, x.inspect_renumber]
      rfl

/-- A message that concerns the file is answered alike, if the number that it takes is the one it should. -/
theorem receive_parallel (hρ : Function.Injective ρ) (h : Mirrors ρ f s t) (hm : m.Matches ρ f m')
    (hf : m.concerns f = true) (hcount : (s.receive m).1.count ≠ s.count → ρ s.count = t.count) :
    Parallel ρ (Option.map (Reply.renumber ρ)) f s t (s.receive m) (t.receive m') := by
  have hrequest := hm.request?
  unfold receive dispatch at hcount ⊢
  unfold Message.request? at hrequest
  rw [hrequest]
  cases hr : Request.ofCall? m.name m.args with
  | none => exact ⟨rfl, ⟨h.machine, h.execution⟩, rfl⟩
  | some r =>
    cases r with
    | error e => exact ⟨rfl, ⟨h.machine, h.execution⟩, rfl⟩
    | ok r =>
      rw [hr] at hcount
      have hfiles : r = .parse (.str f) → m'.files.get? f = m.files.get? f := by
        rintro rfl
        exact hm.files hr
      have := handle_parallel (s := s.seeing m.files) (t := t.seeing m'.files) hρ ⟨h.machine, h.execution⟩
        (fun v hv => Message.request?_file hr hv hf) hfiles hcount
      exact ⟨congrArg some this.answer, this.mirrors, this.count⟩

/-! ## All messages -/

/-- A message takes one number or none. -/
theorem receive_count (s : Session) (m : Message) :
    (s.receive m).1.count = s.count ∨ (s.receive m).1.count = s.count + 1 := by
  unfold receive dispatch
  split
  · exact .inl rfl
  · exact .inl rfl
  · rename_i r hr
    have h := (s.seeing m.files).after_becomes (.request r)
    show ((s.seeing m.files).after (.request r)).count = _ ∨ ((s.seeing m.files).after (.request r)).count = _
    generalize (s.seeing m.files).after (.request r) = t at h
    cases h with
    | same => exact .inl rfl
    | written => exact .inl rfl
    | called => exact .inl rfl
    | registered => exact .inr rfl
    | started => exact .inr rfl

theorem count_le_of_mem_marks {ms : List Message} {n : Nat} (hn : n ∈ s.marks f ms) : s.count ≤ n := by
  induction ms generalizing s with
  | nil => cases hn
  | cons m ms ih =>
    rcases List.mem_append.mp hn with hn | hn
    · split at hn
      · exact Nat.le_of_eq (List.mem_singleton.mp hn).symm
      · cases hn
    · have hle := ih hn
      have hcount := s.receive_count m
      omega

theorem marks_nodup (s : Session) (f : String) (ms : List Message) : (s.marks f ms).Nodup := by
  induction ms generalizing s with
  | nil => exact List.nodup_nil
  | cons m ms ih =>
    rw [marks]
    split
    · rename_i htakes
      refine List.nodup_cons.mpr ⟨fun hmem => ?_, ih _⟩
      have hle := count_le_of_mem_marks hmem
      have hcount := s.receive_count m
      omega
    · exact ih _

/-- If the numbers that are taken in one session are mapped to those that another takes, so is the first of them, and
    so are those that are taken after it. -/
theorem marks_step {ms : List Message} (hf : m.concerns f = true)
    (hmarks : (s.marks f (m :: ms)).map ρ = List.range' t.count (s.marks f (m :: ms)).length) :
    ((s.receive m).1.count ≠ s.count → ρ s.count = t.count) ∧
    ∀ u : Session, u.count + s.count = t.count + (s.receive m).1.count →
      ((s.receive m).1.marks f ms).map ρ = List.range' u.count ((s.receive m).1.marks f ms).length ∧
      u.count + ((s.receive m).1.marks f ms).length = t.count + (s.marks f (m :: ms)).length := by
  rw [marks] at hmarks ⊢
  by_cases htakes : (s.receive m).1.count = s.count
  · rw [if_neg fun h => h.2 htakes, List.nil_append] at hmarks ⊢
    refine ⟨fun h => absurd htakes h, fun u hu => ?_⟩
    obtain hu : u.count = t.count := by omega
    rw [hu]
    exact ⟨hmarks, rfl⟩
  · rw [if_pos ⟨hf, htakes⟩, List.singleton_append, List.map_cons, List.length_cons, List.range'_succ] at hmarks
    rw [if_pos ⟨hf, htakes⟩, List.singleton_append, List.length_cons]
    obtain ⟨hfirst, hrest⟩ := List.cons.inj hmarks
    refine ⟨fun _ => hfirst, fun u hu => ?_⟩
    have hcount := s.receive_count m
    obtain hu : u.count = t.count + 1 := by omega
    rw [hu]
    exact ⟨hrest, by omega⟩

/-- Every message that concerns the file is answered as in the session without the others, if the numbers that are
    taken in the one session are mapped to those that are taken in the other. -/
theorem receiveAll_parallel (hρ : Function.Injective ρ) {ms ps : List Message} (h : Mirrors ρ f s t)
    (hms : List.Forall₂ (Message.Matches ρ f) (ms.filter (·.concerns f)) ps)
    (hmarks : (s.marks f ms).map ρ = List.range' t.count (s.marks f ms).length) :
    t.answers f ps = (s.answers f ms).map (Option.map (Reply.renumber ρ)) ∧
    Mirrors ρ f (s.receiveAll ms) (t.receiveAll ps) ∧
    (t.receiveAll ps).count = t.count + (s.marks f ms).length := by
  induction ms generalizing s t ps with
  | nil =>
    cases hms
    exact ⟨rfl, h, rfl⟩
  | cons m ms ih =>
    cases hf : m.concerns f with
    | false =>
      rw [List.filter_cons_of_neg (by simp [hf])] at hms
      have hspares := receive_elsewhere (s := s) hf
      have hmirrors : Mirrors ρ f (s.receive m).1 t :=
        ⟨by rw [hspares.machine, h.machine], by rw [hspares.execution, h.execution]⟩
      simp only [marks, answers, hf, Bool.false_eq_true, false_and, if_false, List.nil_append] at hmarks ⊢
      exact ih hmirrors hms hmarks
    | true =>
      rw [List.filter_cons_of_pos hf] at hms
      cases hms with
      | @cons _ m' _ ps hm hms =>
        obtain ⟨hfirst, hrest⟩ := marks_step hf hmarks
        have hstep := receive_parallel hρ h hm hf hfirst
        obtain ⟨hrest, hlength⟩ := hrest _ hstep.count
        obtain ⟨hanswers, hmirrors, hcount⟩ := ih hstep.mirrors hms hrest
        refine ⟨?_, hmirrors, hcount.trans hlength⟩
        simp only [answers, hm.concerns, hf, if_true, List.singleton_append, List.map_cons, hstep.answer, hanswers]

/-! ## One renumbering -/

/-- The place of a number in a list; a number that is not there comes after all that are. -/
def place (ns : List Nat) (n : Nat) : Nat := if n ∈ ns then ns.idxOf n else ns.length + n

theorem place_injective (ns : List Nat) : Function.Injective (place ns) := by
  intro a b h
  unfold place at h
  split at h <;> split at h
  · rename_i ha hb
    exact (List.idxOf_inj ha).mp h
  · rename_i ha hb
    have := List.idxOf_lt_length_iff.mpr ha
    omega
  · rename_i ha hb
    have := List.idxOf_lt_length_iff.mpr hb
    omega
  · omega

theorem map_place {ns : List Nat} (h : ns.Nodup) : ns.map (place ns) = List.range' 0 ns.length := by
  refine List.ext_getElem (by simp) fun i hi hi' => ?_
  rw [List.getElem_map, List.getElem_range', place, if_pos (List.getElem_mem _), h.idxOf_getElem]
  omega

theorem place_lt_length_iff {ns : List Nat} {n : Nat} : place ns n < ns.length ↔ n ∈ ns := by
  unfold place
  split
  · exact ⟨fun _ => ‹_›, fun hn => List.idxOf_lt_length_iff.mpr hn⟩
  · exact ⟨fun _ => by omega, fun hn => absurd hn ‹_›⟩

/-- The numbers that a file takes, as they are counted without the other files. -/
def relabel (f : String) (ms : List Message) : Nat → Nat := place (empty.marks f ms)

/-- Files do not interfere. Take any messages, and those among them that name no other file than `f`, with the numbers
    that `f` would get without the other files and with the same to read for `f`. What is answered about `f`, and what
    is kept for it in the end, is the same up to these numbers. Only numbers that were taken for `f` are mapped to
    numbers that are given out. -/
theorem files_kept_apart (f : String) (ms ps : List Message)
    (h : List.Forall₂ (Message.Matches (relabel f ms) f) (ms.filter (·.concerns f)) ps) :
    let s := empty.receiveAll ms
    let t := empty.receiveAll ps
    Function.Injective (relabel f ms) ∧
    empty.answers f ps = (empty.answers f ms).map (Option.map (Reply.renumber (relabel f ms))) ∧
    t.machines.get? f = (s.machines.get? f).map (Machine.renumber (relabel f ms)) ∧
    t.executions.get? f = (s.executions.get? f).map (Execution.renumber (relabel f ms)) ∧
    ∀ n, n ∈ empty.marks f ms ↔ relabel f ms n < t.count := by
  intro s t
  have hρ : Function.Injective (relabel f ms) := place_injective _
  have hmarks := map_place (empty.marks_nodup f ms)
  obtain ⟨hanswers, hmirrors, hcount⟩ := receiveAll_parallel (s := empty) (t := empty) hρ ⟨rfl, rfl⟩ h hmarks
  have ht : t.count = (empty.marks f ms).length := hcount.trans (Nat.zero_add _)
  refine ⟨hρ, hanswers, hmirrors.machine, hmirrors.execution, fun n => ?_⟩
  rw [ht]
  exact place_lt_length_iff.symm

end Session

/-! ## A lamp and a bell

  Both files are read and started in turns, and in both an event is chosen. Then the step of the bell is named as one of
  the lamp. -/

namespace Household

def files : Table (List UInt8) :=
  [("lamp", Lamp.text), ("bell", Bell.text)].map fun e => (e.1, e.2.toList.map fun c => c.toNat.toUInt8)

def call (name file : String) (more : List (String × Value)) : Message :=
  ⟨name, .record (("sourceFile", .str file) :: more), files⟩

def choose (file : String) (run : Nat) : Message := call "executeAtomicStep" file [("stepId", .ident (.step run 0))]

def both : List Message :=
  [call "parse" "bell" [], call "parse" "lamp" [], call "initializeExecution" "bell" [("entries", .null)],
    call "initializeExecution" "lamp" [("entries", .null)], choose "bell" 2, choose "lamp" 3, choose "lamp" 2]

/-- The lamp takes the numbers 0 and 1. The number of the bell's execution is none that is given out. -/
def lampOnly : List Message :=
  [call "parse" "lamp" [], call "initializeExecution" "lamp" [("entries", .null)], choose "lamp" 1, choose "lamp" 4]

theorem both_received : Session.empty.marks "lamp" both = [1, 3] ∧
    (Session.empty.answers "lamp" both).map (Option.map (·.result.isOk)) =
      [some true, some true, some true, some false] := by decide +kernel

end Household

open Household in
theorem Session.lamp_kept_apart_from_bell :
    List.Forall₂ (Message.Matches (relabel "lamp" both) "lamp") (both.filter (·.concerns "lamp")) lampOnly ∧
    empty.marks "lamp" both = [1, 3] ∧
    (empty.answers "lamp" both).map (Option.map (·.result.isOk)) = [some true, some true, some true, some false] ∧
    empty.answers "lamp" lampOnly =
      (empty.answers "lamp" both).map (Option.map (Reply.renumber (relabel "lamp" both))) := by
  obtain ⟨hmarks, hanswers⟩ := both_received
  have h : List.Forall₂ (Message.Matches (relabel "lamp" both) "lamp") (both.filter (·.concerns "lamp")) lampOnly := by
    rw [relabel, hmarks]
    exact .cons ⟨rfl, rfl, fun _ => rfl⟩ (.cons ⟨rfl, rfl, fun _ => rfl⟩ (.cons ⟨rfl, rfl, fun _ => rfl⟩
      (.cons ⟨rfl, rfl, fun _ => rfl⟩ .nil)))
  exact ⟨h, hmarks, hanswers, (files_kept_apart "lamp" both lampOnly h).2.1⟩

end Statechart
