/-
  Statechart.Proofs.Untouched — requests that leave no trace.

  Apart from reading a file and executing a step, a request changes the session only if it
  is answered, and most do not even then:
  - Requests that only look leave the session as it is (`handle_of_looks`).
  - A snapshot uses up an identifier. The execution it is taken of is otherwise the same,
    and so is all else (`state_resembles`).
  - An execution that cannot be started leaves the one before it in its place
    (`start_refused`).
  - Entering a firing makes it ongoing before it looks for what to offer, so a refusal
    could come too late. But firings are offered only while an event is chosen, and then
    the first step inside can always be offered: an offered firing is entered
    (`Stage.enters_firing`), and what is refused was not offered (`enter_refused`).

  Proved (`looking_and_refusal_leave_no_trace`): all this after any history and for any
  arguments.
-/

import Statechart.Proofs.Once

namespace Statechart

/-! ## Looking -/

/-- A request that only looks at what there is. -/
inductive Request.Looks : Request → Prop
  | breakpointTypes : Looks .breakpointTypes
  | check (file type step entries : Value) : Looks (.check file type step entries)
  | steps (file : Value) : Looks (.steps file)
  | location (file step : Value) : Looks (.location file step)
  | inspect (file step : Value) : Looks (.inspect file step)

namespace Session

variable {s t : Session} {file : Value}

theorem look_fst (s : Session) (file : Value) (f : Execution → Except Fault Answer) : (s.look file f).1 = s := by
  unfold look
  split <;> rfl

theorem handle_of_looks {r : Request} (h : r.Looks) : (s.handle r).1 = s := by
  cases h with
  | breakpointTypes => rfl
  | check => exact look_fst s _ _
  | steps => exact look_fst s _ _
  | location => exact look_fst s _ _
  | inspect => exact look_fst s _ _

/-- The same files and machines, and under every name the same execution, but for how many identifiers were made for
    it. -/
structure Resembles (s t : Session) : Prop where
  files : s.files = t.files
  machines : s.machines = t.machines
  executions : ∀ name, (s.executions.get? name).map (·.counted 0) = (t.executions.get? name).map (·.counted 0)
  count : s.count = t.count

theorem Resembles.refl (s : Session) : s.Resembles s := ⟨rfl, rfl, fun _ => rfl, rfl⟩

theorem resembles_keep {name : String} {x : Execution} (hx : s.executions.get? name = some x) (k : Nat) :
    (s.keep name (x.counted k)).Resembles s := by
  refine ⟨rfl, rfl, fun n => ?_, rfl⟩
  simp only [keep, Table.get?_put]
  split
  · rename_i hn
    rw [hn, hx]
    rfl
  · rfl

theorem state_resembles (s : Session) (file : Value) : (s.handle (.state file)).1.Resembles s := by
  cases hread : s.executions.read file with
  | error e =>
    have : (s.handle (.state file)).1 = s := by simp only [handle, change, hread]
    rw [this]
    exact .refl s
  | ok p =>
    obtain ⟨name, x⟩ := p
    simp only [handle, change_eq hread]
    exact resembles_keep (Table.read_eq_ok.mp hread).2 (x.count + 1)

/-! ## Refusals -/

theorem start_refused {f : Fault} (h : (s.start file).2.result = .error f) : (s.start file).1 = s := by
  unfold start at h ⊢
  split
  · rfl
  · rename_i name m hread
    simp only [hread] at h
    split
    · rfl
    · rename_i x hx
      simp only [hx] at h
      cases h

end Session

namespace Execution

variable {x : Execution} {v : Env} {f : Firing}

/-- An offered firing is entered. -/
theorem Stage.enters_firing (h : x.Stage v) (hf : .firing f ∈ x.available) : (x.enter (.ident f.id)).2 = .ok () := by
  obtain ⟨e, ts, hch⟩ := h.chosen_of_firing hf
  obtain ⟨steps, hoffer, -⟩ := chosen_enter hch hf
  have hget : x.get (.ident f.id) = .ok (.firing f) := get_of_mem hch.offered.ids hf
  rw [enter_of_get hget, hoffer]

/-- What is not entered was not offered, and nothing is changed by it. -/
theorem Stage.enter_refused {id : Value} {e : Fault} (h : x.Stage v) (he : (x.enter id).2 = .error e) :
    (x.enter id).1 = x := by
  cases ht : x.taken? (.enter id) with
  | none =>
    obtain ⟨e', hx⟩ := enter_of_not_taken ht
    rw [hx]
  | some i =>
    cases takes_of_taken? ht with
    | enter hget =>
      rw [h.enters_firing (get_eq_ok hget).1] at he
      cases he

end Execution

namespace Session

variable {s : Session} {file : Value}

theorem Sound.enter_refused (hs : s.Sound) {step : Value} {f : Fault}
    (h : (s.handle (.enter file step)).2.result = .error f) : (s.handle (.enter file step)).1.Alike s := by
  cases hread : s.executions.read file with
  | error e =>
    have : (s.handle (.enter file step)).1 = s := by simp only [handle, change, hread]
    rw [this]
    exact Alike.refl s
  | ok p =>
    obtain ⟨name, x⟩ := p
    have hx := (Table.read_eq_ok.mp hread).2
    simp only [handle, change_eq hread] at h ⊢
    obtain ⟨v, hst⟩ := hs.stage hx
    cases he : (x.enter step).2 with
    | ok u =>
      rw [he] at h
      cases h
    | error e =>
      rw [hst.enter_refused he]
      exact alike_keep hx

/-- A composite step that is offered for a file is entered. -/
theorem Sound.enters_offered (hs : s.Sound) {name : String} {step : Step} (h : s.Offers name step)
    (hc : step.isComposite = true) : (s.handle (.enter (.str name) (.ident step.id))).2.result = .ok .done := by
  obtain ⟨x, hx, hstep⟩ := h
  obtain ⟨v, hst⟩ := hs.stage hx
  cases step with
  | atomic a => cases hc
  | firing f =>
    have hen : (x.enter (.ident (Step.firing f).id)).2 = .ok () := hst.enters_firing hstep
    simp only [handle, change_eq (read_str hx), hen]
    rfl

/-- After any history, a request that only looks changes nothing, and a snapshot nothing but a number of identifiers,
    whether they are answered or refused. To start an execution and to enter a step change nothing when they are
    refused, and to enter a composite step that is offered is not refused. -/
theorem looking_and_refusal_leave_no_trace (ts : List Turn) :
    let s := empty.afterAll ts
    (∀ r : Request, r.Looks → (s.handle r).1 = s) ∧
    (∀ file, (s.handle (.state file)).1.Resembles s) ∧
    (∀ file entries f, (s.handle (.start file entries)).2.result = .error f →
      (s.handle (.start file entries)).1 = s) ∧
    (∀ file step f, (s.handle (.enter file step)).2.result = .error f → (s.handle (.enter file step)).1.Alike s) ∧
    ∀ name step, s.Offers name step → step.isComposite = true →
      (s.handle (.enter (.str name) (.ident step.id))).2.result = .ok .done := by
  intro s
  have hs : s.Sound := afterAll_sound ts
  refine ⟨fun r hr => handle_of_looks hr, s.state_resembles, ?_, ?_, ?_⟩
  · intro file entries f hf
    exact start_refused hf
  · intro file step f hf
    exact hs.enter_refused hf
  · intro name step hoff hc
    exact hs.enters_offered hoff hc

end Session

/-- The composite steps that a session offers for the lamp. -/
def Lamp.composites (s : Session) : Option (List Id) :=
  (s.executions.get? "lamp").map fun x => (x.available.filter Step.isComposite).map Step.id

theorem Lamp.offers_of_composites {s : Session} {ids : List Id} {id : Id} (h : composites s = some ids)
    (hid : id ∈ ids) : ∃ step, s.Offers "lamp" step ∧ step.isComposite = true ∧ step.id = id := by
  obtain ⟨x, hx, rfl⟩ := Option.map_eq_some_iff.mp h
  obtain ⟨step, hstep, rfl⟩ := List.mem_map.mp hid
  obtain ⟨hmem, hc⟩ := List.mem_filter.mp hstep
  exact ⟨step, ⟨x, hx, hmem⟩, hc, rfl⟩

/-- To enter the press that was offered first. -/
def Lamp.late : Request := .enter (.str "lamp") (.ident (.step 1 0))

/-- The lamp was pressed, so a firing is offered. It can be entered; the press, which was offered before, cannot, and
    neither that nor a look at where it stands changes anything. -/
theorem Session.pressed_lamp_leaves_no_trace :
    let s := empty.afterAll (Lamp.begun ++ [.request Lamp.press])
    (s.handle (.enter (.str "lamp") (.ident (.step 1 1)))).2.result = .ok .done ∧
      (∃ f, (s.handle Lamp.late).2.result = .error f) ∧ (s.handle Lamp.late).1.Alike s ∧
      (s.handle (.location (.str "lamp") (.ident (.step 1 0)))).1 = s := by
  have hrun : let s := empty.afterAll (Lamp.begun ++ [.request Lamp.press])
      Lamp.composites s = some [.step 1 1] ∧ (s.handle Lamp.late).2.result.isOk = false := by decide +kernel
  have hall := looking_and_refusal_leave_no_trace (Lamp.begun ++ [.request Lamp.press])
  generalize empty.afterAll (Lamp.begun ++ [.request Lamp.press]) = s at hrun hall ⊢
  obtain ⟨hlook, -, -, hrefused, hoffered⟩ := hall
  obtain ⟨step, hoff, hc, hid⟩ := Lamp.offers_of_composites hrun.1 List.mem_cons_self
  obtain ⟨f, hf⟩ := eq_error_of_isOk hrun.2
  refine ⟨?_, ⟨f, hf⟩, hrefused _ _ f hf, hlook _ (.location _ _)⟩
  rw [← hid]
  exact hoffered "lamp" step hoff hc

end Statechart
