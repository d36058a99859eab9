/-
  Statechart.Proofs.Snapshot — an execution runs the machine registered for its file, and a
  snapshot of it shows where it is.

  Reading a file replaces its machine and forgets its execution at once, so the execution
  of a file was started from the machine that is registered for it. Where it is, it has come
  to by that machine's transitions: it rests in a simple state or a final pseudo-state
  (`bigSteps_rest`), and an event or a transition that is under way belongs to a transition
  of one of the machine's states.

  A snapshot leaves out what is not there. An event with the empty name would be left out
  as well, but no transition is triggered by one (`ofTree_trigger`).

  Proved (`snapshots_show_where_it_is`), after any history.
-/

import Statechart.Proofs.Nesting
import Statechart.Proofs.Once
import Statechart.Proofs.Trigger

namespace Statechart

/-! ## What an element shows -/

namespace Element

/-- The attribute of that name, as it is shown. -/
def attribute? (e : Element) (key : String) : Option Value := (e.toValue.get? "attributes").bind (Value.get? key)

/-- What the element refers to under that name, as it is shown. -/
def ref? (e : Element) (key : String) : Option Value := (e.toValue.get? "refs").bind (Value.get? key)

theorem attribute?_mk (h : Header) (cs : List (String × Child)) (key : String) :
    (Element.mk h cs).attribute? key = (Value.record h.attributes).get? key := by
  simp [attribute?, toValue, record, Value.get?]

theorem ref?_mk (h : Header) (cs : List (String × Child)) (key : String) :
    (Element.mk h cs).ref? key = (Value.record (h.refs.map fun r => (r.1, r.2.toValue))).get? key := by
  simp [ref?, toValue, record, Value.get?]

end Element

namespace Execution

variable {x : Execution} {v : Env} {e : String}

/-! ## What is under way -/

theorem Stage.reacts (h : x.Stage v) (he : x.event = some e) : ∃ ts, x.Reacts v e ts := by
  cases h with
  | idle hi => cases hi.event.symm.trans he
  | stuck hi => cases hi.event.symm.trans he
  | chosen h =>
    obtain rfl := Option.some.inj (h.event.symm.trans he)
    exact ⟨_, h.toReacts⟩
  | entered h =>
    obtain rfl := Option.some.inj (h.event.symm.trans he)
    exact ⟨_, h.toReacts⟩
  | fires h =>
    obtain rfl := Option.some.inj (h.event.symm.trans he)
    exact ⟨_, h.toReacts⟩

/-- A transition that is enabled is one of a state of the machine. -/
theorem Reacts.listed {ts : List Transition} {t : Transition} (h : x.Reacts v e ts) (ht : t ∈ ts) :
    ∃ d ∈ x.machine.declared, t ∈ d.state.outgoing := by
  have hc := ((mem_enabledAmong h.enabled).mp ht).1
  unfold candidates at hc
  split at hc
  · obtain ⟨n, -, hn⟩ := List.mem_flatMap.mp hc
    obtain ⟨d, hd, -, hout⟩ := Machine.WellFormed.mem_outgoing hn
    exact ⟨d, hd, hout⟩
  · cases hc

theorem Stage.listed {t : Transition} (h : x.Stage v) (ht : x.transition = some t) :
    ∃ d ∈ x.machine.declared, t ∈ d.state.outgoing := by
  cases h with
  | idle hi => cases hi.transition.symm.trans ht
  | stuck hi => cases hi.transition.symm.trans ht
  | chosen h => cases h.transition.symm.trans ht
  | entered h => cases h.transition.symm.trans ht
  | fires h =>
    obtain rfl := Option.some.inj (h.transition.symm.trans ht)
    exact h.toReacts.listed h.mem

theorem Stage.event_ne (h : x.Stage v) (hm : ∀ d ∈ x.machine.declared, d.Named) (he : x.event = some e) : e ≠ "" := by
  obtain ⟨ts, hr⟩ := h.reacts he
  obtain ⟨t, ht, rfl⟩ := hr.answered
  obtain ⟨d, hd, hout⟩ := hr.listed ht
  exact hm d hd t hout

/-! ## What a snapshot shows -/

theorem snapshot_event (h : ∀ e, x.event = some e → e ≠ "") :
    x.snapshot.attribute? "currentEvent" = x.event.map .str := by
  have hshown : x.event.filter (· != "") = x.event := by
    cases he : x.event with
    | none => rfl
    | some e => simp [Option.filter, h e he]
  rw [snapshot, Element.attribute?_mk, hshown]
  cases x.event <;> cases x.current.isFinal <;> simp [Value.get?, Value.field?]

theorem snapshot_transition (x : Execution) :
    x.snapshot.ref? "currentTransition" = x.transition.map fun t => .ident t.id := by
  rw [snapshot, Element.ref?_mk]
  cases x.transition <;> cases x.current.isFinal <;> simp [Value.get?, Ref.toValue, Ident.toValue]

theorem snapshot_final (hf : x.current.isFinal = true) :
    x.snapshot.attribute? "currentState" = some (.str "FINAL") ∧ x.snapshot.ref? "currentState" = none := by
  rw [snapshot, Element.attribute?_mk, Element.ref?_mk]
  cases x.transition <;> simp [Value.get?, hf]

theorem snapshot_state {n : String} (hc : x.current = .state n) :
    x.snapshot.attribute? "currentState" = none ∧
      x.snapshot.ref? "currentState" = some (.ident (.state x.machine.load n)) := by
  rw [snapshot, Element.attribute?_mk, Element.ref?_mk]
  cases x.event.filter (· != "") <;> cases x.transition <;>
    simp [Value.get?, Value.field?, Ref.toValue, Ident.toValue, Target.id, Target.isFinal, hc]

end Execution

namespace Session

variable {s : Session} {name : String} {x : Execution}

theorem Sound.machine_eq (hs : s.Sound) (hx : s.executions.get? name = some x) :
    s.machines.get? name = some x.machine := by
  obtain ⟨-, m, hm, x₀, cs, hstart, rfl⟩ := hs.execution hx
  obtain ⟨-, text, hbuilt⟩ := hs.machine hm
  obtain ⟨_, -, hall⟩ := Execution.afterAll_stage (ofTree_wellFormed hbuilt) hstart
  rw [(hall cs).1]
  exact hm

theorem Sound.built (hs : s.Sound) (hx : s.executions.get? name = some x) : Built x.machine :=
  (hs.machine (hs.machine_eq hx)).2

/-- An execution rests in a simple state or in a final pseudo-state. -/
theorem Sound.rests (hs : s.Sound) (hx : s.executions.get? name = some x) : x.machine.Rests x.current := by
  obtain ⟨-, m, hm, x₀, cs, hstart, rfl⟩ := hs.execution hx
  obtain ⟨-, text, hbuilt⟩ := hs.machine hm
  have hwf := ofTree_wellFormed hbuilt
  obtain ⟨n, hn, hall⟩ := Execution.afterAll_stage hwf hstart
  obtain ⟨hmach, v, -, hsteps⟩ := hall cs
  obtain ⟨i, ns, -, hns⟩ := start_settles hwf hn
  rw [hmach]
  exact bigSteps_rest hns.rests hsteps.bigSteps

/-- After any history the execution of a file is one of the machine registered for it, in a simple state of the machine
    or in a final pseudo-state, and a transition that is active is one of a state of the machine. The answer to a
    request for its state shows that state or that it is final, the transition if one is active, and the event if one
    is active. -/
theorem snapshots_show_where_it_is (ts : List Turn) (hx : (empty.afterAll ts).executions.get? name = some x) :
    let s := empty.afterAll ts
    s.machines.get? name = some x.machine ∧
    (∀ t, x.transition = some t → ∃ d ∈ x.machine.declared, t ∈ d.state.outgoing) ∧
    ∃ e, (s.handle (.state (.str name))).2 = ⟨[], .ok (.snapshot e)⟩ ∧
      (x.current.isFinal = true ∧
          e.attribute? "currentState" = some (.str "FINAL") ∧ e.ref? "currentState" = none ∨
        ∃ st, .simple st ∈ x.machine.declared ∧ x.current = .state st.name ∧
          e.attribute? "currentState" = none ∧ e.ref? "currentState" = some (.ident st.id)) ∧
      e.ref? "currentTransition" = x.transition.map (fun t => .ident t.id) ∧
      e.attribute? "currentEvent" = x.event.map .str := by
  intro s
  have hs : s.Sound := afterAll_sound ts
  obtain ⟨text, hbuilt⟩ := hs.built hx
  obtain ⟨v, hst⟩ := hs.stage hx
  have hevent := x.snapshot_event fun e he => hst.event_ne (ofTree_trigger hbuilt) he
  refine ⟨hs.machine_eq hx, fun t ht => hst.listed ht, x.snapshot, ?_, ?_, x.snapshot_transition, hevent⟩
  · rw [handle, change_eq (read_str hx)]
  · have hrest := hs.rests hx
    cases hc : x.current with
    | final i ancestors => exact Or.inl ⟨rfl, x.snapshot_final (by rw [hc]; rfl)⟩
    | state n =>
      rw [hc] at hrest
      obtain ⟨st, hfound⟩ := hrest
      have hmem := List.mem_of_find?_eq_some hfound
      obtain rfl : st.name = n := by simpa [Declared.state] using List.find?_some hfound
      refine Or.inr ⟨st, hmem, rfl, ?_⟩
      have hid : st.id = .state x.machine.load st.name := ofTree_id hbuilt hmem
      rw [hid]
      exact x.snapshot_state hc

end Session

/-- The lamp is pressed, the firing is entered, and its transition is active. -/
def Lamp.pressing : List Turn :=
  begun ++ [.request press, .request (.enter (.str "lamp") (.ident (.step 1 1))),
    .request (.execute (.str "lamp") (.ident (.step 1 2)))]

/-- What is under way in an execution: the state it is in, the transition and the event. -/
def Lamp.underWay (x : Execution) : Target × Option Id × Option String := (x.current, x.transition.map (·.id), x.event)

/-- While the lamp is being pressed, a snapshot shows that it is off, what is fired and why. -/
theorem Session.pressed_lamp_shows_where_it_is :
    let s := empty.afterAll Lamp.pressing
    ∃ (x : Execution) (e : Element), s.machines.get? "lamp" = some x.machine ∧
      (s.handle (.state (.str "lamp"))).2 = ⟨[], .ok (.snapshot e)⟩ ∧
      (∃ st, .simple st ∈ x.machine.declared ∧ st.name = "Off" ∧ e.ref? "currentState" = some (.ident st.id)) ∧
      e.ref? "currentTransition" = some (.ident (.transition 0 "Off" 0)) ∧
      e.attribute? "currentEvent" = some (.str "press") := by
  have hrun : ((empty.afterAll Lamp.pressing).executions.get? "lamp").map Lamp.underWay =
      some (.state "Off", some (.transition 0 "Off" 0), some "press") := by decide +kernel
  obtain ⟨x, hx, hway⟩ := Option.map_eq_some_iff.mp hrun
  obtain ⟨hstate, htransition, hevent⟩ : x.current = .state "Off" ∧
      x.transition.map (·.id) = some (.transition 0 "Off" 0) ∧ x.event = some "press" := by
    simpa [Lamp.underWay] using hway
  obtain ⟨hmachine, -, e, hreply, hcurrent, htr, hev⟩ := snapshots_show_where_it_is Lamp.pressing hx
  refine ⟨x, e, hmachine, hreply, ?_, ?_, by rw [hev, hevent]; rfl⟩
  · rcases hcurrent with ⟨hfinal, -⟩ | ⟨st, hst, hname, -, href⟩
    · rw [hstate] at hfinal
      cases hfinal
    · rw [hstate] at hname
      injection hname with hname
      exact ⟨st, hst, hname.symm, href⟩
  · obtain ⟨t, ht, hid⟩ := Option.map_eq_some_iff.mp htransition
    rw [htr, ht, ← hid]
    rfl

end Statechart
