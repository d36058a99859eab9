/-
  Statechart.Proofs.Recall — what a node remembers is what stands among its children, where
  nothing was complained of.

  Besides its children a node has the tokens that its rule remembers and the last token
  that was passed. In a text that was repaired these need not stand below the node, nor
  be of the kinds the rule asks for.
  - `Item.recalls`: the items of an initial section and of a transition remember every
    token of the kinds of a slot, and no other.
  - `Parser.Recalls` states of all that was read so far that each slot holds the last
    token of its kinds, and that some token was passed if one but the end of the text is
    in the tree. A move keeps it as long as there is no complaint (`Moves.recalls`).

  Proved (`outcome_recalls`): so it is with every node of a tree that was read without
  complaint.
-/

import Statechart.Proofs.Acceptance
import Statechart.Proofs.Trigger

namespace Statechart

/-! ## Slots -/

/-- The kinds of token that are remembered in a slot. -/
def Slot.kinds : Slot → List Kind
  | .none => []
  | .target => [.final, .name]
  | .trigger => [.text]

/-- What is remembered in a slot. -/
def Slot.pick (target trigger : Option Token) : Slot → Option Token
  | .none => Option.none
  | .target => target
  | .trigger => trigger

/-- The rules that remember tokens. -/
def Rule.slotted : Rule → Bool
  | .initial | .transition => true
  | _ => false

namespace Tree

/-- The tokens of some kinds among some children. -/
def tokensAmong (ks : List Kind) (cs : List Tree) : List Token :=
  (cs.filterMap token?).filter fun t => ks.contains t.kind

variable {ks : List Kind} {cs : List Tree}

theorem tokensAmong_leaf (t : Token) :
    tokensAmong ks (cs ++ [.leaf t]) = if t.kind ∈ ks then tokensAmong ks cs ++ [t] else tokensAmong ks cs := by
  rw [tokensAmong, List.filterMap_append, List.filter_append, ← tokensAmong]
  by_cases hk : t.kind ∈ ks <;> simp [token?, hk]

theorem tokensAmong_node (n : Node) (ts : List Tree) : tokensAmong ks (cs ++ [.node n ts]) = tokensAmong ks cs := by
  rw [tokensAmong, List.filterMap_append, List.filter_append, ← tokensAmong]
  simp [token?]

theorem tokensAmong_none : tokensAmong Slot.none.kinds cs = [] := by simp [tokensAmong, Slot.kinds]

end Tree

mutual

/-- Each token is remembered in the slot of its kind, if there is one, and operators are not asked for. -/
def Item.recalls : Item → Bool
  | .token _ ks slot => ks.all fun k => [Slot.target, .trigger].all fun s => s.kinds.contains k == (s == slot)
  | .operators _ => false
  | .option _ b => recallsAll b
  | .many _ _ b => recallsAll b
  | .some _ _ b => recallsAll b
  | .again _ b => recallsAll b
  | .choice _ l r => recallsAll l && recallsAll r
  | _ => true

def recallsAll : List Item → Bool
  | [] => true
  | i :: is => i.recalls && recallsAll is

end

@[simp] theorem recallsAll_cons (i : Item) (is : List Item) : recallsAll (i :: is) = (i.recalls && recallsAll is) := by
  rw [recallsAll]

@[simp] theorem recallsAll_append (is js : List Item) : recallsAll (is ++ js) = (recallsAll is && recallsAll js) := by
  induction is with
  | nil => simp [recallsAll]
  | cons i is ih => simp [ih, Bool.and_assoc]

theorem Rule.recalls_body (r : Rule) : r.slotted = true → recallsAll r.body = true := by cases r <;> decide

theorem Item.recalls_token {place : Nat} {ks : List Kind} {slot s : Slot} {k : Kind}
    (h : (Item.token place ks slot).recalls = true) (hk : k ∈ ks) (hs : s ≠ .none) : k ∈ s.kinds ↔ s = slot := by
  have hall := List.all_eq_true.mp h k hk
  have hslot : (s.kinds.contains k == (s == slot)) = true := by
    refine List.all_eq_true.mp hall s ?_
    cases s with
    | none => exact absurd rfl hs
    | target => simp
    | trigger => simp
  rw [← List.contains_iff_mem, beq_iff_eq.mp hslot, beq_iff_eq]

/-- What an item is replaced by remembers as it does, and so does what comes behind it. -/
theorem Parser.Opens.recalls {k : Kind} {i : Item} {rest items : List Item} (h : recallsAll (i :: rest) = true)
    (ho : Opens k rest i items) : recallsAll items = true := by
  rw [recallsAll_cons, Bool.and_eq_true] at h
  obtain ⟨hi, hrest⟩ := h
  cases ho with
  | absent _ => exact hrest
  | none _ => exact hrest
  | enough _ => exact hrest
  | operand _ => exact hrest
  | present _ => simpa [Item.recalls, hrest] using hi
  | left _ =>
    rw [Item.recalls, Bool.and_eq_true] at hi
    simp [hi.1, hrest]
  | right _ _ =>
    rw [Item.recalls, Bool.and_eq_true] at hi
    simp [hi.2, hrest]
  | many _ => simpa [Item.recalls, hrest] using hi
  | some => simpa [Item.recalls, hrest] using hi
  | again _ => simpa [Item.recalls, hrest] using hi

/-! ## Nodes -/

/-- A rule that remembers tokens has in each slot the last token of its kinds among these children. -/
def Recollects (r : Rule) (target trigger : Option Token) (cs : List Tree) : Prop :=
  r.slotted = true → ∀ s : Slot, s.pick target trigger = (Tree.tokensAmong s.kinds cs).getLast?

structure Node.Recalls (n : Node) (cs : List Tree) : Prop where
  slots : Recollects n.rule n.target n.trigger cs
  stop : n.stop = none → ∀ t ∈ Tree.tokensOf cs, t.kind = .endOfText

/-- All nodes of a tree remember what stands among their children. -/
def Tree.Recalls (t : Tree) : Prop := ∀ x ∈ t.nodes, x.1.Recalls x.2

theorem Tree.recalls_leaf (t : Token) : (Tree.leaf t).Recalls := fun _ hx => nomatch hx

theorem Tree.recalls_node {n : Node} {cs : List Tree} (hn : n.Recalls cs) (hcs : ∀ c ∈ cs, c.Recalls) :
    (Tree.node n cs).Recalls := forall_nodes.mpr ⟨hn, hcs⟩

/-! ## Moves -/

structure Frame.Recalls (f : Frame) : Prop where
  slots : Recollects f.rule f.target f.trigger f.children
  children : ∀ c ∈ f.children, c.Recalls
  todo : f.rule.slotted = true → recallsAll f.todo = true

theorem Frame.Recalls.items {f : Frame} (h : f.Recalls) {items : List Item}
    (hi : f.rule.slotted = true → recallsAll items = true) : Frame.Recalls { f with todo := items } :=
  ⟨h.slots, h.children, hi⟩

/-- A node that is added to a rule is no token of it. -/
theorem Frame.Recalls.add {f : Frame} (h : f.Recalls) {n : Node} {ts : List Tree} (ht : (Tree.node n ts).Recalls) :
    Frame.Recalls { f with children := f.children ++ [.node n ts] } := by
  refine ⟨fun hr s => ?_, fun c hc => ?_, h.todo⟩
  · rw [Tree.tokensAmong_node]
    exact h.slots hr s
  · rcases List.mem_append.mp hc with hc | hc
    · exact h.children c hc
    · rw [List.mem_singleton.mp hc]
      exact ht

/-- A rule that is begun has read nothing. -/
theorem Frame.recalls_fresh (r : Rule) (start : Token) {items : List Item}
    (hi : r.slotted = true → recallsAll items = true) : Frame.Recalls ⟨r, start, none, none, [], items⟩ := by
  refine ⟨fun _ s => ?_, fun c hc => (by cases hc), hi⟩
  cases s <;> rfl

namespace Parser

variable {p q : Parser}

structure Recalls (p : Parser) : Prop where
  frame : p.frame.Recalls
  callers : ∀ f ∈ p.callers, f.Recalls
  behind : p.behind = none → ∀ t ∈ passed (p.frame :: p.callers), t.kind = .endOfText
  ending : p.ending.kind = .endOfText

theorem Recalls.close (h : p.Recalls) : p.close.Recalls :=
  Tree.recalls_node ⟨h.frame.slots, fun hs t ht => h.behind hs t (List.mem_append_right _ ht)⟩ h.frame.children

theorem Recalls.items (h : p.Recalls) {i : Item} {rest : List Item} (ht : p.frame.todo = i :: rest)
    (hr : p.frame.rule.slotted = true) : i.recalls = true ∧ recallsAll rest = true := by
  have htodo := h.frame.todo hr
  rwa [ht, recallsAll_cons, Bool.and_eq_true] at htodo

theorem pick_take (p : Parser) (slot s : Slot) (rest : List Item) (hs : s ≠ .none) :
    s.pick (p.take slot rest).frame.target (p.take slot rest).frame.trigger =
      if s = slot then some p.view else s.pick p.frame.target p.frame.trigger := by
  unfold take consume advance
  split <;> cases slot <;> cases s <;> first | rfl | exact absurd rfl hs

theorem behind_take (p : Parser) (slot : Slot) (rest : List Item) (h : (p.take slot rest).behind = none) :
    p.ahead = [] ∧ p.behind = none := by
  unfold take consume advance at h
  split at h
  · rename_i ha
    exact ⟨ha, by cases slot <;> exact h⟩
  · cases slot <;> cases h

theorem Recalls.take {place : Nat} {ks : List Kind} {slot : Slot} {rest : List Item} (h : p.Recalls)
    (ht : p.frame.todo = .token place ks slot :: rest) (hk : p.view.kind ∈ ks) : (p.take slot rest).Recalls := by
  obtain ⟨hrule, htodo, hchildren, hcallers, -⟩ := p.frame_take slot rest
  obtain ⟨-, -, -, hending⟩ := p.take_keeps slot rest
  refine ⟨⟨?_, ?_, ?_⟩, hcallers ▸ h.callers, ?_, hending ▸ h.ending⟩
  · rw [Recollects, hrule, hchildren]
    intro hr s
    by_cases hs : s = .none
    · rw [hs, Tree.tokensAmong_none]
      rfl
    · have hslot := Item.recalls_token (h.items ht hr).1 hk hs
      rw [pick_take p slot s rest hs, Tree.tokensAmong_leaf]
      by_cases he : s = slot
      · rw [if_pos he, if_pos (hslot.mpr he), List.getLast?_concat]
      · rw [if_neg he, if_neg fun hm => he (hslot.mp hm)]
        exact h.frame.slots hr s
  · rw [hchildren]
    intro c hc
    rcases List.mem_append.mp hc with hc | hc
    · exact h.frame.children c hc
    · rw [List.mem_singleton.mp hc]
      exact Tree.recalls_leaf _
  · rw [hrule, htodo]
    exact fun hr => (h.items ht hr).2
  · -- where nothing was passed even now, the end of the text is in view
    intro hb
    obtain ⟨hahead, hbehind⟩ := p.behind_take slot rest hb
    have hview : p.view.kind = .endOfText := by rw [view, hahead, List.headD_nil, h.ending]
    rw [passed, hchildren, hcallers, Tree.tokensOf_concat, ← List.append_assoc, ← passed.eq_2]
    intro t ht
    rcases List.mem_append.mp ht with ht | ht
    · exact h.behind hbehind t ht
    · rw [List.mem_singleton.mp ht]
      exact hview

theorem Recalls.enter {i : Item} {r : Rule} {body rest : List Item} (h : p.Recalls) (ht : p.frame.todo = i :: rest)
    (hc : Calls i r body) : (p.enter r body rest).Recalls := by
  have hbody : r.slotted = true → recallsAll body = true := by
    cases hc with
    | rule r => exact r.recalls_body
    | expression level => exact fun hr => by cases hr
  refine ⟨Frame.recalls_fresh r p.view hbody, fun f hf => ?_, fun hb t ht => ?_, h.ending⟩
  · rcases List.mem_cons.mp hf with rfl | hf
    · exact h.frame.items fun hr => (h.items ht hr).2
    · exact h.callers f hf
  · rcases List.mem_append.mp ht with ht | ht
    · exact h.behind hb t ht
    · cases ht

theorem Recalls.leave {c : Frame} {cs : List Frame} (h : p.Recalls) (hcs : p.callers = c :: cs) :
    (add { p with frame := c, callers := cs } p.close).Recalls := by
  have hcallers := h.callers
  have hbehind := h.behind
  rw [hcs] at hcallers hbehind
  refine ⟨(hcallers c List.mem_cons_self).add h.close, fun f hf => hcallers f (List.mem_cons_of_mem _ hf),
    fun hb t ht => hbehind hb t ?_, h.ending⟩
  have ht : t ∈ passed cs ++ Tree.tokensOf (c.children ++ [p.close]) := ht
  rw [Tree.tokensOf_concat, ← List.append_assoc] at ht
  exact ht

theorem Recalls.wrap {level : Nat} {items rest : List Item} (h : p.Recalls)
    (ht : p.frame.todo = .operators level :: rest) : (p.wrap items).Recalls := by
  have hslot : p.frame.rule.slotted ≠ true := fun hr => by
    have hfalse := (h.items ht hr).1
    simp [Item.recalls] at hfalse
  refine ⟨⟨fun hr => absurd hr hslot, fun c hc => ?_, fun hr => absurd hr hslot⟩, h.callers, fun hb t ht => ?_,
    h.ending⟩
  · rw [List.mem_singleton.mp hc]
    exact h.close
  · have ht : t ∈ passed p.callers ++ (Tree.tokensOf p.frame.children ++ []) := ht
    rw [List.append_nil] at ht
    exact h.behind hb t ht

/-- A move that complains of nothing keeps what is remembered in step with what was read. -/
theorem Moves.recalls (hm : Moves p q) (h : p.Recalls) (hp : p.Candid) (hq : q.complaints = []) : q.Recalls := by
  cases hm with
  | leave _ hc => exact h.leave hc
  | read ht hk => exact h.take ht hk
  | mend _ _ hm => exact absurd hq (hm.complains hp)
  | enter ht hc => exact h.enter ht hc
  | opens ht hs ho =>
    rcases hs with rfl | ⟨-, hm⟩
    · refine ⟨h.frame.items fun hr => ho.recalls ?_, h.callers, h.behind, h.ending⟩
      rw [← ht]
      exact h.frame.todo hr
    · exact absurd hq (hm.complains hp)
  | giveUp _ _ hm => exact absurd hq (hm.complains hp)
  | wrap ht _ _ => exact h.wrap ht

theorem start_recalls (r : Rule) {l : Lexed} (hl : l.ending.kind = .endOfText) : (start r l).Recalls :=
  ⟨Frame.recalls_fresh r _ r.recalls_body, fun f hf => (by cases hf), fun _ t ht => (by cases ht), hl⟩

/-- Where a rule is read without complaint, every node remembers what stands among its children. -/
theorem outcome_recalls {r : Rule} {l : Lexed} (hl : l.ending.kind = .endOfText) (hc : (outcome r l).complaints = []) :
    (outcome r l).close.Recalls := by
  have hrun : (outcome r l).Recalls :=
    (start_fair r l).run_quiet (fun p q hm hp hcandid hq => hm.recalls hp hcandid hq) (start_recalls r hl) _ hc
  exact hrun.close

end Parser

end Statechart
