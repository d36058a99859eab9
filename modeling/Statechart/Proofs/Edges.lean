/-
  Statechart.Proofs.Edges — a node begins with its first token and ends with its last.

  A node notes the token in view when its rule was entered and the last token passed
  when it was left. In a text that was repaired these may stand outside the node.
  - `Begun`: each rule begun starts with the first token below it, or, as long as there
    is none, with the one that the rule inside it starts with, and the innermost one with
    the token in view.
  - `Parser.Edged`: besides, the last token passed is the last one below the rules begun,
    unless that is the end of the text. A move keeps both as long as there is no
    complaint (`Moves.edged`).

  Proved (`outcome_edged`): so it is with every node of a tree that was read without
  complaint.
-/

import Statechart.Proofs.Recall

namespace Statechart

/-- A node begins with the first token below it, and ends with the last unless that is the end of the text. -/
structure Node.Edged (n : Node) (cs : List Tree) : Prop where
  start : (Tree.tokensOf cs).headD n.start = n.start
  stop : ∀ t, (Tree.tokensOf cs).getLast? = some t → t.kind ≠ .endOfText → n.stop = some t

/-- All nodes of a tree begin and end so. -/
def Tree.Edged (t : Tree) : Prop := ∀ x ∈ t.nodes, x.1.Edged x.2

theorem headD_append {α : Type} (us vs : List α) (a : α) : (us ++ vs).headD a = us.headD (vs.headD a) := by
  cases us <;> rfl

/-- Each rule begun starts with the first token below it; where there is none with the one that comes next. -/
def Begun (next : Token) : List Frame → Prop
  | [] => True
  | f :: fs => (Tree.tokensOf f.children).headD next = f.start ∧ Begun f.start fs

namespace Parser

variable {p q : Parser}

structure Edged (p : Parser) : Prop where
  begun : Begun p.view (p.frame :: p.callers)
  children : ∀ c ∈ p.frame.children, c.Edged
  callers : ∀ f ∈ p.callers, ∀ c ∈ f.children, c.Edged
  behind : ∀ t, (passed (p.frame :: p.callers)).getLast? = some t → t.kind ≠ .endOfText → p.behind = some t
  ending : p.ending.kind = .endOfText

theorem Edged.close (h : p.Edged) : p.close.Edged := by
  refine Tree.forall_nodes.mpr ⟨⟨?_, ?_⟩, h.children⟩
  · have hstart := h.begun.1
    show (Tree.tokensOf p.frame.children).headD p.frame.start = p.frame.start
    cases hts : Tree.tokensOf p.frame.children with
    | nil => rfl
    | cons t ts =>
      rw [hts] at hstart
      exact hstart
  · intro t ht hkind
    refine h.behind t ?_ hkind
    rw [passed, List.getLast?_append, ht]
    rfl

theorem behind_take_cons (p : Parser) (slot : Slot) (rest : List Item) {t : Token} {ts : List Token}
    (ha : p.ahead = t :: ts) : (p.take slot rest).behind = some t := by
  unfold take consume advance
  have hahead :
      (p.settle.add (if p.settle.recovering then .fault p.settle.view else .leaf p.settle.view)).ahead = t :: ts :=
    ha
  rw [hahead]
  cases slot <;> rfl

theorem start_take (p : Parser) (slot : Slot) (rest : List Item) : (p.take slot rest).frame.start = p.frame.start := by
  unfold take consume advance
  split <;> cases slot <;> rfl

theorem Edged.take {rest : List Item} (h : p.Edged) (slot : Slot) : (p.take slot rest).Edged := by
  obtain ⟨-, -, hchildren, hcallers, -⟩ := p.frame_take slot rest
  obtain ⟨-, -, -, hending⟩ := p.take_keeps slot rest
  refine ⟨⟨?_, ?_⟩, ?_, hcallers ▸ h.callers, ?_, hending ▸ h.ending⟩
  · -- what is in view next does not matter any more
    rw [hchildren, Tree.tokensOf_concat, headD_append, start_take]
    exact h.begun.1
  · rw [start_take, hcallers]
    exact h.begun.2
  · rw [hchildren]
    intro c hc
    rcases List.mem_append.mp hc with hc | hc
    · exact h.children c hc
    · rw [List.mem_singleton.mp hc]
      exact fun x hx => (by cases hx)
  · intro t ht hkind
    rw [passed, hchildren, Tree.tokensOf_concat, ← List.append_assoc, List.getLast?_append] at ht
    obtain rfl : p.view = t := Option.some.inj ht
    cases ha : p.ahead with
    | nil =>
      rw [view, ha, List.headD_nil, h.ending] at hkind
      exact absurd rfl hkind
    | cons t ts =>
      rw [behind_take_cons p slot rest ha, view, ha]
      rfl

theorem Edged.enter {r : Rule} {body rest : List Item} (h : p.Edged) : (p.enter r body rest).Edged := by
  refine ⟨⟨rfl, h.begun⟩, fun c hc => (by cases hc), ?_, ?_, h.ending⟩
  · intro f hf
    rcases List.mem_cons.mp hf with rfl | hf
    · exact h.children
    · exact h.callers f hf
  · intro t ht
    have ht : (passed (p.frame :: p.callers) ++ []).getLast? = some t := ht
    rw [List.append_nil] at ht
    exact h.behind t ht

theorem Edged.leave {c : Frame} {cs : List Frame} (h : p.Edged) (hcs : p.callers = c :: cs) :
    (add { p with frame := c, callers := cs } p.close).Edged := by
  have hclose := h.close
  obtain ⟨⟨hstart, hbegun⟩, -, hcallers, hbehind, hending⟩ := h
  rw [hcs] at hbegun hcallers hbehind
  refine ⟨⟨?_, hbegun.2⟩, ?_, fun f hf => hcallers f (List.mem_cons_of_mem _ hf), ?_, hending⟩
  · show (Tree.tokensOf (c.children ++ [p.close])).headD p.view = c.start
    rw [Tree.tokensOf_concat, headD_append]
    show (Tree.tokensOf c.children).headD ((Tree.tokensOf p.frame.children).headD p.view) = c.start
    rw [hstart]
    exact hbegun.1
  · intro d hd
    rcases List.mem_append.mp hd with hd | hd
    · exact hcallers c List.mem_cons_self d hd
    · rw [List.mem_singleton.mp hd]
      exact hclose
  · intro t ht
    refine hbehind t ?_
    have ht : (passed cs ++ Tree.tokensOf (c.children ++ [p.close])).getLast? = some t := ht
    rw [Tree.tokensOf_concat, ← List.append_assoc] at ht
    exact ht

theorem Edged.wrap {items : List Item} (h : p.Edged) : (p.wrap items).Edged := by
  have hclose := h.close
  have hbegun := h.begun
  refine ⟨⟨?_, hbegun.2⟩, ?_, h.callers, ?_, h.ending⟩
  · show (Tree.tokensOf p.frame.children ++ []).headD p.view = p.frame.start
    rw [List.append_nil]
    exact hbegun.1
  · intro d hd
    rw [List.mem_singleton.mp hd]
    exact hclose
  · intro t ht
    refine h.behind t ?_
    have ht : (passed p.callers ++ (Tree.tokensOf p.frame.children ++ [])).getLast? = some t := ht
    rw [List.append_nil] at ht
    exact ht

/-- A move that complains of nothing keeps the ends of the nodes where their tokens are. -/
theorem Moves.edged (hm : Moves p q) (h : p.Edged) (hp : p.Candid) (hq : q.complaints = []) : q.Edged := by
  cases hm with
  | leave _ hc => exact h.leave hc
  | read _ _ => exact h.take _
  | mend _ _ hm => exact absurd hq (hm.complains hp)
  | enter _ _ => exact h.enter
  | opens _ hs _ =>
    rcases hs with rfl | ⟨-, hm⟩
    · exact ⟨h.begun, h.children, h.callers, h.behind, h.ending⟩
    · exact absurd hq (hm.complains hp)
  | giveUp _ _ hm => exact absurd hq (hm.complains hp)
  | wrap _ _ _ => exact h.wrap

theorem start_edged (r : Rule) {l : Lexed} (hl : l.ending.kind = .endOfText) : (start r l).Edged :=
  ⟨⟨rfl, trivial⟩, fun c hc => (by cases hc), fun f hf => (by cases hf), fun t ht => (by cases ht), hl⟩

/-- Where a rule is read without complaint, every node begins with its first token and ends with its last. -/
theorem outcome_edged {r : Rule} {l : Lexed} (hl : l.ending.kind = .endOfText) (hc : (outcome r l).complaints = []) :
    (outcome r l).close.Edged := by
  have hrun : (outcome r l).Edged :=
    (start_fair r l).run_quiet (fun p q hm hp hcandid hq => hm.edged hp hcandid hq) (start_edged r hl) _ hc
  exact hrun.close

end Parser

end Statechart
