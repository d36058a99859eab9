/-
  Statechart.Proofs.Trigger — every transition has a trigger with a name, however broken the
  text it was read from.

  - A token of the lexer matches the pattern of its kind (`lex_matches`), so between the
    quotation marks of a text token there is a letter.
  - The parser remembers as a trigger only such a token, whether it was in view or came
    into view when the one before it was passed over, or the token it puts in for a
    missing one, which has a text of its own. `Parser.Speaks` states this of all that was
    read so far, and every step keeps it (`Speaks.step`).
  - The trigger of a transition is what its node remembers (`members_named`).

  Proved (`ofTree_trigger`): no machine built from a text has a transition whose trigger is
  the empty name.
-/

import Statechart.Tree.Parser
import Statechart.Proofs.Built
import Statechart.Proofs.LongestMatch
import Mathlib.Data.List.TakeWhile

namespace Statechart

open Text (Pattern)

/-! ## Names between quotation marks -/

/-- Something is left of the token's text without the quotation marks around it. -/
def Token.Speaks (t : Token) : Prop := unquoted t.text ≠ ""

theorem unquoted_ne {s : String} {c : Char} (hc : c ∈ s.toList) (hq : c ≠ '\'') : unquoted s ≠ "" := by
  intro hempty
  have hnil : ((s.toList.dropWhile (· == '\'')).reverse.dropWhile (· == '\'')).reverse = [] := by
    simpa [unquoted] using hempty
  rw [List.reverse_eq_nil_iff, List.dropWhile_eq_nil_iff] at hnil
  rw [← List.takeWhile_append_dropWhile (p := (· == '\'')) (l := s.toList)] at hc
  rcases List.mem_append.mp hc with hc | hc
  · exact hq (by simpa using List.mem_takeWhile_imp hc)
  · exact hq (by simpa using hnil c (List.mem_reverse.mpr hc))

/-- Between its quotation marks a text token has a letter. -/
theorem speaks_of_matches {t : Token} (hk : t.kind = .text) (h : t.kind.pattern.Matches t.text.toList) : t.Speaks := by
  rw [hk] at h
  generalize htext : t.text.toList = cs at h
  obtain ⟨c, hc, hletter⟩ : ∃ c ∈ cs, Pattern.inRanges c [Kind.lower, Kind.upper] = true := by
    cases h with
    | seq _ h =>
      cases h with
      | seq h _ =>
        cases h with
        | seq h _ =>
          cases h with
          | @range c _ hc => exact ⟨c, by simp, hc⟩
  rw [← htext] at hc
  refine unquoted_ne hc ?_
  rintro rfl
  revert hletter
  decide

/-! ## What the parser remembers as a trigger -/

mutual

/-- Only texts are remembered as triggers. -/
def Item.hears : Item → Bool
  | .token _ ks .trigger => ks = [.text]
  | .option _ b => hearsAll b
  | .many _ _ b => hearsAll b
  | .some _ _ b => hearsAll b
  | .again _ b => hearsAll b
  | .choice _ l r => hearsAll l && hearsAll r
  | _ => true

def hearsAll : List Item → Bool
  | [] => true
  | i :: is => i.hears && hearsAll is

end

@[simp] theorem hearsAll_cons (i : Item) (is : List Item) : hearsAll (i :: is) = (i.hears && hearsAll is) := by
  rw [hearsAll]

@[simp] theorem hearsAll_append (is js : List Item) : hearsAll (is ++ js) = (hearsAll is && hearsAll js) := by
  induction is with
  | nil => simp [hearsAll]
  | cons i is ih => simp [ih, Bool.and_assoc]

theorem Rule.hears_body (r : Rule) : hearsAll r.body = true := by cases r <;> decide

theorem hears_operatorBody (level bound : Nat) : hearsAll (operatorBody level bound) = true := by
  simp only [operatorBody, hearsAll, Item.hears, Bool.and_true]
  split
  · rfl
  · split <;> rfl

def Node.Speaks (n : Node) : Prop := ∀ t, n.trigger = some t → t.Speaks

/-- All triggers remembered in a tree say something. -/
def Tree.Speaks (t : Tree) : Prop := ∀ x ∈ t.nodes, x.1.Speaks

theorem mem_nodesOf {x : Node × List Tree} {cs : List Tree} : x ∈ Tree.nodesOf cs ↔ ∃ c ∈ cs, x ∈ c.nodes := by
  induction cs with
  | nil => simp [Tree.nodesOf]
  | cons c cs ih => simp [Tree.nodesOf, ih]

/-- What holds of all nodes of a tree holds of the first and of those below each child. -/
theorem Tree.forall_nodes {P : Node × List Tree → Prop} {n : Node} {cs : List Tree} :
    (∀ x ∈ (Tree.node n cs).nodes, P x) ↔ P (n, cs) ∧ ∀ c ∈ cs, ∀ x ∈ c.nodes, P x := by
  rw [nodes, List.forall_mem_cons]
  refine and_congr_right fun _ => ⟨fun h c hc x hx => h x (mem_nodesOf.mpr ⟨c, hc, hx⟩), fun h x hx => ?_⟩
  obtain ⟨c, hc, hx⟩ := mem_nodesOf.mp hx
  exact h c hc x hx

theorem Tree.Speaks.children {n : Node} {cs : List Tree} (h : (Tree.node n cs).Speaks) : ∀ c ∈ cs, c.Speaks :=
  (forall_nodes.mp h).2

theorem Tree.speaks_node {n : Node} {cs : List Tree} (hn : n.Speaks) (hcs : ∀ c ∈ cs, c.Speaks) :
    (Tree.node n cs).Speaks := forall_nodes.mpr ⟨hn, hcs⟩

structure Frame.Speaks (f : Frame) : Prop where
  trigger : ∀ t, f.trigger = some t → t.Speaks
  children : ∀ c ∈ f.children, c.Speaks
  todo : hearsAll f.todo = true

namespace Parser

variable {p q : Parser}

/-- All triggers remembered so far say something, and so does every text that is ahead. -/
structure Speaks (p : Parser) : Prop where
  frame : p.frame.Speaks
  callers : ∀ f ∈ p.callers, f.Speaks
  ahead : ∀ t ∈ p.ahead, t.kind = .text → t.Speaks
  ending : p.ending.kind = .endOfText

theorem Speaks.view (h : p.Speaks) (hk : p.view.kind = .text) : p.view.Speaks := by
  unfold Parser.view at hk ⊢
  cases ha : p.ahead with
  | nil =>
    rw [ha, List.headD_nil, h.ending] at hk
    cases hk
  | cons t ts =>
    rw [ha] at hk
    exact h.ahead t (ha ▸ List.mem_cons_self) hk

theorem Speaks.items (h : p.Speaks) {i : Item} {rest : List Item} (ht : p.frame.todo = i :: rest) :
    i.hears = true ∧ hearsAll rest = true := by
  have htodo := h.frame.todo
  rwa [ht, hearsAll_cons, Bool.and_eq_true] at htodo

theorem Speaks.goOn (h : p.Speaks) {items : List Item} (hi : hearsAll items = true) : (p.goOn items).Speaks :=
  ⟨⟨h.frame.trigger, h.frame.children, hi⟩, h.callers, h.ahead, h.ending⟩

theorem Speaks.add (h : p.Speaks) {t : Tree} (ht : t.Speaks) : (p.add t).Speaks := by
  refine ⟨⟨h.frame.trigger, ?_, h.frame.todo⟩, h.callers, h.ahead, h.ending⟩
  intro c hc
  rcases List.mem_append.mp hc with hc | hc
  · exact h.frame.children c hc
  · rw [List.mem_singleton.mp hc]
    exact ht

theorem Speaks.advance (h : p.Speaks) : p.advance.Speaks := by
  unfold Parser.advance
  split
  · exact h
  · rename_i t ts ha
    exact ⟨h.frame, h.callers, fun t' ht' => h.ahead t' (ha ▸ List.mem_cons_of_mem _ ht'), h.ending⟩

theorem Speaks.consume (h : p.Speaks) : p.consume.Speaks := by
  refine (h.add ?_).advance
  split <;> exact fun x hx => nomatch hx

theorem Speaks.settle (h : p.Speaks) : p.settle.Speaks := ⟨h.frame, h.callers, h.ahead, h.ending⟩

theorem Speaks.complain (h : p.Speaks) (message : String) : (p.complain message).Speaks := by
  unfold Parser.complain
  split
  · exact h
  · exact ⟨h.frame, h.callers, h.ahead, h.ending⟩

theorem Speaks.skipOne (h : p.Speaks) (hq : p.skipOne = some q) : q.Speaks := by
  unfold Parser.skipOne at hq
  split at hq
  · cases hq
    exact (h.complain _).consume.settle
  · cases hq

theorem Speaks.skipTo (h : p.Speaks) (ks : List Kind) (n : Nat) : (Parser.skipTo ks n p).Speaks := by
  induction n generalizing p with
  | zero => exact h
  | succ n ih =>
    rw [Parser.skipTo]
    split
    · exact h
    · exact ih h.consume

theorem Speaks.giveUp (h : p.Speaks) (place : Nat) : (p.giveUp place).Speaks := by
  unfold Parser.giveUp
  dsimp only
  generalize p.complain _ = q, h.complain _ = hq
  refine Speaks.goOn (Speaks.skipTo ?_ _ _) rfl
  split
  · exact ⟨hq.consume.frame, hq.consume.callers, hq.consume.ahead, hq.consume.ending⟩
  · exact ⟨hq.frame, hq.callers, hq.ahead, hq.ending⟩

theorem Speaks.sync (h : p.Speaks) {afterRound : Bool} (hq : p.sync afterRound = some q) : q.Speaks := by
  unfold Parser.sync at hq
  dsimp only at hq
  split at hq
  · cases hq
    exact h
  · split at hq
    · cases hq
      exact (h.complain _).skipTo _ _
    · exact h.skipOne hq

theorem Speaks.remember (h : p.Speaks) {slot : Slot} {t : Token} (ht : slot = .trigger → t.Speaks) :
    (p.remember slot t).Speaks := by
  cases slot with
  | none => exact h
  | target => exact ⟨⟨h.frame.trigger, h.frame.children, h.frame.todo⟩, h.callers, h.ahead, h.ending⟩
  | trigger =>
    refine ⟨⟨?_, h.frame.children, h.frame.todo⟩, h.callers, h.ahead, h.ending⟩
    intro t' ht'
    cases ht'
    exact ht rfl

theorem Speaks.take (h : p.Speaks) {slot : Slot} {rest : List Item} (hr : hearsAll rest = true)
    (hk : slot = .trigger → p.view.kind = .text) : (p.take slot rest).Speaks :=
  (h.settle.consume.remember fun hs => h.view (hk hs)).goOn hr

/-- The token put in for a missing text says that it is missing. -/
theorem speaks_missing (p : Parser) : (p.missing [.text]).Speaks := by
  have htext : (p.missing [.text]).text = "<missing <INVALID>>" := rfl
  rw [Token.Speaks, htext]
  exact unquoted_ne (c := '<') (by decide) (by decide)

theorem Speaks.putIn (h : p.Speaks) {ks : List Kind} {slot : Slot} {rest : List Item} (hr : hearsAll rest = true)
    (hk : slot = .trigger → ks = [.text]) : (p.putIn ks slot rest).Speaks := by
  unfold Parser.putIn
  dsimp only
  refine Speaks.goOn (Speaks.remember ?_ fun hs => hk hs ▸ p.speaks_missing) hr
  split
  · exact (h.complain _).add fun x hx => nomatch hx
  · exact h.complain _

/-- Before a token only that token is expected. -/
theorem expectedKinds_token (place : Nat) (ks : List Kind) (slot : Slot) (rest : List Item) (cs : List Frame) :
    expectedKinds (.token place ks slot :: rest) cs = ks := by
  cases cs <;> simp [expectedKinds, lookAll, Item.look]

theorem view_advance (p : Parser) : p.advance.view = p.beyond := by
  unfold advance view beyond
  split <;> simp [*]

theorem skipOne_view (h : p.skipOne = some q) : p.beyond.kind ∈ p.expected ∧ q.view = p.beyond := by
  unfold Parser.skipOne at h
  split at h
  · rename_i hb
    cases h
    refine ⟨by simpa using hb, ?_⟩
    show (p.complainUnwanted.add _).advance.view = _
    rw [view_advance]
    unfold complainUnwanted complain
    split <;> rfl
  · cases h

theorem Speaks.read (h : p.Speaks) {place : Nat} {ks : List Kind} {slot : Slot} {rest : List Item}
    (ht : p.frame.todo = .token place ks slot :: rest) : (p.read place ks slot rest).Speaks := by
  obtain ⟨hi, hr⟩ := h.items ht
  have hks : slot = .trigger → ks = [.text] := by
    rintro rfl
    simpa [Item.hears] using hi
  unfold Parser.read
  split
  · rename_i hsees
    refine h.take hr fun hs => ?_
    simpa [sees, hks hs] using hsees
  · split
    · rename_i q hq
      obtain ⟨hin, hview⟩ := skipOne_view hq
      refine (h.skipOne hq).take hr fun hs => ?_
      rw [Parser.expected, ht, expectedKinds_token, hks hs] at hin
      rw [hview]
      simpa using hin
    · split
      · exact h.putIn hr hks
      · split
        · exact h.giveUp place
        · rename_i hlen
          refine Speaks.giveUp (h.remember fun hs => ?_) place
          rw [hks hs] at hlen
          exact absurd rfl hlen

theorem Speaks.enter (h : p.Speaks) {r : Rule} {body rest : List Item} (hb : hearsAll body = true)
    (hr : hearsAll rest = true) : (p.enter r body rest).Speaks := by
  refine ⟨⟨fun _ h => (by cases h), fun _ h => (by cases h), hb⟩, ?_, h.ahead, h.ending⟩
  intro f hf
  rcases List.mem_cons.mp hf with rfl | hf
  · exact (h.goOn hr).frame
  · exact h.callers f hf

theorem Speaks.close (h : p.Speaks) : p.close.Speaks := Tree.speaks_node h.frame.trigger h.frame.children

theorem Speaks.wrap (h : p.Speaks) {items : List Item} (hi : hearsAll items = true) : (p.wrap items).Speaks := by
  refine ⟨⟨fun _ h => (by cases h), ?_, hi⟩, h.callers, h.ahead, h.ending⟩
  intro c hc
  rw [List.mem_singleton.mp hc]
  exact h.close

theorem Speaks.round (h : p.Speaks) {again : Nat} {body rest : List Item} (hb : hearsAll body = true)
    (hr : hearsAll rest = true) : (p.round again body rest).Speaks := by
  unfold Parser.round
  split
  · exact h.goOn (by simp [Item.hears, hb, hr])
  · exact h.goOn hr

/-- A rule of which nothing is left goes to its caller. -/
theorem Speaks.leave (h : p.Speaks) {c : Frame} {cs : List Frame} (hcs : p.callers = c :: cs) :
    (Parser.add { p with frame := c, callers := cs } p.close).Speaks := by
  have hcallers := h.callers
  rw [hcs] at hcallers
  have hback : Speaks { p with frame := c, callers := cs } :=
    ⟨hcallers c List.mem_cons_self, fun f hf => hcallers f (List.mem_cons_of_mem _ hf), h.ahead, h.ending⟩
  exact hback.add h.close

/-- Synchronizing gives the rule up, or goes on. -/
theorem Speaks.synced (h : p.Speaks) {afterRound : Bool} {place : Nat} {k : Parser → Parser}
    (hk : ∀ q : Parser, q.Speaks → (k q).Speaks) :
    Speaks (match p.sync afterRound with
      | none => p.giveUp place
      | some q => k q) := by
  split
  · exact h.giveUp place
  · rename_i q hq
    exact hk q (h.sync hq)

theorem Speaks.step (h : p.Speaks) : p.step.Speaks := by
  unfold Parser.step
  split
  case h_1 ht =>
    split
    · exact h
    · exact h.leave ‹_›
  case h_2 ht => exact h.read ht
  case h_3 r rest ht => exact h.enter r.hears_body (h.items ht).2
  case h_4 level rest ht => exact h.enter rfl (h.items ht).2
  case h_5 place body rest ht =>
    obtain ⟨hb, hr⟩ : hearsAll body = true ∧ hearsAll rest = true := h.items ht
    refine h.synced (k := fun q => if q.sees (lookAll body).kinds then q.goOn (body ++ rest) else q.goOn rest) ?_
    intro q hq
    split
    · exact hq.goOn (by simp [hb, hr])
    · exact hq.goOn hr
  case h_6 place again body rest ht =>
    obtain ⟨hb, hr⟩ : hearsAll body = true ∧ hearsAll rest = true := h.items ht
    exact h.synced (k := fun q => q.round again body rest) fun q hq => hq.round hb hr
  case h_7 place again body rest ht =>
    obtain ⟨hb, hr⟩ : hearsAll body = true ∧ hearsAll rest = true := h.items ht
    refine h.synced (k := fun q => q.goOn (body ++ .again again body :: rest)) fun q hq => hq.goOn ?_
    simp [Item.hears, hb, hr]
  case h_8 place body rest ht =>
    obtain ⟨hb, hr⟩ : hearsAll body = true ∧ hearsAll rest = true := h.items ht
    exact h.synced (k := fun q => q.round place body rest) fun q hq => hq.round hb hr
  case h_9 place left right rest ht =>
    obtain ⟨hi, hr⟩ := h.items ht
    have hb : hearsAll left = true ∧ hearsAll right = true := by simpa [Item.hears] using hi
    refine h.synced (k := fun q =>
      if q.sees (lookAll left).kinds then q.goOn (left ++ rest)
      else if q.sees (lookAll right).kinds then q.goOn (right ++ rest) else q.giveUp place) ?_
    intro q hq
    split
    · exact hq.goOn (by simp [hb.1, hr])
    · split
      · exact hq.goOn (by simp [hb.2, hr])
      · exact hq.giveUp place
  case h_10 level rest ht =>
    obtain ⟨-, hr⟩ := h.items ht
    split
    · exact h.goOn hr
    · split
      · exact h.wrap (by simp [hears_operatorBody, hr])
      · exact h.goOn hr

theorem Speaks.run (h : p.Speaks) (n : Nat) : (Parser.run n p).Speaks := by
  induction n generalizing p with
  | zero => exact h
  | succ n ih =>
    rw [Parser.run]
    split
    · exact h
    · exact ih h.step

theorem start_speaks (r : Rule) (text : String) : (Parser.start r (lex text)).Speaks :=
  ⟨⟨fun _ h => (by cases h), fun _ h => (by cases h), r.hears_body⟩, fun _ h => (by cases h),
    fun _ ht hk => speaks_of_matches hk (lex_matches ht), rfl⟩

end Parser

/-- Whatever a text is like, the triggers in the tree read from it say something. -/
theorem parse_speaks (r : Rule) (text : String) : (parse r text).tree.Speaks :=
  ((Parser.start_speaks r text).run _).close

/-! ## The triggers of a machine -/

/-- All transitions of a state have a trigger with a name. -/
def Declared.Named (d : Declared) : Prop := ∀ t ∈ d.state.outgoing, t.trigger ≠ ""

namespace Builder

variable {b : Builder} {source : String} {around : List String}

theorem transition_trigger {i : Nat} {n : Node} {cs : List Tree} {t : Transition}
    (h : b.transition source around i n cs = .ok t) : ∃ tok, n.trigger = some tok ∧ t.trigger = unquoted tok.text := by
  unfold transition at h
  obtain ⟨arrow, -, h⟩ := bind_eq_ok.mp h
  obtain ⟨guard, -, h⟩ := bind_eq_ok.mp h
  obtain ⟨as, -, h⟩ := bind_eq_ok.mp h
  obtain ⟨head, -, h⟩ := bind_eq_ok.mp h
  obtain ⟨tok, htok, h⟩ := bind_eq_ok.mp h
  obtain ⟨target, -, h⟩ := bind_eq_ok.mp h
  obtain rfl := pure_eq_ok.mp h
  exact ⟨tok, need_eq_ok.mp htok, rfl⟩

theorem transitions_named {cs : List Tree} {ts : List Transition} (h : b.transitions source around cs = .ok ts)
    (hcs : ∀ c ∈ cs, c.Speaks) : ∀ t ∈ ts, t.trigger ≠ "" := by
  intro t ht
  obtain ⟨⟨c, i⟩, hc, htr⟩ := exists_of_forall₂ (mapM_eq_ok h) t ht
  have hmem : c ∈ cs := List.mem_of_mem_filter (List.fst_mem_of_mem_zipIdx hc)
  cases c with
  | leaf _ => cases htr
  | fault _ => cases htr
  | node n ts =>
    obtain ⟨tok, htok, htrigger⟩ := transition_trigger htr
    rw [htrigger]
    exact hcs _ hmem (n, ts) List.mem_cons_self tok htok

end Builder

mutual

theorem member_named (b : Builder) : ∀ (t : Tree) {around : List String} {m : Member}, t.Speaks →
    b.member around t = .ok m → ∀ d ∈ m.declared, d.Named
  | .leaf _, _, _, _, h, d, hd => by cases h; cases hd
  | .fault _, _, _, _, h, d, hd => by cases h; cases hd
  | .node n cs, around, m, ht, h, d, hd => by
    unfold Builder.member at h
    split at h
    · exact firstMember_named b cs ht.children h d hd
    · obtain ⟨tok, -, h⟩ := bind_eq_ok.mp h
      obtain ⟨ts, hts, h⟩ := bind_eq_ok.mp h
      obtain rfl := pure_eq_ok.mp h
      obtain rfl := List.mem_singleton.mp hd
      exact Builder.transitions_named hts ht.children
    · obtain ⟨tok, -, h⟩ := bind_eq_ok.mp h
      obtain ⟨it, -, h⟩ := bind_eq_ok.mp h
      obtain ⟨i, -, h⟩ := bind_eq_ok.mp h
      obtain ⟨ts, hts, h⟩ := bind_eq_ok.mp h
      obtain ⟨ms, hms, h⟩ := bind_eq_ok.mp h
      obtain rfl := pure_eq_ok.mp h
      rcases List.mem_cons.mp hd with rfl | hd
      · exact Builder.transitions_named hts ht.children
      · exact members_named b cs ht.children hms d hd
    · obtain rfl := pure_eq_ok.mp h
      cases hd

theorem firstMember_named (b : Builder) : ∀ (cs : List Tree) {around : List String} {m : Member}, (∀ c ∈ cs, c.Speaks) →
    b.firstMember around cs = .ok m → ∀ d ∈ m.declared, d.Named
  | [], _, _, _, h, _, _ => by cases h
  | c :: _, _, _, hcs, h, d, hd => member_named b c (hcs c List.mem_cons_self) h d hd

theorem members_named (b : Builder) : ∀ (cs : List Tree) {around : List String} {ms : List Member},
    (∀ c ∈ cs, c.Speaks) → b.members around cs = .ok ms → ∀ d ∈ declaredAll ms, d.Named
  | [], _, _, _, h, d, hd => by cases h; cases hd
  | c :: cs, around, ms, hcs, h, d, hd => by
    obtain ⟨hc, hrest⟩ := List.forall_mem_cons.mp hcs
    unfold Builder.members at h
    split at h
    · obtain ⟨m, hm, h⟩ := bind_eq_ok.mp h
      obtain ⟨ms', hms, h⟩ := bind_eq_ok.mp h
      obtain rfl := pure_eq_ok.mp h
      rcases List.mem_append.mp hd with hd | hd
      · exact member_named b c hc hm d hd
      · exact members_named b cs hrest hms d hd
    · exact members_named b cs hrest h d hd

end

/-- No machine that is built from a text has a transition with an empty trigger. -/
theorem ofTree_trigger {load : Nat} {text : String} {m : Machine}
    (h : Machine.ofTree load (parse .machine text).tree = .ok m) : ∀ d ∈ m.declared, d.Named := by
  obtain ⟨name, registry, it, i, ms, -, -, -, -, hms, rfl⟩ := ofTree_eq_ok.mp h
  exact members_named _ _ (parse_speaks .machine text).children hms

end Statechart
