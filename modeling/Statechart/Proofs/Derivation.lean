/-
  Statechart.Proofs.Derivation — a text that is read without complaint is read by the grammar.

  `Fills` says how the items of a rule may be filled with children, one item after the
  other; it looks at what stands in each place, not below it. A tree is `Derived` if the
  children of each of its nodes fill the items of the node's rule.

  What the parser has of a rule when it takes an item is such that, however the items
  left are filled, the whole rule is (`Frame.Sound`); each rule that waits is so once the
  node it waits for is there (`Frame.Awaits`). As long as there is no complaint a step
  keeps this, for it does what one of the ways to fill an item says (`Fair.step`).

  Proved (`parse_derived`): what a text without complaints is read into is derived. It
  does not matter here whether the parser came to the end.
-/

import Statechart.Tree.Parser

namespace Statechart

/-! ## Derivations -/

/-- With some children there already, these items of the rule `r` can be filled so that these children are there in
    the end. -/
inductive Fills (r : Rule) : List Item → List Tree → List Tree → Prop
  | done {cs : List Tree} : Fills r [] cs cs
  | token {place : Nat} {ks : List Kind} {slot : Slot} {is : List Item} {cs ds : List Tree} {t : Token} :
      t.kind ∈ ks → Fills r is (cs ++ [.leaf t]) ds → Fills r (.token place ks slot :: is) cs ds
  | call {rule : Rule} {is : List Item} {cs ds : List Tree} {n : Node} (ts : List Tree) :
      n.rule = rule → Fills r is (cs ++ [.node n ts]) ds → Fills r (.call rule :: is) cs ds
  | expression {level : Nat} {is : List Item} {cs ds : List Tree} {n : Node} (ts : List Tree) :
      n.rule = .expression → Fills r is (cs ++ [.node n ts]) ds → Fills r (.expression level :: is) cs ds
  | absent {place : Nat} {body is : List Item} {cs ds : List Tree} :
      Fills r is cs ds → Fills r (.option place body :: is) cs ds
  | present {place : Nat} {body is : List Item} {cs ds : List Tree} :
      Fills r (body ++ is) cs ds → Fills r (.option place body :: is) cs ds
  | none {place again : Nat} {body is : List Item} {cs ds : List Tree} :
      Fills r is cs ds → Fills r (.many place again body :: is) cs ds
  | many {place again : Nat} {body is : List Item} {cs ds : List Tree} :
      Fills r (body ++ .again again body :: is) cs ds → Fills r (.many place again body :: is) cs ds
  | some {place again : Nat} {body is : List Item} {cs ds : List Tree} :
      Fills r (body ++ .again again body :: is) cs ds → Fills r (.some place again body :: is) cs ds
  | enough {again : Nat} {body is : List Item} {cs ds : List Tree} :
      Fills r is cs ds → Fills r (.again again body :: is) cs ds
  | again {again : Nat} {body is : List Item} {cs ds : List Tree} :
      Fills r (body ++ .again again body :: is) cs ds → Fills r (.again again body :: is) cs ds
  | left {place : Nat} {left right is : List Item} {cs ds : List Tree} :
      Fills r (left ++ is) cs ds → Fills r (.choice place left right :: is) cs ds
  | right {place : Nat} {left right is : List Item} {cs ds : List Tree} :
      Fills r (right ++ is) cs ds → Fills r (.choice place left right :: is) cs ds
  | operand {level : Nat} {is : List Item} {cs ds : List Tree} :
      Fills r is cs ds → Fills r (.operators level :: is) cs ds
  /-- All that is there becomes the left operand. -/
  | operator {level bound : Nat} {is : List Item} {cs ds : List Tree} {n : Node} : n.rule = r → level ≤ bound →
      Fills r (operatorBody level bound ++ is) [.node n cs] ds → Fills r (.operators level :: is) cs ds

/-- The items with which a rule can start; an expression starts at any level. -/
def Rule.Starts (r : Rule) (items : List Item) : Prop :=
  items = r.body ∨ r = .expression ∧ ∃ level, items = expressionBody level

/-- The children of every node fill a start of its rule. -/
inductive Tree.Derived : Tree → Prop
  | leaf (t : Token) : Derived (.leaf t)
  | node {n : Node} {items : List Item} {cs : List Tree} : n.rule.Starts items → Fills n.rule items [] cs →
      (∀ c ∈ cs, c.Derived) → Derived (.node n cs)

theorem Tree.Derived.children {n : Node} {cs : List Tree} (h : (Tree.node n cs).Derived) : ∀ c ∈ cs, c.Derived := by
  cases h with
  | node _ _ hc => exact hc

/-- Only an expression can start otherwise than its rule says. -/
theorem Tree.Derived.fills {n : Node} {cs : List Tree} (h : (Tree.node n cs).Derived) (hn : n.rule ≠ .expression) :
    Fills n.rule n.rule.body [] cs := by
  cases h with
  | node hs hf _ =>
    rcases hs with rfl | ⟨he, -⟩
    · exact hf
    · exact absurd he hn

/-! ## Operators stand last -/

mutual

/-- No operators are asked for. -/
def Item.plain : Item → Bool
  | .operators _ => false
  | .option _ b => plainAll b
  | .many _ _ b => plainAll b
  | .some _ _ b => plainAll b
  | .again _ b => plainAll b
  | .choice _ l r => plainAll l && plainAll r
  | _ => true

def plainAll : List Item → Bool
  | [] => true
  | i :: is => i.plain && plainAll is

end

theorem plainAll_append (is js : List Item) : plainAll (is ++ js) = (plainAll is && plainAll js) := by
  induction is with
  | nil => rfl
  | cons i is ih => rw [List.cons_append, plainAll, plainAll, ih, Bool.and_assoc]

/-- Operators are asked for at the end only. -/
def Tidy (items : List Item) : Prop :=
  plainAll items = true ∨ ∃ is level, items = is ++ [.operators level] ∧ plainAll is = true

theorem Tidy.append {is js : List Item} (hi : plainAll is = true) (hj : Tidy js) : Tidy (is ++ js) := by
  rcases hj with hj | ⟨ks, level, rfl, hk⟩
  · exact Or.inl (by rw [plainAll_append, hi, hj]; rfl)
  · exact Or.inr ⟨is ++ ks, level, by rw [List.append_assoc], by rw [plainAll_append, hi, hk]; rfl⟩

theorem Tidy.head {i : Item} {is : List Item} (h : Tidy (i :: is)) :
    i.plain = true ∧ Tidy is ∨ ∃ level, i = .operators level ∧ is = [] := by
  rcases h with h | ⟨js, level, he, hj⟩
  · rw [plainAll, Bool.and_eq_true] at h
    exact Or.inl ⟨h.1, Or.inl h.2⟩
  · cases js with
    | nil =>
      obtain ⟨rfl, rfl⟩ := List.cons.inj he
      exact Or.inr ⟨level, rfl, rfl⟩
    | cons j js =>
      obtain ⟨rfl, rfl⟩ := List.cons.inj he
      rw [plainAll, Bool.and_eq_true] at hj
      exact Or.inl ⟨hj.1, Or.inr ⟨js, level, rfl, hj.2⟩⟩

theorem Tidy.operators {level : Nat} {is : List Item} (h : Tidy (.operators level :: is)) : is = [] := by
  rcases h.head with ⟨hp, -⟩ | ⟨-, -, h⟩
  · simp [Item.plain] at hp
  · exact h

/-- What an item other than operators consists of asks for no operators. -/
theorem Tidy.body {i : Item} {body is : List Item} (h : Tidy (i :: is)) (hi : ∀ level, i ≠ .operators level)
    (hb : i.plain = true → plainAll body = true) : plainAll body = true ∧ Tidy is := by
  rcases h.head with ⟨hp, ht⟩ | ⟨level, hl, -⟩
  · exact ⟨hb hp, ht⟩
  · exact absurd hl (hi level)

theorem Tidy.tail {i : Item} {is : List Item} (h : Tidy (i :: is)) : Tidy is := by
  rcases h.head with ⟨-, h⟩ | ⟨-, -, rfl⟩
  · exact h
  · exact Or.inl rfl

theorem Rule.plain_body (r : Rule) : plainAll r.body = true ∨ r = .expression := by cases r <;> decide

theorem expressionBody_tidy (level : Nat) : Tidy (expressionBody level) := Or.inr ⟨[_], level, rfl, rfl⟩

theorem Rule.Starts.tidy {r : Rule} {items : List Item} (h : r.Starts items) : Tidy items := by
  rcases h with rfl | ⟨-, level, rfl⟩
  · rcases r.plain_body with h | rfl
    · exact Or.inl h
    · exact expressionBody_tidy 0
  · exact expressionBody_tidy level

theorem operatorBody_tidy (level bound : Nat) : Tidy (operatorBody level bound) := by
  refine Or.inr ⟨[_, _], level, rfl, ?_⟩
  simp only [plainAll, Item.plain, Bool.and_true]
  split
  · rfl
  · split <;> rfl

/-! ## Frames -/

/-- However the items left of a rule are filled, the rule is filled from its start. -/
structure Frame.Opens (f : Frame) (items : List Item) : Prop where
  starts : f.rule.Starts items
  tidy : Tidy f.todo
  derived : ∀ c ∈ f.children, c.Derived

/-- The rule being read. -/
def Frame.Sound (f : Frame) : Prop :=
  ∃ items, f.Opens items ∧ ∀ ds, Fills f.rule f.todo f.children ds → Fills f.rule items [] ds

/-- A rule that waits for a node of the rule `r`. -/
def Frame.Awaits (f : Frame) (r : Rule) : Prop :=
  ∃ items, f.Opens items ∧
    ∀ n ts ds, n.rule = r → Fills f.rule f.todo (f.children ++ [.node n ts]) ds → Fills f.rule items [] ds

/-- Each of some rules waits for the one before it, the first for `r`. -/
def Awaited (r : Rule) : List Frame → Prop
  | [] => True
  | f :: fs => f.Awaits r ∧ Awaited f.rule fs

namespace Parser

variable {p q : Parser}

structure Sound (p : Parser) : Prop where
  frame : p.frame.Sound
  callers : Awaited p.frame.rule p.callers

/-- As long as there is no complaint, nothing is being recovered from. -/
def Candid (p : Parser) : Prop := p.complaints = [] → p.recovering = false

/-! ## Repairs complain -/

@[simp] theorem complaints_goOn (p : Parser) (items : List Item) : (p.goOn items).complaints = p.complaints := rfl

@[simp] theorem complaints_add (p : Parser) (t : Tree) : (p.add t).complaints = p.complaints := rfl

@[simp] theorem complaints_settle (p : Parser) : p.settle.complaints = p.complaints := rfl

@[simp] theorem complaints_advance (p : Parser) : p.advance.complaints = p.complaints := by
  unfold advance
  split <;> rfl

@[simp] theorem complaints_consume (p : Parser) : p.consume.complaints = p.complaints := by simp [consume]

@[simp] theorem complaints_remember (p : Parser) (slot : Slot) (t : Token) :
    (p.remember slot t).complaints = p.complaints := by
  cases slot <;> rfl

@[simp] theorem complaints_take (p : Parser) (slot : Slot) (rest : List Item) :
    (p.take slot rest).complaints = p.complaints := by simp [take]

theorem complaints_skipTo (ks : List Kind) (n : Nat) (p : Parser) : (skipTo ks n p).complaints = p.complaints := by
  induction n generalizing p with
  | zero => rfl
  | succ n ih =>
    rw [skipTo]
    split
    · rfl
    · rw [ih, complaints_consume]

@[simp] theorem complaints_skipUntil (p : Parser) (ks : List Kind) : (p.skipUntil ks).complaints = p.complaints :=
  complaints_skipTo ks _ p

theorem Candid.remember (h : p.Candid) (slot : Slot) (t : Token) : (p.remember slot t).Candid := by
  cases slot <;> exact h

theorem Candid.complain (h : p.Candid) (message : String) : (p.complain message).complaints ≠ [] := by
  unfold Parser.complain
  split
  · rename_i hr
    intro hc
    rw [h hc] at hr
    cases hr
  · simp

theorem Candid.complainUnwanted (h : p.Candid) : p.complainUnwanted.complaints ≠ [] := h.complain _

theorem Candid.skipOne (h : p.Candid) (hq : p.skipOne = some q) : q.complaints ≠ [] := by
  unfold Parser.skipOne at hq
  split at hq
  · cases hq
    simpa using h.complainUnwanted
  · cases hq

theorem Candid.sync {afterRound : Bool} (h : p.Candid) (hq : p.sync afterRound = some q) :
    q = p ∨ q.complaints ≠ [] := by
  unfold Parser.sync at hq
  dsimp only at hq
  split at hq
  · exact Or.inl (Option.some.inj hq).symm
  · split at hq
    · cases hq
      exact Or.inr (by simpa using h.complainUnwanted)
    · exact Or.inr (h.skipOne hq)

theorem Candid.giveUp (h : p.Candid) (place : Nat) : (p.giveUp place).complaints ≠ [] := by
  unfold Parser.giveUp
  dsimp only
  split
  · simpa using h.complain _
  · simpa using h.complain _

theorem Candid.putIn (h : p.Candid) (ks : List Kind) (slot : Slot) (rest : List Item) :
    (p.putIn ks slot rest).complaints ≠ [] := by
  unfold Parser.putIn
  dsimp only
  split
  · simpa using h.complain _
  · simpa using h.complain _

/-! ## Steps without complaint -/

/-- As long as there is no complaint, nothing is being recovered from and what was read is sound. -/
def Fair (p : Parser) : Prop := p.complaints = [] → p.recovering = false ∧ p.Sound

theorem Fair.candid (h : p.Fair) : p.Candid := fun hc => (h hc).1

theorem fair_of_complaints (h : p.complaints ≠ []) : p.Fair := fun hc => absurd hc h

theorem candid_of_complaints (h : p.complaints ≠ []) : p.Candid := fun hc => absurd hc h

theorem Sound.tidy (h : p.Sound) : Tidy p.frame.todo := by
  obtain ⟨⟨start, ho, -⟩, -⟩ := h
  exact ho.tidy

/-- The items left may be replaced by others that fill them. -/
theorem Fair.goOn {items : List Item} (h : p.Fair) (ht : Tidy p.frame.todo → Tidy items)
    (hf : ∀ ds, Fills p.frame.rule items p.frame.children ds → Fills p.frame.rule p.frame.todo p.frame.children ds) :
    (p.goOn items).Fair := by
  intro hc
  obtain ⟨hr, ⟨start, ho, hall⟩, hcallers⟩ := h hc
  exact ⟨hr, ⟨start, ⟨ho.starts, ht ho.tidy, ho.derived⟩, fun ds hds => hall ds (hf ds hds)⟩, hcallers⟩

theorem frame_take (p : Parser) (slot : Slot) (rest : List Item) :
    (p.take slot rest).frame.rule = p.frame.rule ∧ (p.take slot rest).frame.todo = rest ∧
      (p.take slot rest).frame.children = p.frame.children ++ [.leaf p.view] ∧
      (p.take slot rest).callers = p.callers ∧ (p.take slot rest).recovering = false := by
  unfold take consume advance
  split <;> cases slot <;> exact ⟨rfl, rfl, rfl, rfl, rfl⟩

theorem Fair.take {place : Nat} {ks : List Kind} {slot : Slot} {rest : List Item} (h : p.Fair)
    (ht : p.frame.todo = .token place ks slot :: rest) (hs : p.sees ks = true) : (p.take slot rest).Fair := by
  intro hc
  obtain ⟨-, ⟨start, ho, hall⟩, hcallers⟩ := h (by simpa using hc)
  obtain ⟨hrule, htodo, hchildren, hcs, hrec⟩ := p.frame_take slot rest
  have htidy := ho.tidy
  rw [ht] at hall htidy
  refine ⟨hrec, ⟨start, ⟨by rw [hrule]; exact ho.starts, by rw [htodo]; exact htidy.tail, ?_⟩, ?_⟩,
    by rw [hrule, hcs]; exact hcallers⟩
  · intro c hc
    rw [hchildren] at hc
    rcases List.mem_append.mp hc with hc | hc
    · exact ho.derived c hc
    · rw [List.mem_singleton.mp hc]
      exact .leaf _
  · intro ds hds
    rw [hrule, htodo, hchildren] at hds
    rw [hrule]
    exact hall ds (.token (by simpa [sees] using hs) hds)

theorem Fair.read {place : Nat} {ks : List Kind} {slot : Slot} {rest : List Item} (h : p.Fair)
    (ht : p.frame.todo = .token place ks slot :: rest) : (p.read place ks slot rest).Fair := by
  unfold Parser.read
  split
  · exact h.take ht ‹_›
  · split
    · rename_i q hq
      exact fair_of_complaints (by simpa using h.candid.skipOne hq)
    · split
      · exact fair_of_complaints (h.candid.putIn _ _ _)
      · split
        · exact fair_of_complaints (h.candid.giveUp _)
        · exact fair_of_complaints ((h.candid.remember _ _).giveUp _)

/-- A rule is entered that the next item asks for. -/
theorem Fair.enter {r : Rule} {body : List Item} {i : Item} {rest : List Item} (h : p.Fair)
    (ht : p.frame.todo = i :: rest) (hb : r.Starts body)
    (hi : ∀ n ts ds, n.rule = r → Fills p.frame.rule rest (p.frame.children ++ [.node n ts]) ds →
      Fills p.frame.rule (i :: rest) p.frame.children ds) :
    (p.enter r body rest).Fair := by
  intro hc
  obtain ⟨hr, ⟨start, ho, hall⟩, hcallers⟩ := h hc
  have htidy := ho.tidy
  rw [ht] at hall htidy
  refine ⟨hr, ⟨body, ⟨hb, hb.tidy, fun c hc => by cases hc⟩, fun ds hds => hds⟩, ?_, hcallers⟩
  exact ⟨start, ⟨ho.starts, htidy.tail, ho.derived⟩, fun n ts ds hn hds => hall ds (hi n ts ds hn hds)⟩

/-- What was read of a rule is derived if nothing need be left of it. -/
theorem Sound.close (h : p.Sound) (hf : Fills p.frame.rule p.frame.todo p.frame.children p.frame.children) :
    p.close.Derived := by
  obtain ⟨⟨start, ho, hall⟩, -⟩ := h
  exact .node ho.starts (hall _ hf) ho.derived

/-- A rule of which nothing is left goes to its caller. -/
theorem Fair.leave {c : Frame} {cs : List Frame} (h : p.Fair) (ht : p.frame.todo = []) (hcs : p.callers = c :: cs) :
    (Parser.add { p with frame := c, callers := cs } p.close).Fair := by
  intro hc
  obtain ⟨hr, hs⟩ := h hc
  have hclose := hs.close (by rw [ht]; exact .done)
  have hwait := hs.callers
  rw [hcs] at hwait
  obtain ⟨⟨start, ho, hall⟩, hrest⟩ := hwait
  refine ⟨hr, ⟨start, ⟨ho.starts, ho.tidy, ?_⟩, fun ds hds => hall _ _ ds rfl hds⟩, hrest⟩
  intro t ht
  rcases List.mem_append.mp ht with ht | ht
  · exact ho.derived t ht
  · rw [List.mem_singleton.mp ht]
    exact hclose

/-- All that was read of an expression becomes the left operand of an operator. -/
theorem Fair.wrap {level bound : Nat} {rest : List Item} (h : p.Fair) (ht : p.frame.todo = .operators level :: rest)
    (hl : level ≤ bound) : (p.wrap (operatorBody level bound ++ rest)).Fair := by
  intro hc
  obtain ⟨hr, hs⟩ := h hc
  have htidy := hs.tidy
  rw [ht] at htidy
  obtain rfl := htidy.operators
  have hclose := hs.close (by rw [ht]; exact .operand .done)
  obtain ⟨⟨start, ho, hall⟩, hcallers⟩ := hs
  rw [ht] at hall
  refine ⟨hr, ⟨start, ⟨ho.starts, ?_, ?_⟩, fun ds hds => hall ds (.operator rfl hl hds)⟩, hcallers⟩
  · show Tidy (operatorBody level bound ++ [])
    rw [List.append_nil]
    exact operatorBody_tidy level bound
  · intro t ht
    rw [List.mem_singleton.mp ht]
    exact hclose

/-- Synchronizing leaves all as it is, or complains. -/
theorem Fair.synced {afterRound : Bool} {place : Nat} {k : Parser → Parser} (h : p.Fair) (hk : (k p).Fair)
    (hkeep : ∀ q : Parser, q.complaints ≠ [] → (k q).complaints ≠ []) :
    Fair (match p.sync afterRound with
      | none => p.giveUp place
      | some q => k q) := by
  split
  · exact fair_of_complaints (h.candid.giveUp place)
  · rename_i q hq
    rcases h.candid.sync hq with rfl | hc
    · exact hk
    · exact fair_of_complaints (hkeep q hc)

/-- The next item is replaced by what it consists of. -/
theorem Fair.expand {i : Item} {body rest : List Item} (h : p.Fair) (ht : p.frame.todo = i :: rest)
    (hi : ∀ level, i ≠ .operators level) (hb : i.plain = true → plainAll body = true)
    (hf : ∀ ds, Fills p.frame.rule (body ++ rest) p.frame.children ds →
      Fills p.frame.rule (i :: rest) p.frame.children ds) :
    (p.goOn (body ++ rest)).Fair := by
  refine h.goOn (fun htidy => ?_) (by rwa [ht])
  rw [ht] at htidy
  obtain ⟨hbody, hrest⟩ := htidy.body hi hb
  exact .append hbody hrest

/-- One round of a repetition is read, and then perhaps more. -/
theorem Fair.rounds {i : Item} {place : Nat} {body rest : List Item} (h : p.Fair) (ht : p.frame.todo = i :: rest)
    (hi : ∀ level, i ≠ .operators level) (hb : i.plain = true → plainAll body = true)
    (hf : ∀ ds, Fills p.frame.rule (body ++ .again place body :: rest) p.frame.children ds →
      Fills p.frame.rule (i :: rest) p.frame.children ds) :
    (p.goOn (body ++ .again place body :: rest)).Fair := by
  rw [show body ++ .again place body :: rest = (body ++ [.again place body]) ++ rest by simp] at hf ⊢
  refine h.expand ht hi (fun hp => ?_) hf
  rw [plainAll_append, hb hp]
  simpa [plainAll, Item.plain] using hb hp

/-- The next item is passed over. -/
theorem Fair.pass {i : Item} {rest : List Item} (h : p.Fair) (ht : p.frame.todo = i :: rest)
    (hf : ∀ ds, Fills p.frame.rule rest p.frame.children ds → Fills p.frame.rule (i :: rest) p.frame.children ds) :
    (p.goOn rest).Fair := by
  refine h.goOn (fun htidy => ?_) (by rwa [ht])
  rw [ht] at htidy
  exact htidy.tail

theorem complaints_round (p : Parser) (again : Nat) (body rest : List Item) :
    (p.round again body rest).complaints = p.complaints := by
  unfold Parser.round
  split <;> rfl

/-- A step keeps what was read sound as long as there is no complaint. -/
theorem Fair.step (h : p.Fair) : p.step.Fair := by
  unfold Parser.step
  split
  case h_1 ht =>
    split
    · exact h
    · exact h.leave ht ‹_›
  case h_2 ht => exact h.read ht
  case h_3 ht => exact h.enter ht (Or.inl rfl) fun n ts ds hn hds => .call ts hn hds
  case h_4 ht => exact h.enter ht (Or.inr ⟨rfl, _, rfl⟩) fun n ts ds hn hds => .expression ts hn hds
  case h_5 place body rest ht =>
    refine h.synced (k := fun q => if q.sees (lookAll body).kinds then q.goOn (body ++ rest) else q.goOn rest) ?_ ?_
    · split
      · exact h.expand ht nofun id fun _ => .present
      · exact h.pass ht fun _ => .absent
    · intro q hq
      split <;> exact hq
  case h_6 place again body rest ht =>
    refine h.synced (k := fun q => q.round again body rest) ?_ fun q hq => by rwa [complaints_round]
    dsimp only [Parser.round]
    split
    · exact h.rounds ht nofun id fun _ => .many
    · exact h.pass ht fun _ => .none
  case h_7 place again body rest ht =>
    refine h.synced (k := fun q => q.goOn (body ++ .again again body :: rest)) ?_ fun q hq => hq
    exact h.rounds ht nofun id fun _ => .some
  case h_8 place body rest ht =>
    refine h.synced (k := fun q => q.round place body rest) ?_ fun q hq => by rwa [complaints_round]
    dsimp only [Parser.round]
    split
    · exact h.rounds ht nofun id fun _ => .again
    · exact h.pass ht fun _ => .enough
  case h_9 place left right rest ht =>
    have hplain : (Item.choice place left right).plain = true → plainAll left = true ∧ plainAll right = true := by
      simp [Item.plain]
    refine h.synced (k := fun q =>
      if q.sees (lookAll left).kinds then q.goOn (left ++ rest)
      else if q.sees (lookAll right).kinds then q.goOn (right ++ rest) else q.giveUp place) ?_ ?_
    · split
      · exact h.expand ht nofun (fun hp => (hplain hp).1) fun _ => .left
      · split
        · exact h.expand ht nofun (fun hp => (hplain hp).2) fun _ => .right
        · exact fair_of_complaints (h.candid.giveUp place)
    · intro q hq
      split
      · exact hq
      · split
        · exact hq
        · exact (candid_of_complaints hq).giveUp place
  case h_10 level rest ht =>
    split
    · exact h.pass ht fun _ => .operand
    · split
      · exact h.wrap ht ‹_›
      · exact h.pass ht fun _ => .operand

theorem Fair.run (h : p.Fair) (n : Nat) : (Parser.run n p).Fair := by
  induction n generalizing p with
  | zero => exact h
  | succ n ih =>
    rw [Parser.run]
    split
    · exact h
    · exact ih h.step

theorem start_fair (r : Rule) (l : Lexed) : (Parser.start r l).Fair :=
  fun _ => ⟨rfl, ⟨r.body, ⟨Or.inl rfl, Rule.Starts.tidy (Or.inl rfl), fun _ hc => by cases hc⟩, fun _ h => h⟩, trivial⟩

end Parser

/-- Where a text is read without complaint, all that is read is derived. -/
theorem parse_derived {r : Rule} {text : String} (h : (parse r text).complaints = []) :
    ∀ c ∈ (parse r text).tree.children, c.Derived := by
  have hfair := (Parser.start_fair r (lex text)).run (Parser.bound (lex text).tokens.length)
  obtain ⟨-, ⟨_, ho, -⟩, -⟩ := hfair (List.append_eq_nil_iff.mp h).2
  exact ho.derived

end Statechart
