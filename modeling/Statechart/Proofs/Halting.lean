/-
  Statechart.Proofs.Halting — the parser comes to an end, whatever it is given to read.

  Each step is paid for. An item costs the steps that are taken for it when no token is
  read (`Item.idle`); what opening an item adds is paid by the token in view, for an item
  is opened only if that token is then read. So while the token in view is the next to be
  read, only the steps up to there count (`Item.lead`), and each token ahead pays 32.
  - `Neat`: in every rule, what can be opened begins with a token, not with the end of
    the text, and soon reads it.
  - `Moves.load_lt`: every move lowers the `load` that is left.
  - `run_finished`: a run of `bound` steps comes to the end of the first rule. Neither
    this bound nor that of passing over tokens (`skipTo_eq`) is what ends it.
-/

import Statechart.Proofs.Moves

namespace Statechart

/-! ## Steps while no token is read -/

/-- The steps of a rule's items as long as no token is read. -/
def Rule.idle : Rule → Nat
  | .machine => 16
  | .separated => 11
  | .guard | .assignment => 8
  | .transition => 7
  | .composite => 6
  | .simple => 5
  | .initial => 4
  | .file | .expression => 2
  | .state | .atom | .number | .variable => 1

mutual

/-- The steps for an item, with those for what it calls, as long as no token is read. What is opened only for the
    token in view does not count. -/
def Item.idle : Item → Nat
  | .call r => r.idle + 2
  | .expression _ => Rule.expression.idle + 2
  | .some _ _ b => idleAll b + 2
  | _ => 1

def idleAll : List Item → Nat
  | [] => 0
  | i :: is => i.idle + idleAll is

end

theorem Item.idle_pos (i : Item) : 0 < i.idle := by
  cases i <;> simp [Item.idle]

theorem idleAll_append (is js : List Item) : idleAll (is ++ js) = idleAll is + idleAll js := by
  induction is with
  | nil => simp [idleAll]
  | cons i is ih => simp only [List.cons_append, idleAll, ih]; omega

theorem Rule.idle_body (r : Rule) : idleAll r.body = r.idle := by cases r <;> rfl

theorem idle_expressionBody (level : Nat) : idleAll (expressionBody level) = Rule.expression.idle := rfl

/-! ## Steps when the token in view is read next -/

/-- The most steps of a rule's items when the token in view is the first to be read for them. -/
def Rule.lead : Rule → Nat
  | .machine => 16
  | .file => 13
  | .separated => 11
  | .state | .expression => 9
  | .guard | .assignment => 8
  | .transition => 7
  | .composite => 6
  | .simple => 5
  | .initial | .atom => 4
  | .number | .variable => 1

mutual

/-- The steps for an item when a token of the kind `k` is in view and is the first to be read for it; none if that
    is not so. -/
def Item.lead (k : Kind) : Item → Option Nat
  | .token _ ks _ => if k ∈ ks then some 1 else none
  | .call r => if k ∈ r.opening then some (r.lead + 2) else none
  | .expression _ => if k ∈ Rule.expression.opening then some (Rule.expression.lead + 2) else none
  | .option _ b => (leadAll k b).map (· + 1)
  | .many _ _ b => (leadAll k b).map (· + 2)
  | .some _ _ b => (leadAll k b).map (· + 2)
  | .again _ b => (leadAll k b).map (· + 2)
  | .choice _ l r => ((leadAll k l).or (leadAll k r)).map (· + 1)
  | .operators _ => none

def leadAll (k : Kind) : List Item → Option Nat
  | [] => none
  | i :: is =>
    ((i.lead k).map (· + idleAll is)).or (if i.look.through then (leadAll k is).map (· + i.idle) else none)

end

variable {k : Kind} {n : Nat}

theorem leadAll_head {i : Item} {is : List Item} (h : i.lead k = some n) :
    leadAll k (i :: is) = some (n + idleAll is) := by
  simp [leadAll, h]

theorem leadAll_none {i : Item} {is : List Item} (h : i.lead k = none) (ht : i.look.through = false) :
    leadAll k (i :: is) = none := by
  simp [leadAll, h, ht]

theorem leadAll_tail {i : Item} {is : List Item} (h : i.lead k = none) (ht : i.look.through = true) :
    leadAll k (i :: is) = (leadAll k is).map (· + i.idle) := by
  simp [leadAll, h, ht]

theorem leadAll_append {is js : List Item} (h : leadAll k is = some n) :
    leadAll k (is ++ js) = some (n + idleAll js) := by
  induction is generalizing n with
  | nil => cases h
  | cons i is ih =>
    cases hi : i.lead k with
    | some m =>
      rw [leadAll_head hi] at h
      cases h
      rw [List.cons_append, leadAll_head hi, idleAll_append, Nat.add_assoc]
    | none =>
      cases ht : i.look.through with
      | false => simp [leadAll_none hi ht] at h
      | true =>
        rw [leadAll_tail hi ht] at h
        obtain ⟨m, hm, rfl⟩ := Option.map_eq_some_iff.mp h
        rw [List.cons_append, leadAll_tail hi ht, ih hm, Option.map_some]
        congr 1
        omega

theorem leadAll_append_none {is js : List Item} (h : leadAll k is = none) (ht : (lookAll is).through = false) :
    leadAll k (is ++ js) = none := by
  induction is with
  | nil => cases ht
  | cons i is ih =>
    cases hi : i.lead k with
    | some m => simp [leadAll_head hi] at h
    | none =>
      cases hthrough : i.look.through with
      | false => exact leadAll_none hi hthrough
      | true =>
        rw [leadAll_tail hi hthrough, Option.map_eq_none_iff] at h
        have hrest : (lookAll is).through = false := by simpa [lookAll, hthrough] using ht
        rw [List.cons_append, leadAll_tail hi hthrough, ih h hrest, Option.map_none]

mutual

theorem Item.mem_look (k : Kind) : ∀ i : Item, (i.lead k).isSome = true → k ∈ i.look.kinds
  | .token _ ks _, h => by simpa [Item.lead, Item.look] using h
  | .call r, h => by simpa [Item.lead, Item.look] using h
  | .expression _, h => by simpa [Item.lead, Item.look] using h
  | .option _ b, h => mem_lookAll k b (by simpa [Item.lead] using h)
  | .many _ _ b, h => mem_lookAll k b (by simpa [Item.lead] using h)
  | .some _ _ b, h => mem_lookAll k b (by simpa [Item.lead] using h)
  | .again _ b, h => mem_lookAll k b (by simpa [Item.lead] using h)
  | .choice _ l r, h => by
    have hlr : (leadAll k l).isSome = true ∨ (leadAll k r).isSome = true := by simpa [Item.lead] using h
    rw [Item.look, List.mem_append]
    rcases hlr with hl | hr
    · exact Or.inl (mem_lookAll k l hl)
    · exact Or.inr (mem_lookAll k r hr)
  | .operators _, h => by cases h

theorem mem_lookAll (k : Kind) : ∀ is : List Item, (leadAll k is).isSome = true → k ∈ (lookAll is).kinds
  | [], h => by cases h
  | i :: is, h => by
    have hi := Item.mem_look k i
    have his := mem_lookAll k is
    rw [leadAll, Option.isSome_or, Bool.or_eq_true, Option.isSome_map] at h
    rw [lookAll]
    split
    · rename_i ht
      rw [if_pos ht, Option.isSome_map] at h
      rw [List.mem_append]
      exact h.imp hi his
    · rename_i ht
      rw [if_neg ht] at h
      exact h.elim hi fun hn => by cases hn

end

mutual

theorem Item.lead_isSome (k : Kind) : ∀ i : Item, i.plain = true → k ∈ i.look.kinds → (i.lead k).isSome = true
  | .token _ ks _, _, h => by simpa [Item.lead, Item.look] using h
  | .call r, _, h => by simpa [Item.lead, Item.look] using h
  | .expression _, _, h => by simpa [Item.lead, Item.look] using h
  | .option _ b, hp, h => by simpa [Item.lead] using leadAll_isSome k b hp h
  | .many _ _ b, hp, h => by simpa [Item.lead] using leadAll_isSome k b hp h
  | .some _ _ b, hp, h => by simpa [Item.lead] using leadAll_isSome k b hp h
  | .again _ b, hp, h => by simpa [Item.lead] using leadAll_isSome k b hp h
  | .choice _ l r, hp, h => by
    rw [Item.plain, Bool.and_eq_true] at hp
    rw [Item.look, List.mem_append] at h
    have hlr := h.imp (leadAll_isSome k l hp.1) (leadAll_isSome k r hp.2)
    simpa [Item.lead] using hlr
  | .operators _, hp, _ => by cases hp

theorem leadAll_isSome (k : Kind) : ∀ is : List Item, plainAll is = true → k ∈ (lookAll is).kinds →
    (leadAll k is).isSome = true
  | [], _, h => by cases h
  | i :: is, hp, h => by
    rw [plainAll, Bool.and_eq_true] at hp
    have hi := Item.lead_isSome k i hp.1
    have his := leadAll_isSome k is hp.2
    rw [leadAll, Option.isSome_or, Bool.or_eq_true, Option.isSome_map]
    rw [lookAll] at h
    split at h
    · rename_i ht
      rw [if_pos ht, Option.isSome_map]
      exact (List.mem_append.mp h).imp hi his
    · exact Or.inl (hi h)

end

theorem leadAll_eq_none {is : List Item} (h : k ∉ (lookAll is).kinds) : leadAll k is = none := by
  cases he : leadAll k is with
  | none => rfl
  | some n => exact absurd (mem_lookAll k is (by rw [he]; rfl)) h

theorem exists_leadAll {is : List Item} (hp : plainAll is = true) (h : k ∈ (lookAll is).kinds) :
    ∃ n, leadAll k is = some n := Option.isSome_iff_exists.mp (leadAll_isSome k is hp h)

/-- The token in view is the first read for a rule just if the rule may open with it. -/
theorem Rule.lead_body (r : Rule) (k : Kind) :
    (leadAll k r.body).isSome = decide (k ∈ r.opening) ∧ (leadAll k r.body).getD 0 ≤ r.lead := by
  have hall : ∀ k ∈ Kind.all,
      (leadAll k r.body).isSome = decide (k ∈ r.opening) ∧ (leadAll k r.body).getD 0 ≤ r.lead := by
    cases r <;> decide +kernel
  exact hall k k.mem_all

theorem lead_expressionBody (level : Nat) (k : Kind) :
    leadAll k (expressionBody level) = leadAll k Rule.expression.body := by
  simp [expressionBody, Rule.body, leadAll, Item.lead, Item.look, idleAll, Item.idle]

/-! ## What can be opened begins with a token -/

/-- What is opened for a token in view begins with one, not with the end of the text, and soon reads it. -/
def ready (body : List Item) : Bool :=
  !(lookAll body).through && !(lookAll body).kinds.contains .endOfText &&
    Kind.all.all fun k => (leadAll k body).getD 0 ≤ 29

mutual

/-- All that can be opened in the item is ready for the token in view. -/
def Item.prompt : Item → Bool
  | .option _ b => ready b && promptAll b
  | .many _ _ b => ready b && promptAll b
  | .some _ _ b => ready b && promptAll b
  | .again _ b => ready b && promptAll b
  | .choice _ l r => (ready l && promptAll l) && (ready r && promptAll r)
  | _ => true

def promptAll : List Item → Bool
  | [] => true
  | i :: is => i.prompt && promptAll is

end

theorem promptAll_append (is js : List Item) : promptAll (is ++ js) = (promptAll is && promptAll js) := by
  induction is with
  | nil => rfl
  | cons i is ih => rw [List.cons_append, promptAll, promptAll, ih, Bool.and_assoc]

/-- Items as they are left of a rule: operators come last, and all that can be opened is ready. -/
structure Neat (items : List Item) : Prop where
  tidy : Tidy items
  prompt : promptAll items = true

theorem Neat.nil : Neat [] := ⟨Or.inl rfl, rfl⟩

theorem Neat.tail {i : Item} {is : List Item} (h : Neat (i :: is)) : Neat is := by
  have hp := h.prompt
  rw [promptAll, Bool.and_eq_true] at hp
  exact ⟨h.tidy.tail, hp.2⟩

theorem Rule.prompt_body (r : Rule) : promptAll r.body = true := by cases r <;> decide +kernel

theorem Rule.neat_body (r : Rule) : Neat r.body := ⟨Rule.Starts.tidy (Or.inl rfl), r.prompt_body⟩

theorem neat_expressionBody (level : Nat) : Neat (expressionBody level) := by
  refine ⟨expressionBody_tidy level, ?_⟩
  have h := Rule.expression.prompt_body
  simpa [Rule.body, expressionBody, promptAll, Item.prompt] using h

theorem neat_operatorBody (level bound : Nat) : Neat (operatorBody level bound) := by
  refine ⟨operatorBody_tidy level bound, ?_⟩
  unfold operatorBody
  dsimp only
  split
  · rfl
  · split <;> rfl

/-- A body that an item can be opened to. -/
structure Body (b : List Item) : Prop where
  plain : plainAll b = true
  opens : (ready b && promptAll b) = true

theorem Neat.body {i : Item} {b rest : List Item} (h : Neat (i :: rest)) (hi : ∀ level, i ≠ .operators level)
    (hp : i.plain = true → plainAll b = true) (hb : i.prompt = true → (ready b && promptAll b) = true) : Body b := by
  have hprompt := h.prompt
  rw [promptAll, Bool.and_eq_true] at hprompt
  exact ⟨(h.tidy.body hi hp).1, hb hprompt.1⟩

section

variable {b rest : List Item} {place : Nat}

theorem Body.ready (h : Body b) : (lookAll b).through = false ∧ .endOfText ∉ (lookAll b).kinds ∧
    ∀ k n, leadAll k b = some n → n ≤ 29 := by
  have hopens := h.opens
  simp only [Statechart.ready, Bool.and_eq_true, Bool.not_eq_true', List.all_eq_true, decide_eq_true_eq] at hopens
  obtain ⟨⟨⟨hthrough, hending⟩, hlead⟩, -⟩ := hopens
  refine ⟨hthrough, by simpa using hending, fun k n hn => ?_⟩
  simpa [hn] using hlead k k.mem_all

theorem Body.neat (h : Body b) (hr : Neat rest) : Neat (b ++ rest) := by
  refine ⟨.append h.plain hr.tidy, ?_⟩
  rw [promptAll_append, ((Bool.and_eq_true _ _).mp h.opens).2, hr.prompt]
  rfl

theorem Body.neat_again (h : Body b) (hr : Neat rest) : Neat (b ++ .again place b :: rest) := by
  have hplain : plainAll [.again place b] = true := by simp [plainAll, Item.plain, h.plain]
  refine h.neat ⟨?_, ?_⟩
  · exact Tidy.append hplain hr.tidy
  · rw [promptAll, Item.prompt, h.opens, hr.prompt]
    rfl

end

/-! ## Costs -/

/-- What is left to pay for the items left, with a token of the kind `k` in view. -/
def cost (k : Kind) (items : List Item) : Nat :=
  if k = .endOfText then idleAll items + 32 else (leadAll k items).getD (idleAll items + 32)

variable {items rest : List Item} {i : Item}

theorem cost_of_none (h : leadAll k items = none) : cost k items = idleAll items + 32 := by
  unfold cost
  split
  · rfl
  · rw [h, Option.getD_none]

theorem cost_of_lead (hk : k ≠ .endOfText) (h : leadAll k items = some n) : cost k items = n := by
  rw [cost, if_neg hk, h, Option.getD_some]

theorem Neat.lead_le (h : Neat items) (hn : leadAll k items = some n) : n ≤ idleAll items + 31 := by
  induction items generalizing n with
  | nil => cases hn
  | cons i is ih =>
    cases hi : i.lead k with
    | none =>
      cases ht : i.look.through with
      | false => simp [leadAll_none hi ht] at hn
      | true =>
        rw [leadAll_tail hi ht] at hn
        obtain ⟨m, hm, rfl⟩ := Option.map_eq_some_iff.mp hn
        have := ih h.tail hm
        simp only [idleAll]
        omega
    | some m =>
      rw [leadAll_head hi] at hn
      cases hn
      simp only [idleAll]
      -- a body is left to be read with few steps; a rule takes as many as its table says
      suffices hm : m ≤ i.idle + 31 by omega
      have hbody : ∀ b j, leadAll k b = some j → Body b → j ≤ 29 := fun b j hj hb => hb.ready.2.2 k j hj
      cases i with
      | token place ks slot =>
        simp only [Item.lead, Option.ite_none_right_eq_some, Option.some.injEq] at hi
        omega
      | call r =>
        simp only [Item.lead, Option.ite_none_right_eq_some, Option.some.injEq] at hi
        have : r.lead ≤ r.idle + 31 := by cases r <;> decide
        simp only [Item.idle]
        omega
      | expression level =>
        simp only [Item.lead, Option.ite_none_right_eq_some, Option.some.injEq] at hi
        have : Rule.expression.lead ≤ 29 := by decide
        omega
      | option _ b | many _ _ b | some _ _ b | again _ b =>
        obtain ⟨j, hj, rfl⟩ := Option.map_eq_some_iff.mp hi
        have := hbody b j hj (h.body nofun id id)
        omega
      | choice place l r =>
        obtain ⟨j, hj, rfl⟩ := Option.map_eq_some_iff.mp hi
        rcases Option.or_eq_some_iff.mp hj with hj | ⟨-, hj⟩
        · have := hbody l j hj (h.body nofun (fun hp => ((Bool.and_eq_true _ _).mp hp).1)
            fun hp => ((Bool.and_eq_true _ _).mp hp).1)
          omega
        · have := hbody r j hj (h.body nofun (fun hp => ((Bool.and_eq_true _ _).mp hp).2)
            fun hp => ((Bool.and_eq_true _ _).mp hp).2)
          omega
      | operators level => cases hi

theorem Neat.cost_le (h : Neat items) (k : Kind) : cost k items ≤ idleAll items + 32 := by
  by_cases hk : k = .endOfText
  · exact Nat.le_of_eq (if_pos hk)
  · cases hl : leadAll k items with
    | none => exact Nat.le_of_eq (cost_of_none hl)
    | some n =>
      have := h.lead_le hl
      rw [cost_of_lead hk hl]
      omega

/-- An item that need not be filled is passed over. -/
theorem cost_lt_of_pass (hl : i.lead k = none) (ht : i.look.through = true) : cost k rest < cost k (i :: rest) := by
  have := i.idle_pos
  unfold cost
  rw [leadAll_tail hl ht, idleAll]
  split
  · omega
  · cases leadAll k rest with
    | none => simp only [Option.map_none, Option.getD_none]; omega
    | some n => simp only [Option.map_some, Option.getD_some]; omega

/-- An item is opened to what the token in view is read for. -/
theorem cost_lt_of_body {b more : List Item} (hb : Body b) (hk : k ∈ (lookAll b).kinds)
    (hi : ∀ n, leadAll k b = some n → ∃ m, i.lead k = some m ∧ n + idleAll more < m + idleAll rest) :
    cost k (b ++ more) < cost k (i :: rest) := by
  have hne : k ≠ .endOfText := fun he => hb.ready.2.1 (he ▸ hk)
  obtain ⟨n, hn⟩ := exists_leadAll hb.plain hk
  obtain ⟨m, hm, hlt⟩ := hi n hn
  rw [cost_of_lead hne (leadAll_append hn), cost_of_lead hne (leadAll_head hm)]
  exact hlt

namespace Parser

/-- Opening an item pays for the step. -/
theorem Opens.cost_lt (h : Neat (i :: rest)) (ho : Opens k rest i items) : cost k items < cost k (i :: rest) := by
  cases ho with
  | present hk =>
    refine cost_lt_of_body (h.body nofun id id) hk fun n hn => ⟨n + 1, by simp [Item.lead, hn], ?_⟩
    omega
  | many hk | again hk =>
    refine cost_lt_of_body (h.body nofun id id) hk fun n hn => ⟨n + 2, by simp [Item.lead, hn], ?_⟩
    simp only [idleAll, Item.idle]
    omega
  | absent hk | none hk | enough hk =>
    exact cost_lt_of_pass (by rw [Item.lead, leadAll_eq_none hk, Option.map_none]) rfl
  | @some place again b =>
    have hb : Body b := h.body nofun id id
    by_cases hk : k ∈ (lookAll b).kinds
    · refine cost_lt_of_body hb hk fun n hn => ⟨n + 2, by simp [Item.lead, hn], ?_⟩
      simp only [idleAll, Item.idle]
      omega
    · -- the first round is read even if its first token is missing
      have hnone := leadAll_eq_none hk
      have hi : leadAll k (.some place again b :: rest) = .none :=
        leadAll_none (by rw [Item.lead, hnone, Option.map_none]) hb.ready.1
      rw [cost_of_none (leadAll_append_none hnone hb.ready.1), cost_of_none hi, idleAll_append]
      simp only [idleAll, Item.idle]
      omega
  | left hk =>
    refine cost_lt_of_body (h.body nofun (fun hp => ((Bool.and_eq_true _ _).mp hp).1)
      fun hp => ((Bool.and_eq_true _ _).mp hp).1) hk fun n hn => ⟨n + 1, by simp [Item.lead, hn], ?_⟩
    omega
  | right hl hk =>
    refine cost_lt_of_body (h.body nofun (fun hp => ((Bool.and_eq_true _ _).mp hp).2)
      fun hp => ((Bool.and_eq_true _ _).mp hp).2) hk
      fun n hn => ⟨n + 1, by simp [Item.lead, leadAll_eq_none hl, hn], ?_⟩
    omega
  | operand _ => exact cost_lt_of_pass rfl rfl

theorem Opens.neat (h : Neat (i :: rest)) (ho : Opens k rest i items) : Neat items := by
  cases ho with
  | present _ => exact (h.body nofun id id).neat h.tail
  | many _ | some | again _ => exact (h.body nofun id id).neat_again h.tail
  | absent _ | none _ | enough _ | operand _ => exact h.tail
  | left _ =>
    exact (h.body nofun (fun hp => ((Bool.and_eq_true _ _).mp hp).1) fun hp => ((Bool.and_eq_true _ _).mp hp).1).neat
      h.tail
  | right _ _ =>
    exact (h.body nofun (fun hp => ((Bool.and_eq_true _ _).mp hp).2) fun hp => ((Bool.and_eq_true _ _).mp hp).2).neat
      h.tail

theorem Calls.neat {r : Rule} {body : List Item} (hc : Calls i r body) : Neat body := by
  cases hc with
  | rule => exact r.neat_body
  | expression level => exact neat_expressionBody level

/-- Entering a rule pays for the step and for leaving the rule. -/
theorem Calls.cost_lt {r : Rule} {body : List Item} (hc : Calls i r body) (k : Kind) (rest : List Item) :
    cost k body + idleAll rest + 1 < cost k (i :: rest) := by
  have hlead : leadAll k body = leadAll k r.body ∧ idleAll body = r.idle := by
    cases hc with
    | rule => exact ⟨rfl, r.idle_body⟩
    | expression level => exact ⟨lead_expressionBody level k, idle_expressionBody level⟩
  have hi : i.lead k = (if k ∈ r.opening then some (r.lead + 2) else none) ∧ i.idle = r.idle + 2 ∧
      i.look.through = false := by
    cases hc <;> exact ⟨rfl, rfl, rfl⟩
  obtain ⟨hsome, hle⟩ := r.lead_body k
  by_cases hk : k ∈ r.opening
  · rw [decide_eq_true hk] at hsome
    obtain ⟨n, hn⟩ := Option.isSome_iff_exists.mp hsome
    rw [hn, Option.getD_some] at hle
    have hhead : leadAll k (i :: rest) = some (r.lead + 2 + idleAll rest) := leadAll_head (by rw [hi.1, if_pos hk])
    by_cases he : k = .endOfText
    · rw [cost, if_pos he, cost, if_pos he, idleAll, hlead.2, hi.2.1]
      omega
    · rw [cost_of_lead he (hlead.1.trans hn), cost_of_lead he hhead]
      omega
  · have hnone : leadAll k r.body = none := by simpa [hk] using hsome
    rw [cost_of_none (hlead.1.trans hnone), cost_of_none (leadAll_none (by rw [hi.1, if_neg hk]) hi.2.2), idleAll,
      hlead.2, hi.2.1]
    omega

/-! ## The load of a parser -/

/-- What the rules that wait have left to pay, with one step each to come back to them. -/
def waiting : List Frame → Nat
  | [] => 0
  | c :: cs => idleAll c.todo + 1 + waiting cs

/-- What is left to pay. -/
def load (p : Parser) : Nat := waiting p.callers + 32 * p.ahead.length + cost p.view.kind p.frame.todo

/-- All items left are neat, and the text ends. -/
structure Formed (p : Parser) : Prop where
  frame : Neat p.frame.todo
  callers : ∀ c ∈ p.callers, Neat c.todo
  ending : p.ending.kind = .endOfText

variable {p q : Parser}

theorem load_goOn_le (hi : Neat items) (q : Parser) :
    (q.goOn items).load ≤ waiting q.callers + 32 * q.ahead.length + (idleAll items + 32) :=
  Nat.add_le_add_left (hi.cost_le _) _

theorem Stuck.cost_eq (h : p.Stuck) : cost p.view.kind p.frame.todo = idleAll p.frame.todo + 32 :=
  cost_of_none (leadAll_eq_none h.kind)

theorem Barred.cost_eq (h : Neat (i :: rest)) (hb : Barred k i) : cost k (i :: rest) = idleAll (i :: rest) + 32 := by
  obtain ⟨place, l, r, rfl, hl, hr⟩ := hb
  refine cost_of_none (leadAll_none (by simp [Item.lead, leadAll_eq_none hl, leadAll_eq_none hr]) ?_)
  have hleft : Body l :=
    h.body nofun (fun hp => ((Bool.and_eq_true _ _).mp hp).1) fun hp => ((Bool.and_eq_true _ _).mp hp).1
  have hright : Body r :=
    h.body nofun (fun hp => ((Bool.and_eq_true _ _).mp hp).2) fun hp => ((Bool.and_eq_true _ _).mp hp).2
  simp [Item.look, hleft.ready.1, hright.ready.1]

/-- A token in view that is not the end of the text is ahead. -/
theorem Formed.ahead_ne (h : p.Formed) (hk : p.view.kind ≠ .endOfText) : p.ahead ≠ [] := by
  intro ha
  refine hk ?_
  rw [view, ha, List.headD_nil, h.ending]

theorem take_keeps (p : Parser) (slot : Slot) (rest : List Item) :
    (p.take slot rest).frame.todo = rest ∧ (p.take slot rest).callers = p.callers ∧
      (p.take slot rest).ahead = p.ahead.tail ∧ (p.take slot rest).ending = p.ending := by
  unfold take consume advance
  cases ha : p.ahead <;> cases slot <;> simp [settle, add, remember, goOn, ha]

/-- Reading a token pays for what may then be opened for the next. -/
theorem Formed.load_take {place : Nat} {ks : List Kind} {slot : Slot} (h : p.Formed)
    (ht : p.frame.todo = .token place ks slot :: rest) (hk : p.view.kind ∈ ks) : (p.take slot rest).load < p.load := by
  have hneat : Neat rest := Neat.tail (ht ▸ h.frame)
  obtain ⟨htodo, hcallers, hahead, -⟩ := p.take_keeps slot rest
  have hcost := hneat.cost_le (p.take slot rest).view.kind
  unfold load
  rw [htodo, hcallers, hahead, ht, List.length_tail]
  by_cases he : p.view.kind = .endOfText
  · have hp : cost p.view.kind (.token place ks slot :: rest) = 1 + idleAll rest + 32 := if_pos he
    omega
  · have hpos := List.length_pos_iff.mpr (h.ahead_ne he)
    rw [cost_of_lead he (leadAll_head (n := 1) (by simp [Item.lead, hk]))]
    omega

theorem cost_wrap {bound : Nat} (hk : k.level? = some bound) (level : Nat) :
    cost k (operatorBody level bound) < cost k [.operators level] := by
  have hne : k ≠ .endOfText := by
    rintro rfl
    cases hk
  have hlead : leadAll k (operatorBody level bound) = some 6 := by
    cases k <;> cases hk <;> rfl
  have hall : cost k [.operators level] = 33 := cost_of_none rfl
  rw [cost_of_lead hne hlead, hall]
  decide

/-- A repair is made where no token leads on, so going on with fewer items pays for it. -/
theorem Mends.load_lt (hm : Mends p q) (hcost : cost p.view.kind p.frame.todo = idleAll p.frame.todo + 32)
    (hi : Neat items) (hlt : idleAll items < idleAll p.frame.todo) : (q.goOn items).load < p.load := by
  have hload := load_goOn_le hi q
  have hlen := hm.repairs.length_le
  rw [hm.repairs.keeps.callers] at hload
  have hp : p.load = waiting p.callers + 32 * p.ahead.length + (idleAll p.frame.todo + 32) := by rw [load, hcost]
  omega

theorem Formed.load_opens (h : p.Formed) (ht : p.frame.todo = i :: rest) (hs : Synced p q)
    (ho : Opens q.view.kind rest i items) : (q.goOn items).load < p.load := by
  have hneat : Neat (i :: rest) := ht ▸ h.frame
  have hcost := ho.cost_lt hneat
  have hlen := hs.length_le
  have hq : (q.goOn items).load = waiting p.callers + 32 * q.ahead.length + cost q.view.kind items := by
    rw [← hs.keeps.callers]
    rfl
  -- after a repair another token is in view, but then none led on before
  have hp : waiting p.callers + 32 * p.ahead.length + cost q.view.kind (i :: rest) ≤ p.load := by
    rcases hs with rfl | ⟨hstuck, -⟩
    · exact Nat.le_of_eq (by rw [load, ht])
    · have := hneat.cost_le q.view.kind
      rw [load, hstuck.cost_eq, ht]
      omega
  omega

/-- Every move lowers the load. -/
theorem Moves.load_lt (h : p.Formed) (hm : Moves p q) : q.load < p.load := by
  cases hm with
  | @leave c cs ht hc =>
    have hneat : Neat c.todo := h.callers c (hc ▸ List.mem_cons_self)
    have hcost := hneat.cost_le p.view.kind
    have hp : p.load = idleAll c.todo + 1 + waiting cs + 32 * p.ahead.length + 32 := by
      rw [load, hc, ht, waiting]
      simp [cost, leadAll, idleAll]
    show waiting cs + 32 * p.ahead.length + cost p.view.kind c.todo < _
    omega
  | read ht hk => exact h.load_take ht hk
  | mend ht hk hm =>
    refine hm.load_lt (stuck_of_token ht hk).cost_eq (Neat.tail (ht ▸ h.frame)) ?_
    simp only [ht, idleAll, Item.idle]
    omega
  | @enter i r body rest ht hc =>
    have hcost := hc.cost_lt p.view.kind rest
    show idleAll rest + 1 + waiting p.callers + 32 * p.ahead.length + cost p.view.kind body < _
    rw [load, ht]
    omega
  | opens ht hs ho => exact h.load_opens ht hs ho
  | @giveUp i rest q ht hk hm =>
    have hneat : Neat (i :: rest) := ht ▸ h.frame
    have hpos := i.idle_pos
    refine hm.load_lt ?_ .nil ?_
    · rcases hk with hk | hk
      · exact hk.cost_eq
      · rw [ht]
        exact hk.cost_eq hneat
    · rw [ht, idleAll, idleAll]
      omega
  | @wrap level bound rest ht hk hl =>
    have htidy : Tidy (.operators level :: rest) := ht ▸ h.frame.tidy
    obtain rfl := htidy.operators
    have hcost := cost_wrap hk level
    show waiting p.callers + 32 * p.ahead.length + cost p.view.kind (operatorBody level bound ++ []) < _
    rw [List.append_nil, load, ht]
    omega

theorem Mends.formed (hm : Mends p q) (h : p.Formed) (hi : Neat items) : (q.goOn items).Formed := by
  have hkeeps := hm.repairs.keeps
  refine ⟨hi, ?_, hkeeps.ending ▸ h.ending⟩
  show ∀ c ∈ q.callers, Neat c.todo
  rw [hkeeps.callers]
  exact h.callers

/-- A move leaves all items neat. -/
theorem Moves.formed (h : p.Formed) (hm : Moves p q) : q.Formed := by
  cases hm with
  | @leave c cs ht hc =>
    have hcallers := h.callers
    rw [hc] at hcallers
    exact ⟨hcallers c List.mem_cons_self, fun f hf => hcallers f (List.mem_cons_of_mem _ hf), h.ending⟩
  | @read place ks slot rest ht hk =>
    obtain ⟨htodo, hcallers, -, hending⟩ := p.take_keeps slot rest
    refine ⟨?_, ?_, hending ▸ h.ending⟩
    · rw [htodo]
      exact Neat.tail (ht ▸ h.frame)
    · rw [hcallers]
      exact h.callers
  | mend ht hk hm => exact hm.formed h (Neat.tail (ht ▸ h.frame))
  | enter ht hc =>
    refine ⟨hc.neat, ?_, h.ending⟩
    intro f hf
    rcases List.mem_cons.mp hf with rfl | hf
    · exact Neat.tail (ht ▸ h.frame)
    · exact h.callers f hf
  | opens ht hs ho =>
    have hneat := ho.neat (ht ▸ h.frame)
    rcases hs with rfl | ⟨-, hm⟩
    · exact ⟨hneat, h.callers, h.ending⟩
    · exact hm.formed h hneat
  | giveUp ht hk hm => exact hm.formed h .nil
  | @wrap level bound rest ht hk hl =>
    have htidy : Tidy (.operators level :: rest) := ht ▸ h.frame.tidy
    obtain rfl := htidy.operators
    refine ⟨?_, h.callers, h.ending⟩
    show Neat (operatorBody level bound ++ [])
    rw [List.append_nil]
    exact neat_operatorBody level bound

/-! ## Runs end -/

/-- As many steps as there is load are enough. -/
theorem finished_of_load_le (h : p.Formed) {n : Nat} (hn : p.load ≤ n) : (run n p).finished = true := by
  induction n generalizing p with
  | zero =>
    cases hf : p.finished with
    | true => exact hf
    | false =>
      have := (step_moves hf).load_lt h
      omega
  | succ n ih =>
    rw [run]
    split
    · assumption
    · rename_i hf
      have hm := step_moves (p := p) (by simpa using hf)
      have := hm.load_lt h
      exact ih (hm.formed h) (by omega)

theorem start_formed (r : Rule) {l : Lexed} (hl : l.ending.kind = .endOfText) : (start r l).Formed :=
  ⟨r.neat_body, fun _ hc => (by cases hc), hl⟩

theorem start_load_le (r : Rule) (l : Lexed) : (start r l).load ≤ bound l.tokens.length := by
  have hcost := r.neat_body.cost_le (start r l).view.kind
  have hidle : idleAll r.body ≤ 16 := by
    rw [r.idle_body]
    cases r <;> decide
  show 0 + 32 * l.tokens.length + cost (start r l).view.kind r.body ≤ 64 * (l.tokens.length + 2)
  omega

/-- Reading comes to the end of the first rule within the bound. -/
theorem run_finished (r : Rule) {l : Lexed} (hl : l.ending.kind = .endOfText) {n : Nat}
    (hn : bound l.tokens.length ≤ n) : (run n (start r l)).finished = true :=
  finished_of_load_le (start_formed r hl) (Nat.le_trans (start_load_le r l) hn)

theorem skipTo_of_view {ks : List Kind} (h : p.view.kind = .endOfText ∨ p.sees ks = true) (n : Nat) :
    skipTo ks n p = p := by
  cases n with
  | zero => rfl
  | succ n => rw [skipTo, if_pos h]

/-- Passing over tokens ends at one of the kinds, or at the end of the text, and for no other reason. -/
theorem skipTo_eq {ks : List Kind} (h : p.ending.kind = .endOfText) {n : Nat} (hn : p.ahead.length ≤ n) :
    skipTo ks n p = p.skipUntil ks := by
  unfold skipUntil
  generalize hl : p.ahead.length = m at hn ⊢
  induction m generalizing p n with
  | zero =>
    have hview : p.view.kind = .endOfText := by rw [view, List.length_eq_zero_iff.mp hl, List.headD_nil, h]
    rw [skipTo_of_view (Or.inl hview), skipTo_of_view (Or.inl hview)]
  | succ m ih =>
    obtain ⟨n, rfl⟩ := Nat.exists_eq_add_of_le' (Nat.one_le_of_lt hn)
    rw [skipTo, skipTo]
    split
    · rfl
    · refine ih ?_ ?_ (by omega)
      · rw [(Repairs.pass .nothing).keeps.ending, h]
      · rw [ahead_consume, List.length_tail, hl, Nat.add_sub_cancel]

end Parser

end Statechart
