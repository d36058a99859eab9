/-
  Statechart.Proofs.Acceptance — the parser accepts the grammar and nothing else.

  That what is accepted is in the grammar is known of every tree without complaint
  (`Derived.isDerivation`). For the other direction, let the tokens ahead be derived from
  what the rule being read and its callers still ask for (`Promising`). Then the token in
  view fits, so nothing is repaired, and one token decides each option, repetition and
  choice as the derivation does: what may stand in an item and what may stand behind it
  begin differently (`sureAll`).

  Only operators are not decided so. Where an operator is next, the derivation may leave
  it to a calling rule; but then that rule, too, asks for operators at its front, and the
  operator may as well be read here (`Absorbs`). For this, what waits for an
  expression must not begin with an operator of another use (`calm`).

  Proved (`accepts_exactly_the_grammar`): a machine is read without complaint if and only
  if its tokens are derived, and the tree is then a derivation of them.
-/

import Statechart.Proofs.Language
import Statechart.Proofs.Lossless

namespace Statechart

/-! ## First tokens -/

/-- What the one may begin with, with the other behind it. -/
def Look.then (l m : Look) : Look := if l.through then ⟨l.kinds ++ m.kinds, m.through⟩ else l

mutual

/-- What the tokens that a phrase derives may begin with. -/
def Phrase.look : Phrase → Look
  | .token ks => ⟨ks, false⟩
  | .rule r => ⟨r.opening, false⟩
  | .seq ps => lookPhrases ps
  | .option b => ⟨(lookPhrases b).kinds, true⟩
  | .star b => ⟨(lookPhrases b).kinds, true⟩
  | .plus b => lookPhrases b
  | .either l r => ⟨(lookPhrases l).kinds ++ (lookPhrases r).kinds, (lookPhrases l).through || (lookPhrases r).through⟩

def lookPhrases : List Phrase → Look
  | [] => ⟨[], true⟩
  | p :: ps => p.look.then (lookPhrases ps)

end

namespace Look

/-- The tokens begin with one that may come next, or there are none and none need come. -/
def Allows (l : Look) : List Token → Prop
  | [] => l.through = true
  | t :: _ => t.kind ∈ l.kinds

variable {l m l' m' : Look} {u v w : List Token}

theorem Allows.cons (h : l.Allows w) (ht : l.through = false) : ∃ t v, w = t :: v ∧ t.kind ∈ l.kinds := by
  cases w with
  | nil =>
    rw [Allows, ht] at h
    cases h
  | cons t v => exact ⟨t, v, rfl, h⟩

theorem Allows.then (hu : l.Allows u) (hv : m.Allows v) : (l.then m).Allows (u ++ v) := by
  unfold Look.then
  split
  · cases u with
    | cons t u => exact List.mem_append_left _ hu
    | nil =>
      cases v with
      | nil => exact hv
      | cons t v => exact List.mem_append_right _ hv
  · rename_i ht
    obtain ⟨t, u, rfl, hk⟩ := hu.cons (by simpa using ht)
    exact hk

/-- Whatever the one allows, the other does. -/
structure Within (l m : Look) : Prop where
  kinds : ∀ k ∈ l.kinds, k ∈ m.kinds
  through : l.through = true → m.through = true

theorem Within.allows (h : l.Within m) (hw : l.Allows w) : m.Allows w := by
  cases w with
  | nil => exact h.through hw
  | cons t w => exact h.kinds _ hw

theorem Within.then (h : l.Within l') (h' : m.Within m') : (l.then m).Within (l'.then m') := by
  unfold Look.then
  by_cases ht : l.through = true
  · rw [if_pos ht, if_pos (h.through ht)]
    refine ⟨fun k hk => ?_, h'.through⟩
    rcases List.mem_append.mp hk with hk | hk
    · exact List.mem_append_left _ (h.kinds k hk)
    · exact List.mem_append_right _ (h'.kinds k hk)
  · rw [if_neg ht]
    refine ⟨fun k hk => ?_, fun h => absurd h ht⟩
    split
    · exact List.mem_append_left _ (h.kinds k hk)
    · exact h.kinds k hk

end Look

/-- The tokens a rule may open with are those its right-hand side says. -/
theorem Rule.look_production (r : Rule) : (lookPhrases r.production).Within ⟨r.opening, false⟩ := by
  cases r <;> exact ⟨by decide, by decide⟩

theorem Phrase.Derives.look {p : Phrase} {w : List Token} (h : p.Derives w) : p.look.Allows w := by
  induction h with
  | token hk => exact hk
  | @rule r w _ ih => exact r.look_production.allows ih
  | nil => rfl
  | cons _ _ ih ih' => exact ih.then ih'
  | absent => rfl
  | enough => rfl
  | @present b w _ ih =>
    cases w with
    | nil => rfl
    | cons t w => exact ih
  | @again b u v _ _ ih ih' =>
    cases u with
    | nil => exact ih'
    | cons t u => exact ih
  | @some b u v _ _ ih ih' =>
    cases u with
    | cons t u => exact ih
    | nil =>
      cases v with
      | nil => exact ih
      | cons t v => exact ih'
  | @left l r w _ ih =>
    cases w with
    | nil => simpa [Phrase.look, Look.Allows] using Or.inl ih
    | cons t w => exact List.mem_append_left _ ih
  | @right l r w _ ih =>
    cases w with
    | nil => simpa [Phrase.look, Look.Allows] using Or.inr ih
    | cons t w => exact List.mem_append_right _ ih

mutual

/-- What a phrase may begin with the parser expects of the item. -/
theorem Item.look_phrase : ∀ i : Item, i.phrase.look.Within i.look
  | .token _ _ _ => ⟨fun _ h => h, id⟩
  | .call _ => ⟨fun _ h => h, id⟩
  | .expression 0 => ⟨fun _ h => h, id⟩
  | .expression (_ + 1) => ⟨fun _ h => h, id⟩
  | .option _ b => ⟨(look_phrasesOf b).kinds, id⟩
  | .many _ _ b => ⟨(look_phrasesOf b).kinds, id⟩
  | .some _ _ b => look_phrasesOf b
  | .again _ b => ⟨(look_phrasesOf b).kinds, id⟩
  | .choice _ l r => by
    have hl := look_phrasesOf l
    have hr := look_phrasesOf r
    refine ⟨fun k hk => ?_, fun h => ?_⟩
    · rcases List.mem_append.mp hk with hk | hk
      · exact List.mem_append_left _ (hl.kinds k hk)
      · exact List.mem_append_right _ (hr.kinds k hk)
    · rcases Bool.or_eq_true_iff.mp h with h | h
      · exact Bool.or_eq_true_iff.mpr (Or.inl (hl.through h))
      · exact Bool.or_eq_true_iff.mpr (Or.inr (hr.through h))
  | .operators level => ⟨fun k hk => (List.mem_filter.mp hk).1, id⟩

theorem look_phrasesOf : ∀ is : List Item, (lookPhrases (phrasesOf is)).Within (lookAll is)
  | [] => ⟨fun _ h => h, id⟩
  | i :: is => i.look_phrase.then (look_phrasesOf is)

end

/-! ## Decisions by one token -/

/-- What comes behind an item in its rule: what it may begin with, and whether operators in front of it are asked for
    as such. -/
structure Behind where
  look : Look
  calm : Bool

def Behind.nothing : Behind := ⟨⟨[], true⟩, true⟩

/-- The item begins with no operator, unless it asks for operators. -/
def Item.calm : Item → Bool
  | .operators _ => true
  | i => i.look.kinds.all fun k => k.level?.isNone

def Item.before (i : Item) (f : Behind) : Behind := ⟨i.look.then f.look, i.calm && (!i.look.through || f.calm)⟩

def Behind.items (f : Behind) (is : List Item) : Behind := is.foldr Item.before f

/-- Two parts of a rule cannot be passed without reading, and begin differently. -/
def Look.differs (l m : Look) : Bool := !l.through && !m.through && l.kinds.all fun k => !m.kinds.contains k

mutual

/-- The token in view tells how to go on with the item when this comes behind it. -/
def Item.sure (f : Behind) : Item → Bool
  | .token _ _ _ => true
  | .call _ => f.calm
  | .expression _ => f.calm
  | .option _ b => (lookAll b).differs f.look && sureAll f b
  | .many _ again b => (lookAll b).differs f.look && sureAll ((Item.again again b).before f) b
  | .some _ again b => (lookAll b).differs f.look && sureAll ((Item.again again b).before f) b
  | .again place b => (lookAll b).differs f.look && sureAll ((Item.again place b).before f) b
  | .choice _ l r => (lookAll l).differs (lookAll r) && sureAll f l && sureAll f r
  | .operators _ => f.calm

def sureAll (f : Behind) : List Item → Bool
  | [] => true
  | i :: is => i.sure (f.items is) && sureAll f is

end

theorem look_items (is : List Item) : (Behind.nothing.items is).look = lookAll is := by
  induction is with
  | nil => rfl
  | cons i is ih => exact congrArg i.look.then ih

theorem sureAll_append (f : Behind) (is js : List Item) :
    sureAll f (is ++ js) = (sureAll (f.items js) is && sureAll f js) := by
  induction is with
  | nil => rfl
  | cons i is ih =>
    rw [List.cons_append, sureAll, sureAll, ih, Bool.and_assoc, Behind.items, Behind.items, Behind.items,
      List.foldr_append]

theorem sureAll_rounds {f : Behind} {place : Nat} {b rest : List Item}
    (hb : (Item.again place b).sure (f.items rest) = true)
    (hr : sureAll f rest = true) : sureAll f (b ++ .again place b :: rest) = true := by
  rw [sureAll_append, sureAll, hb, hr]
  rw [Item.sure, Bool.and_eq_true] at hb
  exact Bool.and_eq_true_iff.mpr ⟨hb.2, rfl⟩

theorem Rule.sure_body (r : Rule) : sureAll .nothing r.body = true := by cases r <;> decide +kernel

theorem sure_expressionBody (level : Nat) : sureAll .nothing (expressionBody level) = true := rfl

theorem sure_operatorBody {f : Behind} (hf : f.calm = true) (level bound : Nat) :
    sureAll f (operatorBody level bound) = true := by
  have hoperators : ((Item.operators level).before f).calm = true := hf
  unfold operatorBody
  dsimp only
  split
  · simp [sureAll, tok, Item.sure, Behind.items, hf, hoperators]
  · split <;> simp [sureAll, Item.sure, Behind.items, hf, hoperators]

/-- The items of an operator ask for that operator first. -/
theorem operatorBody_eq {k : Kind} {bound : Nat} (hk : k.level? = some bound) (level : Nat) : ∃ place ks slot,
    operatorBody level bound = [.token place ks slot, .expression (bound + 1), .operators level] ∧ k ∈ ks := by
  cases k <;> cases hk <;> exact ⟨_, _, _, rfl, by decide⟩

theorem Look.differs_iff {l m : Look} : l.differs m = true ↔
    l.through = false ∧ m.through = false ∧ ∀ k ∈ l.kinds, k ∉ m.kinds := by
  simp [Look.differs, and_assoc]

theorem mem_operatorsFrom {level : Nat} {k : Kind} :
    k ∈ operatorsFrom level ↔ ∃ bound, k.level? = some bound ∧ level ≤ bound := by
  have hmem : k.level?.isSome = true → k ∈ operators := by cases k <;> decide
  simp only [operatorsFrom, List.mem_filter, Option.any_eq_true, decide_eq_true_eq]
  exact ⟨fun h => h.2, fun ⟨bound, hb, hl⟩ => ⟨hmem (by rw [hb]; rfl), bound, hb, hl⟩⟩

namespace Phrase

variable {is rest items : List Item} {i : Item} {ps : List Phrase} {w : List Token} {k : Kind}

theorem Derives.allows (h : Derives (.seq (phrasesOf is)) w) : (lookAll is).Allows w :=
  (look_phrasesOf is).allows h.look

/-- Where items must be read, the first token is one they may begin with. -/
theorem Derives.first (h : Derives (.seq (phrasesOf is ++ ps)) w) (ht : (lookAll is).through = false) :
    ∃ t v, w = t :: v ∧ t.kind ∈ (lookAll is).kinds := by
  obtain ⟨u, v, rfl, hu, -⟩ := h.split
  obtain ⟨t, u, rfl, hk⟩ := hu.allows.cons ht
  exact ⟨t, u ++ v, rfl, hk⟩

theorem Derives.append_phrasesOf {u v : List Token} (hu : Derives (.seq (phrasesOf is)) u)
    (hv : Derives (.seq (phrasesOf rest ++ ps)) v) : Derives (.seq (phrasesOf (is ++ rest) ++ ps)) (u ++ v) := by
  rw [phrasesOf_append, List.append_assoc]
  exact hu.append hv

/-- The tokens begin with one of the kind `k`, if there are any. -/
def Faces (k : Kind) (w : List Token) : Prop := ∀ t v, w = t :: v → t.kind = k

theorem Derives.mem_look {u v : List Token} (h : Derives (.seq (phrasesOf is)) u) (ht : (lookAll is).through = false)
    (hk : Faces k (u ++ v)) : k ∈ (lookAll is).kinds := by
  obtain ⟨t, u, rfl, hm⟩ := h.allows.cons ht
  rwa [← hk t (u ++ v) rfl]

/-- Where the token in view opens an item, the tokens are not derived from what comes behind it. -/
theorem Derives.not_behind (h : Derives (.seq (phrasesOf rest ++ ps)) w)
    (hd : (lookAll is).differs (lookAll rest) = true) (hk : Faces k w) : k ∉ (lookAll is).kinds := by
  obtain ⟨-, ht, hdiff⟩ := Look.differs_iff.mp hd
  obtain ⟨t, v, rfl, hm⟩ := h.first ht
  rw [hk t v rfl] at hm
  exact fun hi => hdiff k hi hm

/-- Rounds: the token in view tells whether there is one more. -/
theorem Derives.rounds (place : Nat) {b : List Item} (hd : (lookAll b).differs (lookAll rest) = true)
    (h : Derives (.seq (.star (phrasesOf b) :: (phrasesOf rest ++ ps))) w) (hk : Faces k w) :
    (k ∈ (lookAll b).kinds → Derives (.seq (phrasesOf (b ++ .again place b :: rest) ++ ps)) w) ∧
    (k ∉ (lookAll b).kinds → Derives (.seq (phrasesOf rest ++ ps)) w) := by
  cases h with
  | cons hstar hrest =>
    cases hstar with
    | enough => exact ⟨fun hi => absurd hi (hrest.not_behind hd hk), fun _ => hrest⟩
    | again hb hmore =>
      rw [List.append_assoc] at hk ⊢
      exact ⟨fun _ => hb.append_phrasesOf (.cons hmore hrest),
        fun hi => absurd (hb.mem_look (Look.differs_iff.mp hd).1 hk) hi⟩

/-- The token in view decides as the derivation does. -/
theorem Derives.opens (hs : sureAll .nothing (i :: rest) = true) (ho : Parser.Opens k rest i items) (hk : Faces k w)
    (h : Derives (.seq (phrasesOf (i :: rest) ++ ps)) w) : Derives (.seq (phrasesOf items ++ ps)) w := by
  rw [sureAll, Bool.and_eq_true] at hs
  have hsure := hs.1
  cases ho with
  | present hi =>
    simp only [Item.sure, look_items, Bool.and_eq_true] at hsure
    cases h with
    | cons hoption hrest =>
      cases hoption with
      | absent => exact absurd hi (hrest.not_behind hsure.1 hk)
      | present hb => exact hb.append_phrasesOf hrest
  | absent hi =>
    simp only [Item.sure, look_items, Bool.and_eq_true] at hsure
    cases h with
    | cons hoption hrest =>
      cases hoption with
      | absent => exact hrest
      | present hb => exact absurd (hb.mem_look (Look.differs_iff.mp hsure.1).1 hk) hi
  | many hi =>
    simp only [Item.sure, look_items, Bool.and_eq_true] at hsure
    exact (Derives.rounds _ hsure.1 h hk).1 hi
  | none hi =>
    simp only [Item.sure, look_items, Bool.and_eq_true] at hsure
    exact (Derives.rounds 0 hsure.1 h hk).2 hi
  | again hi =>
    simp only [Item.sure, look_items, Bool.and_eq_true] at hsure
    exact (Derives.rounds _ hsure.1 h hk).1 hi
  | enough hi =>
    simp only [Item.sure, look_items, Bool.and_eq_true] at hsure
    exact (Derives.rounds 0 hsure.1 h hk).2 hi
  | some =>
    cases h with
    | cons hplus hrest =>
      cases hplus with
      | some hb hmore =>
        rw [List.append_assoc]
        exact hb.append_phrasesOf (.cons hmore hrest)
  | left hi =>
    simp only [Item.sure, Bool.and_eq_true] at hsure
    obtain ⟨-, hr, hdiff⟩ := Look.differs_iff.mp hsure.1.1
    cases h with
    | cons heither hrest =>
      cases heither with
      | left hl => exact hl.append_phrasesOf hrest
      | right hd => exact absurd (hd.mem_look hr hk) (hdiff k hi)
  | right hi _ =>
    simp only [Item.sure, Bool.and_eq_true] at hsure
    obtain ⟨hl, -, -⟩ := Look.differs_iff.mp hsure.1.1
    cases h with
    | cons heither hrest =>
      cases heither with
      | left hd => exact absurd (hd.mem_look hl hk) hi
      | right hr => exact hr.append_phrasesOf hrest
  | operand hi =>
    cases h with
    | cons hstar hrest =>
      cases hstar with
      | enough => exact hrest
      | again hb _ =>
        cases hb with
        | cons ht _ =>
          cases ht with
          | @token _ t ht =>
            obtain ⟨bound, hb, hl⟩ := mem_operatorsFrom.mp ht
            rw [hk t _ rfl] at hb
            exact absurd hl (Nat.not_le.mpr (hi bound hb))

/-! ## Operators left to calling rules -/

/-- Where these phrases derive tokens that begin with an operator, they ask for operators at their front: without the
    operator and an operand behind it, the tokens are still derived. -/
def Absorbs (ps : List Phrase) : Prop :=
  ∀ (t : Token) (w : List Token), t.kind.level?.isSome = true → Derives (.seq ps) (t :: w) →
    ∃ u v, w = u ++ v ∧ Derives .operand u ∧ Derives (.seq ps) v

theorem absorbs_nil : Absorbs [] := fun _ _ _ h => by cases h

theorem absorbs_operations (level : Nat) (h : Absorbs ps) : Absorbs (.operations level :: ps) := by
  intro t w ht hd
  generalize hw : t :: w = tw at hd
  cases hd with
  | cons hstar hrest =>
    cases hstar with
    | enough =>
      subst hw
      obtain ⟨u, v, rfl, hu, hv⟩ := h _ _ ht hrest
      exact ⟨u, v, rfl, hu, .cons .enough hv⟩
    | again hb hmore =>
      cases hb with
      | cons htoken hoperand =>
        cases htoken with
        | token _ =>
          obtain ⟨rfl, rfl⟩ := List.cons.inj hw
          exact ⟨_, _, List.append_assoc .., derives_one.mp hoperand, .cons hmore hrest⟩

theorem absorbs_item (hi : (i.look.kinds.all fun k => k.level?.isNone) = true)
    (h : i.look.through = true → Absorbs ps) : Absorbs (i.phrase :: ps) := by
  intro t w ht hd
  generalize hw : t :: w = tw at hd
  cases hd with
  | @cons _ _ u v hphrase hrest =>
    have hallows := i.look_phrase.allows hphrase.look
    cases u with
    | nil =>
      rw [List.nil_append] at hw
      subst hw
      obtain ⟨u, v, rfl, hu, hv⟩ := h hallows _ _ ht hrest
      exact ⟨u, v, rfl, hu, .cons hphrase hv⟩
    | cons s u =>
      obtain ⟨rfl, -⟩ := List.cons.inj hw
      have hnone := List.all_eq_true.mp hi _ hallows
      rw [Option.isNone_iff_eq_none] at hnone
      rw [hnone] at ht
      cases ht

theorem absorbs_phrasesOf (his : (Behind.nothing.items is).calm = true) (h : Absorbs ps) :
    Absorbs (phrasesOf is ++ ps) := by
  induction is with
  | nil => exact h
  | cons i is ih =>
    have hcalm : i.calm = true ∧ (i.look.through = true → Absorbs (phrasesOf is ++ ps)) := by
      simp only [Behind.items, List.foldr_cons, Item.before, Bool.and_eq_true, Bool.or_eq_true,
        Bool.not_eq_true'] at his
      refine ⟨his.1, fun ht => ih (his.2.resolve_left ?_)⟩
      rw [ht]
      exact Bool.noConfusion
    cases i with
    | operators level => exact absorbs_operations level (hcalm.2 rfl)
    | _ => exact absorbs_item hcalm.1 hcalm.2

/-- An operator may be read with an operand behind it, wherever the derivation has them. -/
theorem Derives.wrap {level bound : Nat} {t : Token} (hk : t.kind.level? = .some bound)
    (ha : Absorbs (phrasesOf (.operators level :: rest) ++ ps))
    (h : Derives (.seq (phrasesOf (.operators level :: rest) ++ ps)) (t :: w)) :
    Derives (.seq (phrasesOf (operatorBody level bound ++ rest) ++ ps)) (t :: w) := by
  obtain ⟨u, v, rfl, hu, hv⟩ := ha t w (by rw [hk]; rfl) h
  obtain ⟨place, ks, slot, hbody, hmem⟩ := operatorBody_eq hk level
  have hright : Derives (.seq [.operand, .operations (bound + 1)]) (u ++ []) := .cons hu (derives_one.mpr .enough)
  rw [List.append_nil] at hright
  rw [hbody]
  exact .cons (.token hmem) (.cons hright hv)

end Phrase

/-- A rule that is called, or an expression at a level, is derived from the items it is read by. -/
theorem Parser.Calls.derives {i : Item} {r : Rule} {body : List Item} {w : List Token} (hc : Calls i r body)
    (h : i.phrase.Derives w) : Phrase.Derives (.seq (phrasesOf body)) w := by
  have hexpression {w : List Token} (h : Phrase.Derives (.rule .expression) w) :
      Phrase.Derives (.seq (phrasesOf (expressionBody 0))) w := by
    cases h with
    | rule h => exact h.flat
  cases hc with
  | rule r =>
    by_cases hr : r = .expression
    · subst hr
      exact hexpression h
    · rw [Rule.phrasesOf_body hr]
      cases h with
      | rule h => exact h
  | expression level =>
    cases level with
    | zero => exact hexpression h
    | succ level => exact h

theorem Parser.Calls.sure {i : Item} {r : Rule} {body : List Item} (hc : Calls i r body) :
    sureAll .nothing body = true := by
  cases hc with
  | rule r => exact r.sure_body
  | expression level => exact sure_expressionBody level

/-- What an item is replaced by is sure, and what comes behind it. -/
theorem Parser.Opens.sure {k : Kind} {i : Item} {rest items : List Item} (hs : sureAll .nothing (i :: rest) = true)
    (ho : Opens k rest i items) : sureAll .nothing items = true := by
  rw [sureAll, Bool.and_eq_true] at hs
  obtain ⟨hi, hrest⟩ := hs
  cases ho with
  | absent _ => exact hrest
  | none _ => exact hrest
  | enough _ => exact hrest
  | operand _ => exact hrest
  | present _ =>
    rw [Item.sure, Bool.and_eq_true] at hi
    rw [sureAll_append, hi.2, hrest]
    rfl
  | left _ =>
    rw [Item.sure, Bool.and_eq_true, Bool.and_eq_true] at hi
    rw [sureAll_append, hi.1.2, hrest]
    rfl
  | right _ _ =>
    rw [Item.sure, Bool.and_eq_true, Bool.and_eq_true] at hi
    rw [sureAll_append, hi.2, hrest]
    rfl
  | many _ => exact sureAll_rounds hi hrest
  | some => exact sureAll_rounds hi hrest
  | again _ => exact sureAll_rounds hi hrest

namespace Parser

variable {p q : Parser}

/-- What some rules still ask for, the one begun last first. -/
def pending : List Frame → List Phrase
  | [] => []
  | f :: fs => phrasesOf f.todo ++ pending fs

/-- A rule that waits for an expression, or for a part of one, asks for operators at its front if at all. -/
structure Composed (f : Frame) : Prop where
  sure : sureAll .nothing f.todo = true
  calm : (Behind.nothing.items f.todo).calm = true

/-- Nothing was complained of, and the tokens ahead are what is still asked for. -/
structure Promising (p : Parser) : Prop where
  complaints : p.complaints = []
  ending : p.ending.kind = .endOfText
  sure : sureAll .nothing p.frame.todo = true
  callers : ∀ f ∈ p.callers, Composed f
  derives : ∃ m, Phrase.Derives (.seq (phrasesOf p.frame.todo ++ pending p.callers))
    (p.ahead ++ List.replicate m p.ending)

theorem faces_view (p : Parser) (m : Nat) : Phrase.Faces p.view.kind (p.ahead ++ List.replicate m p.ending) := by
  intro t v h
  rw [view]
  cases ha : p.ahead with
  | nil =>
    rw [ha, List.nil_append] at h
    rw [List.headD_nil, List.eq_of_mem_replicate (h ▸ List.mem_cons_self .. : t ∈ List.replicate m p.ending)]
  | cons s ts =>
    rw [ha] at h
    rw [List.headD_cons, (List.cons.inj h).1]

theorem Promising.not_stuck (h : p.Promising) : ¬ p.Stuck := by
  intro hs
  obtain ⟨m, hd⟩ := h.derives
  obtain ⟨t, v, he, hk⟩ := hd.first hs.through
  rw [p.faces_view m t v he] at hk
  exact hs.kind hk

/-- One of the two sides of a choice begins with the token in view. -/
theorem Promising.not_barred {i : Item} {rest : List Item} (h : p.Promising) (ht : p.frame.todo = i :: rest) :
    ¬ Barred p.view.kind i := by
  rintro ⟨place, left, right, rfl, hl, hr⟩
  obtain ⟨m, hd⟩ := h.derives
  have hface := p.faces_view m
  have hsure := h.sure
  rw [ht, sureAll, Item.sure, Bool.and_eq_true, Bool.and_eq_true, Bool.and_eq_true] at hsure
  obtain ⟨htl, htr, -⟩ := Look.differs_iff.mp hsure.1.1.1
  rw [ht] at hd
  generalize p.ahead ++ List.replicate m p.ending = w at hd hface
  cases hd with
  | cons heither _ =>
    cases heither with
    | left hd => exact hl (hd.mem_look htl hface)
    | right hd => exact hr (hd.mem_look htr hface)

theorem Promising.leave {c : Frame} {cs : List Frame} (h : p.Promising) (ht : p.frame.todo = [])
    (hc : p.callers = c :: cs) :
    (add { p with frame := c, callers := cs } p.close).Promising := by
  obtain ⟨m, hd⟩ := h.derives
  have hcallers := h.callers
  rw [hc] at hcallers hd
  rw [ht] at hd
  exact ⟨h.complaints, h.ending, (hcallers c (List.mem_cons_self ..)).sure,
    fun f hf => hcallers f (List.mem_cons_of_mem _ hf), m, hd⟩

theorem Promising.read {place : Nat} {ks : List Kind} {slot : Slot} {rest : List Item} (h : p.Promising)
    (ht : p.frame.todo = .token place ks slot :: rest) : (p.take slot rest).Promising := by
  obtain ⟨m, hd⟩ := h.derives
  obtain ⟨htodo, hcallers, hahead, hending⟩ := p.take_keeps slot rest
  have hsure := h.sure
  rw [ht, sureAll, Bool.and_eq_true] at hsure
  refine ⟨by rw [complaints_take]; exact h.complaints, hending ▸ h.ending, htodo ▸ hsure.2, hcallers ▸ h.callers, ?_⟩
  rw [htodo, hcallers, hahead, hending]
  have htail : Phrase.Derives (.seq (phrasesOf rest ++ pending p.callers))
      (p.ahead ++ List.replicate m p.ending).tail := by
    rw [ht] at hd
    generalize p.ahead ++ List.replicate m p.ending = w at hd
    cases hd with
    | cons htoken hrest =>
      cases htoken with
      | token _ => exact hrest
  cases ha : p.ahead with
  | nil =>
    rw [ha, List.nil_append, List.tail_replicate] at htail
    exact ⟨m - 1, htail⟩
  | cons t ts =>
    rw [ha] at htail
    exact ⟨m, htail⟩

theorem Promising.enter {i : Item} {r : Rule} {body rest : List Item} (h : p.Promising) (ht : p.frame.todo = i :: rest)
    (hc : Calls i r body) : (p.enter r body rest).Promising := by
  obtain ⟨m, hd⟩ := h.derives
  have hsure := h.sure
  rw [ht, sureAll, Bool.and_eq_true] at hsure
  have hcalm : (Behind.nothing.items rest).calm = true := by
    cases hc with
    | rule r => exact hsure.1
    | expression level => exact hsure.1
  refine ⟨h.complaints, h.ending, hc.sure, fun f hf => ?_, m, ?_⟩
  · rcases List.mem_cons.mp hf with rfl | hf
    · exact ⟨hsure.2, hcalm⟩
    · exact h.callers f hf
  · rw [ht] at hd
    show Phrase.Derives (.seq (phrasesOf body ++ (phrasesOf rest ++ pending p.callers)))
      (p.ahead ++ List.replicate m p.ending)
    generalize p.ahead ++ List.replicate m p.ending = w at hd
    cases hd with
    | cons hcall hrest => exact (hc.derives hcall).append hrest

theorem absorbs_pending {fs : List Frame} (h : ∀ f ∈ fs, Composed f) : Phrase.Absorbs (pending fs) := by
  induction fs with
  | nil => exact Phrase.absorbs_nil
  | cons f fs ih =>
    exact Phrase.absorbs_phrasesOf (h f (List.mem_cons_self ..)).calm (ih fun g hg => h g (List.mem_cons_of_mem _ hg))

theorem Promising.wrap {level bound : Nat} {rest : List Item} (h : p.Promising)
    (ht : p.frame.todo = .operators level :: rest)
    (hk : p.view.kind.level? = some bound) : (p.wrap (operatorBody level bound ++ rest)).Promising := by
  obtain ⟨m, hd⟩ := h.derives
  have hsure := h.sure
  rw [ht, sureAll, Bool.and_eq_true] at hsure
  refine ⟨h.complaints, h.ending, ?_, h.callers, m, ?_⟩
  · show sureAll .nothing (operatorBody level bound ++ rest) = true
    rw [sureAll_append, sure_operatorBody hsure.1, hsure.2]
    rfl
  · show Phrase.Derives (.seq (phrasesOf (operatorBody level bound ++ rest) ++ pending p.callers))
      (p.ahead ++ List.replicate m p.ending)
    rw [ht] at hd
    -- the end of the text is no operator
    cases ha : p.ahead with
    | nil =>
      rw [view, ha, List.headD_nil, h.ending] at hk
      cases hk
    | cons t ts =>
      rw [view, ha, List.headD_cons] at hk
      rw [ha] at hd
      exact .wrap hk (Phrase.absorbs_phrasesOf hsure.1 (absorbs_pending h.callers)) hd

theorem Moves.promising (h : p.Promising) (hm : Moves p q) : q.Promising := by
  cases hm with
  | leave ht hc => exact h.leave ht hc
  | read ht _ => exact h.read ht
  | mend ht hk _ => exact absurd (stuck_of_token ht hk) h.not_stuck
  | enter ht hc => exact h.enter ht hc
  | opens ht hs ho =>
    rcases hs with rfl | ⟨hstuck, -⟩
    · have hsure := h.sure
      obtain ⟨m, hd⟩ := h.derives
      rw [ht] at hsure hd
      exact ⟨h.complaints, h.ending, ho.sure hsure, h.callers, m, hd.opens hsure ho (faces_view _ m)⟩
    · exact absurd hstuck h.not_stuck
  | giveUp ht hk _ =>
    rcases hk with hk | hk
    · exact absurd hk h.not_stuck
    · exact absurd hk (h.not_barred ht)
  | wrap ht hk _ => exact h.wrap ht hk

theorem start_promising {r : Rule} {l : Lexed} (hl : l.ending.kind = .endOfText)
    (h : Phrase.Derives (.rule r) (l.tokens ++ [l.ending])) : (start r l).Promising := by
  refine ⟨rfl, hl, r.sure_body, fun f hf => (by cases hf), 1, ?_⟩
  rw [show (start r l).callers = [] from rfl, pending, List.append_nil]
  exact (Calls.rule r).derives h

/-! ## Reading without complaint -/

/-- The first rule, when others may have been begun for it. -/
def root (r : Rule) : List Frame → Rule
  | [] => r
  | f :: fs => root f.rule fs

theorem Moves.root (hm : Moves p q) : Parser.root q.frame.rule q.callers = Parser.root p.frame.rule p.callers := by
  cases hm with
  | leave _ hc =>
    rw [hc]
    rfl
  | @read _ _ slot rest _ _ =>
    obtain ⟨hrule, -, -, hcallers, -⟩ := p.frame_take slot rest
    rw [hrule, hcallers]
  | mend _ _ hm =>
    show Parser.root _ _ = _
    rw [← hm.repairs.keeps.rule, ← hm.repairs.keeps.callers]
    rfl
  | enter _ _ => rfl
  | opens _ hs _ =>
    rw [← hs.keeps.rule, ← hs.keeps.callers]
    rfl
  | giveUp _ _ hm =>
    rw [← hm.repairs.keeps.rule, ← hm.repairs.keeps.callers]
    rfl
  | wrap _ _ _ => rfl

/-- Without complaint nothing is put in, so the tokens in the tree and those ahead are those of the text. -/
theorem Fair.account {l : Lexed} (h : p.Fair) (ha : p.complaints = [] → Account (fun _ => true) l p) (n : Nat)
    (hc : (Parser.run n p).complaints = []) : Account (fun _ => true) l (Parser.run n p) := by
  refine h.run_quiet (fun o q hm ho hcandid hq => ?_) (ha (run_complaints hc)) n hc
  exact hm.account (fun _ _ => rfl) rfl (Or.inr ⟨hcandid, hq⟩) ho

/-- What is made of some tokens by a rule. -/
def outcome (r : Rule) (l : Lexed) : Parser := run (bound l.tokens.length) (start r l)

theorem outcome_finished {r : Rule} {l : Lexed} (hl : l.ending.kind = .endOfText) : (outcome r l).finished = true :=
  run_finished r hl (Nat.le_refl _)

/-- A rule that is read without complaint is a derivation. -/
theorem outcome_isDerivation {r : Rule} {l : Lexed} (hl : l.ending.kind = .endOfText)
    (hc : (outcome r l).complaints = []) :
    (outcome r l).close.IsDerivation ∧ (outcome r l).close.hasRule r = true ∧
      Phrase.Derives (.rule r) (outcome r l).close.tokens := by
  have hfair : (outcome r l).Fair := (start_fair r l).run _
  have hroot : Parser.root (outcome r l).frame.rule (outcome r l).callers = r :=
    run_induction (P := fun p => Parser.root p.frame.rule p.callers = r) (fun p q hp hm => hm.root.trans hp) rfl _
  have hend := outcome_finished (r := r) hl
  simp only [finished, Bool.and_eq_true, List.isEmpty_iff] at hend
  rw [hend.1, Parser.root] at hroot
  have hderivation := ((hfair hc).2.close (by rw [hend.2]; exact .done)).isDerivation
  have hderives : Phrase.Derives (.rule (outcome r l).frame.rule) (outcome r l).close.tokens := hderivation.derives
  rw [hroot] at hderives
  exact ⟨hderivation, beq_iff_eq.mpr hroot, hderives⟩

/-- The tokens below it and those ahead are the tokens of the text, with the end of the text as often as it was read. -/
theorem outcome_tokens {r : Rule} {l : Lexed} (hl : l.ending.kind = .endOfText) (hc : (outcome r l).complaints = []) :
    (outcome r l).ending = l.ending ∧ ∃ m, (0 < m → (outcome r l).ahead = []) ∧
      (outcome r l).close.tokens ++ (outcome r l).ahead = l.tokens ++ List.replicate m l.ending := by
  have haccount : Account (fun _ => true) l (outcome r l) :=
    Fair.account (start_fair r l) (fun _ => start_account _ r l) _ hc
  obtain ⟨m, hm, htokens⟩ := haccount.tokens
  rw [List.filter_eq_self.mpr fun _ _ => rfl, ← tokens_close (outcome_finished hl)] at htokens
  exact ⟨haccount.ending, m, hm, htokens⟩

end Parser

/-! ## The end of the text -/

mutual

/-- The phrase asks nowhere for the end of the text. -/
def Phrase.inner : Phrase → Bool
  | .token ks => !ks.contains .endOfText
  | .rule r => r != .machine && r != .file
  | .seq ps => innerAll ps
  | .option b => innerAll b
  | .star b => innerAll b
  | .plus b => innerAll b
  | .either l r => innerAll l && innerAll r

def innerAll : List Phrase → Bool
  | [] => true
  | p :: ps => p.inner && innerAll ps

end

theorem Rule.inner_production (r : Rule) : (r != .machine && r != .file) = true → innerAll r.production = true := by
  cases r <;> decide

theorem Phrase.Derives.inner {p : Phrase} {w : List Token} (h : p.Derives w) (hp : p.inner = true) :
    ∀ t ∈ w, t.kind ≠ .endOfText := by
  induction h with
  | @token ks t hk =>
    intro s hs he
    rw [List.mem_singleton.mp hs] at he
    rw [he] at hk
    simp [Phrase.inner, hk] at hp
  | @rule r w _ ih => exact ih (r.inner_production hp)
  | nil => exact fun t ht => by cases ht
  | absent => exact fun t ht => by cases ht
  | enough => exact fun t ht => by cases ht
  | cons _ _ ih ih' =>
    simp only [Phrase.inner, innerAll, Bool.and_eq_true] at hp
    exact fun t ht => (List.mem_append.mp ht).elim (ih hp.1 t) (ih' hp.2 t)
  | present _ ih => exact ih hp
  | again _ _ ih ih' => exact fun t ht => (List.mem_append.mp ht).elim (ih hp t) (ih' hp t)
  | some _ _ ih ih' => exact fun t ht => (List.mem_append.mp ht).elim (ih hp t) (ih' hp t)
  | left _ ih =>
    simp only [Phrase.inner, Bool.and_eq_true] at hp
    exact ih hp.1
  | right _ ih =>
    simp only [Phrase.inner, Bool.and_eq_true] at hp
    exact ih hp.2

/-- A machine ends with the end of the text, and has it nowhere else. -/
theorem Phrase.Derives.machine {w : List Token} (h : Derives (.rule .machine) w) :
    ∃ v t, w = v ++ [t] ∧ t.kind = .endOfText ∧ ∀ s ∈ v, s.kind ≠ .endOfText := by
  cases h with
  | rule h =>
    have h : Derives (.seq (Rule.machine.production.dropLast ++ [.token [.endOfText]])) w := h
    obtain ⟨v, u, rfl, hv, hu⟩ := h.split
    cases derives_one.mp hu with
    | @token _ t ht => exact ⟨v, t, rfl, List.mem_singleton.mp ht, hv.inner rfl⟩

/-- Tokens that end with the only end of the text are all of the text, if they are read from its start. -/
theorem eq_of_ending {v xs ahead : List Token} {t e : Token} {m : Nat} (ht : t.kind = .endOfText)
    (he : e.kind = .endOfText) (hv : ∀ s ∈ v, s.kind ≠ .endOfText) (hxs : ∀ s ∈ xs, s.kind ≠ .endOfText)
    (hm : 0 < m → ahead = []) (h : (v ++ [t]) ++ ahead = xs ++ List.replicate m e) : v ++ [t] = xs ++ [e] := by
  cases m with
  | zero =>
    have hmem : t ∈ xs := by
      rw [List.replicate_zero, List.append_nil] at h
      rw [← h]
      simp
    exact absurd ht (hxs t hmem)
  | succ m =>
    rw [hm (Nat.succ_pos m), List.append_nil, List.replicate_succ', ← List.append_assoc] at h
    obtain ⟨hinit, hlast⟩ := List.append_inj' h rfl
    cases m with
    | zero => rw [hinit, hlast, List.replicate_zero, List.append_nil]
    | succ m => exact absurd he (hv e (by rw [hinit]; simp))

/-- For tokens that end with the end of the text, and have it nowhere else, reading a machine complains of nothing if
    and only if the grammar derives them from it. The tree is then a derivation of a machine, its tokens are all
    tokens in order, and none of them was put in or passed over. -/
theorem accepts_exactly_the_grammar (l : Lexed) (hend : l.ending.kind = .endOfText)
    (hmid : ∀ t ∈ l.tokens, t.kind ≠ .endOfText) :
    ((Parser.outcome .machine l).complaints = [] ↔ Phrase.Derives (.rule .machine) (l.tokens ++ [l.ending])) ∧
    ((Parser.outcome .machine l).complaints = [] →
      (Parser.outcome .machine l).close.IsDerivation ∧ (Parser.outcome .machine l).close.hasRule .machine = true ∧
        (Parser.outcome .machine l).close.tokens = l.tokens ++ [l.ending] ∧
        (Parser.outcome .machine l).close.faults = []) := by
  have hread (hc : (Parser.outcome .machine l).complaints = []) :
      (Parser.outcome .machine l).close.IsDerivation ∧ (Parser.outcome .machine l).close.hasRule .machine = true ∧
        Phrase.Derives (.rule .machine) (l.tokens ++ [l.ending]) ∧
        (Parser.outcome .machine l).close.tokens = l.tokens ++ [l.ending] := by
    obtain ⟨hderivation, hrule, hderives⟩ := Parser.outcome_isDerivation hend hc
    obtain ⟨-, m, hm, htokens⟩ := Parser.outcome_tokens hend hc
    obtain ⟨v, t, hvt, ht, hv⟩ := hderives.machine
    rw [hvt] at htokens hderives
    have hall := eq_of_ending ht hend hv hmid hm htokens
    exact ⟨hderivation, hrule, hall ▸ hderives, hvt.trans hall⟩
  have haccept (h : Phrase.Derives (.rule .machine) (l.tokens ++ [l.ending])) :
      (Parser.outcome .machine l).Promising :=
    Parser.run_induction (fun _ _ hp hm => hm.promising hp) (Parser.start_promising hend h) _
  refine ⟨⟨fun hc => (hread hc).2.2.1, fun h => (haccept h).complaints⟩, fun hc => ?_⟩
  obtain ⟨hderivation, hrule, -, htokens⟩ := hread hc
  exact ⟨hderivation, hrule, htokens, hderivation.faults⟩

namespace Counter

def text : String := r"StateMachine Counter {INITIAL->Idle;state Idle{->Idle:'count'[n<9]/{n=n+2*(n-1);};}}"

/-- A machine must have a state. -/
def stateless : String := "StateMachine Counter {INITIAL->Idle;}"

end Counter

theorem counter_accepted_stateless_refused :
    (Parser.outcome .machine (lex Counter.text)).complaints = [] ∧
      Phrase.Derives (.rule .machine) ((lex Counter.text).tokens ++ [(lex Counter.text).ending]) ∧
      (Parser.outcome .machine (lex Counter.text)).close.faults = [] ∧
      ¬ Phrase.Derives (.rule .machine) ((lex Counter.stateless).tokens ++ [(lex Counter.stateless).ending]) := by
  have haccepts := accepts_exactly_the_grammar (lex Counter.text) rfl fun t ht => kind_ne_of_lex ht
  have hrefuses := accepts_exactly_the_grammar (lex Counter.stateless) rfl fun t ht => kind_ne_of_lex ht
  have hcounter : (Parser.outcome .machine (lex Counter.text)).complaints = [] := by decide +kernel
  have hstateless : (Parser.outcome .machine (lex Counter.stateless)).complaints ≠ [] := by decide +kernel
  exact ⟨hcounter, haccepts.1.mp hcounter, (haccepts.2 hcounter).2.2.2, fun h => hstateless (hrefuses.1.mpr h)⟩

end Statechart
