/-
  Statechart.Proofs.Charts — machines as they are written, and the text they are written in.

  A chart is what a machine says, apart from the identifiers and places that its parts get
  when it is built. Numbers in it are the texts they are written by. Its layout is the list
  of all words of its text, blanks among them: one state or transition a line, and what is
  inside a state further to the right.

  The lexer finds the words of a layout if it cannot go on from any of them into what
  stands behind it (`Spaced`).
  - Blanks, brackets and semicolons are texts of one character only, so no other word goes
    on with one of them (`not_viable_alone`, `not_viable_space`). Only `composite`, a
    possible name of a variable, might go on with a blank.
  - No word goes on behind a bracket, and behind a sign only an arrow does.

  Proved (`Chart.lex_text`): the text of a chart whose words can be written is cut into
  these words, without complaint.
-/

import Statechart.Proofs.Words

namespace Statechart

open Lexer (First Viable Worded CutOff raceAt)
open Text (Pattern)

/-! ## Charts -/

/-- What a guard says: a variable is compared with an expression. -/
structure Condition where
  name : String
  comparison : Comparison
  expression : Expr String

/-- A transition, as it is written in the state it leaves. -/
structure Arrow where
  /-- Without one it leads to FINAL. -/
  target : Option String
  trigger : String
  guard : Option Condition
  assignments : List (String × Expr String)

/-- A state, as it is written. -/
inductive Draft where
  | simple (name : String) (arrows : List Arrow)
  | composite (name : String) (arrows : List Arrow) (initial : String) (states : List Draft)

structure Chart where
  name : String
  initial : String
  states : List Draft

mutual

theorem Draft.induct {P : Draft → Prop} (simple : ∀ name arrows, P (.simple name arrows))
    (composite : ∀ name arrows initial states, (∀ d ∈ states, P d) → P (.composite name arrows initial states)) :
    ∀ d, P d
  | .simple name arrows => simple name arrows
  | .composite name arrows initial states =>
    composite name arrows initial states (Draft.induct_all simple composite states)

theorem Draft.induct_all {P : Draft → Prop} (simple : ∀ name arrows, P (.simple name arrows))
    (composite : ∀ name arrows initial states, (∀ d ∈ states, P d) → P (.composite name arrows initial states)) :
    ∀ ds : List Draft, ∀ d ∈ ds, P d
  | [], _, hd => absurd hd List.not_mem_nil
  | d :: ds, _, hd => (List.mem_cons.mp hd).elim (fun h => h ▸ Draft.induct simple composite d)
      (Draft.induct_all simple composite ds _)

end

mutual

/-- The names of a state and of those inside it. -/
def Draft.names : Draft → List String
  | .simple name _ => [name]
  | .composite name _ _ states => name :: namesOf states

def Draft.namesOf : List Draft → List String
  | [] => []
  | d :: ds => d.names ++ namesOf ds

end

/-! ## Layout -/

/-- A word of a text: its kind and its characters. -/
abbrev Word := Kind × List Char

namespace Word

/-- The word of a kind that has only one. -/
def fixed (k : Kind) : Word := (k, (k.literal?.getD "").toList)

def ofName (x : String) : Word := (.name, x.toList)

def ofVariable (x : String) : Word := (.variable, x.toList)

def ofNumber (x : String) : Word := (.number, x.toList)

def space : Word := (.blank, [' '])

def newline : Word := (.blank, ['\n'])

def indent (depth : Nat) : List Word := List.replicate (2 * depth) space

/-- The characters of some words. -/
def chars (ws : List Word) : List Char := ws.flatMap (·.2)

/-- The words that are no blanks, as the parser reads them. -/
def said (ws : List Word) : List (Kind × String) := (ws.filter (·.1 ≠ .blank)).map Lexer.wordOf

end Word

open Word

def Comparison.kind : Comparison → Kind
  | .equal => .equal
  | .notEqual => .notEqual
  | .less => .less
  | .lessEqual => .lessEqual
  | .greater => .greater
  | .greaterEqual => .greaterEqual

def signLayout (s : Option Sign) : List Word := (s.map fun g => fixed g.word.1).toList

def Expr.layout : Expr String → List Word
  | .binary op l r => l.layout ++ space :: fixed op.kind :: space :: r.layout
  | .paren s e => signLayout s ++ fixed .openParen :: space :: (e.layout ++ [space, fixed .closeParen])
  | .number s x => signLayout s ++ [ofNumber x]
  | .variable s x => signLayout s ++ [ofVariable x]

def Condition.layout (c : Condition) : List Word :=
  fixed .openBracket :: ofVariable c.name :: space :: fixed c.comparison.kind :: space ::
    (c.expression.layout ++ [fixed .closeBracket, space])

def assignmentLayout (a : String × Expr String) : List Word :=
  ofVariable a.1 :: space :: fixed .equal :: space :: (a.2.layout ++ [space, fixed .semicolon, space])

/-- Nothing is written for no assignments. -/
def assignmentsLayout : List (String × Expr String) → List Word
  | [] => []
  | as => fixed .divide :: space :: fixed .openBrace :: space ::
      (as.flatMap assignmentLayout ++ [fixed .closeBrace, space])

def Arrow.head (a : Arrow) : Word :=
  match a.target with
  | none => fixed .final
  | some x => ofName x

def Arrow.layout (a : Arrow) : List Word :=
  fixed .arrow :: space :: a.head :: space :: fixed .colon :: space :: (.text, (Kind.quoted a.trigger).toList) ::
    space :: (a.guard.toList.flatMap Condition.layout ++ (assignmentsLayout a.assignments ++
      [fixed .semicolon, newline]))

/-- The transitions of a state, each in a line of its own. -/
def arrowsLayout (depth : Nat) (as : List Arrow) : List Word := as.flatMap fun a => indent depth ++ a.layout

def initialLayout (x : String) : List Word :=
  [fixed .initial, space, fixed .arrow, space, ofName x, fixed .semicolon, newline]

/-- The line in which a state begins. -/
def headLayout (k : Kind) (x : String) : List Word :=
  [fixed k, space, ofName x, space, fixed .openBrace, newline]

mutual

def Draft.layout (depth : Nat) : Draft → List Word
  | .simple x as =>
    indent depth ++ (headLayout .state x ++ (arrowsLayout (depth + 1) as ++
      (indent depth ++ [fixed .closeBrace, newline])))
  | .composite x as i ds =>
    indent depth ++ (headLayout .composite x ++ (arrowsLayout (depth + 1) as ++ (indent (depth + 1) ++
      (initialLayout i ++ (layoutOf (depth + 1) ds ++ (indent depth ++ [fixed .closeBrace, newline]))))))

def Draft.layoutOf (depth : Nat) : List Draft → List Word
  | [] => []
  | d :: ds => d.layout depth ++ layoutOf depth ds

end

def Chart.layout (c : Chart) : List Word :=
  headLayout .machine c.name ++ (indent 1 ++ (initialLayout c.initial ++ (Draft.layoutOf 1 c.states ++
    [fixed .closeBrace])))

/-- The text of a chart. -/
def Chart.text (c : Chart) : String := .ofList (chars c.layout)

/-! ## Words that can be written -/

/-- The text is a name: no keyword is spelled like it. -/
def IsName (x : String) : Prop := First .name x.toList

/-- The text is a variable, and not the one that might be read together with the word behind it. -/
structure IsVariable (x : String) : Prop where
  first : First .variable x.toList
  ne : x ≠ "composite"

/-- The variables and the numbers of an expression can be written. -/
def Expr.Writable : Expr String → Prop
  | .binary _ l r => l.Writable ∧ r.Writable
  | .paren _ e => e.Writable
  | .number _ x => First .number x.toList
  | .variable _ x => IsVariable x

/-- An expression that can be written, and is read as it stands. -/
structure Expr.Proper (e : Expr String) : Prop where
  writable : e.Writable
  canonical : e.canonical = true

structure Condition.Writable (c : Condition) : Prop where
  name : IsVariable c.name
  expression : c.expression.Proper

structure Arrow.Writable (a : Arrow) : Prop where
  target : ∀ x, a.target = some x → IsName x
  trigger : First .text (Kind.quoted a.trigger).toList
  guard : ∀ c, a.guard = some c → c.Writable
  assignments : ∀ x ∈ a.assignments, IsVariable x.1 ∧ x.2.Proper

/-- A composite state must not be empty. -/
inductive Draft.Writable : Draft → Prop
  | simple {x : String} {as : List Arrow} : IsName x → (∀ a ∈ as, a.Writable) → Writable (.simple x as)
  | composite {x i : String} {as : List Arrow} {ds : List Draft} : IsName x → (∀ a ∈ as, a.Writable) → IsName i →
      ds ≠ [] → (∀ d ∈ ds, d.Writable) → Writable (.composite x as i ds)

structure Chart.Writable (c : Chart) : Prop where
  name : IsName c.name
  initial : IsName c.initial
  nonempty : c.states ≠ []
  states : ∀ d ∈ c.states, d.Writable

/-! ## What a word does not go on with -/

namespace Lexer

variable {u rest : List Char} {c d : Char} {k : Kind}

theorem cutOff_of_not_viable (hfirst : First k u) (h : ∀ c ∈ rest.head?, ¬ Viable (u ++ [c])) :
    CutOff (u ++ rest) (some k) u := by
  refine .readable (List.prefix_append u rest) hfirst.ne_nil hfirst fun j v hv hm => Nat.le_of_not_lt fun hlt => ?_
  obtain ⟨w, rfl⟩ := List.prefix_of_prefix_length_le (List.prefix_append u rest) hv (Nat.le_of_lt hlt)
  rw [List.prefix_append_right_inj] at hv
  cases w with
  | nil => simp at hlt
  | cons c w =>
    obtain ⟨r, rfl⟩ := hv
    exact h c rfl ⟨j, w, by simpa using hm⟩

/-- A character that is found only in texts of one character. -/
def alone (c : Char) : Bool := Kind.all.all fun j => !j.pattern.uses c || j.pattern matches .range _

theorem not_viable_alone (hc : alone c = true) (hu : u ≠ []) : ¬ Viable (u ++ [c]) := by
  rintro ⟨j, v, hm⟩
  have huses := hm.uses (c := c) (by simp)
  have hj := List.all_eq_true.mp hc j j.mem_all
  rw [huses, Bool.not_true, Bool.false_or] at hj
  have hlength : 2 ≤ (u ++ [c] ++ v).length := by
    have := List.length_pos_iff.mpr hu
    simp only [List.length_append, List.length_singleton]
    omega
  generalize j.pattern = p at hm hj
  cases p with
  | range rs =>
    generalize u ++ [c] ++ v = w at hm hlength
    cases hm
    simp at hlength
  | _ => cases hj

theorem eq_composite_of_space {v : List Char} (h : u ++ ' ' :: v = "composite state".toList) :
    u = "composite".toList := by
  -- there is only one blank in it
  have hcount : (u ++ ' ' :: v).count ' ' = 1 := by
    rw [h]
    decide
  have hnone : ' ' ∉ u := by
    rw [List.count_append, List.count_cons_self] at hcount
    exact List.count_eq_zero.mp (by omega)
  have htake : (u ++ ' ' :: v).takeWhile (· ≠ ' ') = u := by
    rw [List.takeWhile_append_of_pos fun c hc => by simpa using fun (e : c = ' ') => hnone (e ▸ hc)]
    simp
  rw [← htake, h]
  decide

theorem not_viable_space (hu : u ≠ []) (hne : u ≠ "composite".toList) : ¬ Viable (u ++ [' ']) := by
  rintro ⟨j, v, hm⟩
  have hblank : ∀ j ∈ Kind.all, j.pattern.uses ' ' = true → j = .blank ∨ j = .composite := by decide +kernel
  rw [List.append_assoc, List.singleton_append] at hm
  rcases hblank j j.mem_all (hm.uses (by simp)) with rfl | rfl
  · obtain ⟨c, hc, -⟩ := blank_of_matches hm
    have := List.length_pos_iff.mpr hu
    have hlength := congrArg List.length hc
    rw [List.length_append, List.length_cons, List.length_singleton] at hlength
    omega
  · exact hne (eq_composite_of_space (Pattern.eq_of_matches_literal hm))

/-- No text goes on behind the character. -/
def closed (c : Char) : Bool := Kind.all.all fun j => (j.pattern.after c).dead || j.pattern.after c = .empty

theorem not_viable_closed (hc : closed c = true) (d : Char) : ¬ Viable ([c] ++ [d]) := by
  rintro ⟨j, v, hm⟩
  have hj := List.all_eq_true.mp hc j j.mem_all
  simp only [Bool.or_eq_true, decide_eq_true_eq] at hj
  exact List.cons_ne_nil d v (nothing_behind hj ((Pattern.after_iff ..).mpr (by simpa using hm)))

/-- Behind a minus only an arrow goes on. -/
theorem not_viable_minus (hd : d ≠ '>') : ¬ Viable (['-'] ++ [d]) := by
  rintro ⟨j, v, hm⟩
  have hall : ∀ j ∈ Kind.all, ((j.pattern.after '-').dead = true ∨ j.pattern.after '-' = .empty) ∨
      j.pattern.after '-' = .char '>' := by decide +kernel
  have hm : (j.pattern.after '-').Matches (d :: v) := (Pattern.after_iff ..).mpr (by simpa using hm)
  rcases hall j j.mem_all with hj | hj
  · exact List.cons_ne_nil d v (nothing_behind hj hm)
  · rw [hj] at hm
    exact hd (List.cons.inj (Pattern.eq_of_matches_char hm)).1

theorem first_unique {j : Kind} (h : First k u) (h' : First j u) : k = j :=
  Option.some.inj ((winner_of_first h).symm.trans (winner_of_first h'))

/-- A number or a variable does not begin like the end of an arrow. -/
theorem head_of_atom (h : First k u) (hk : k = .number ∨ k = .variable) : ∃ c cs, u = c :: cs ∧ c ≠ '>' := by
  obtain ⟨c, cs, rfl⟩ := List.exists_cons_of_ne_nil h.ne_nil
  refine ⟨c, cs, rfl, ?_⟩
  rintro rfl
  have hdead : (k.pattern.after '>').dead = true := by rcases hk with rfl | rfl <;> decide +kernel
  exact (Pattern.dead_iff (k.inhabited_pattern.after '>')).mp hdead cs ((Pattern.after_iff ..).mpr h.1)

end Lexer

/-! ## Spaced words -/

namespace Word

variable {w : Word} {ws : List Word} {k : Kind} {x : String}

/-- The word is of the first kind that it matches, and no keyword begins with it and a blank. -/
structure Sound (w : Word) : Prop where
  first : First w.1 w.2
  ne : w.2 ≠ "composite".toList

theorem first_fixed (hk : k.literal?.isSome = true) : First k (fixed k).2 := by
  have hall : ∀ k ∈ Kind.all, k.literal?.isSome = true → (raceAt (fixed k).2).winner = some k := by decide +kernel
  exact Lexer.first_of_winner (hall k k.mem_all hk)

theorem sound_of_first {u : List Char} (h : First k u) (hk : k ≠ .variable) : Sound (k, u) := by
  refine ⟨h, fun (hu : u = _) => hk ?_⟩
  have hfirst : First .variable "composite".toList := Lexer.first_of_winner (by decide +kernel)
  exact Lexer.first_unique (hu ▸ h) hfirst

theorem sound_fixed (hk : k.literal?.isSome = true) : Sound (fixed k) := by
  refine sound_of_first (first_fixed hk) ?_
  rintro rfl
  cases hk

theorem sound_ofName (h : IsName x) : Sound (ofName x) := sound_of_first h (by decide)

theorem sound_ofVariable (h : IsVariable x) : Sound (ofVariable x) :=
  ⟨h.first, fun hx => h.ne (String.toList_inj.mp hx)⟩

/-- The words end where a blank or another character begins that no text goes on with. -/
def Breaks (ws : List Word) : Prop := ∀ c ∈ (chars ws).head?, c = ' ' ∨ Lexer.alone c = true

/-- Each word is of the first kind that it matches, and does not go on in what stands behind it. -/
inductive Spaced : List Word → Prop
  | nil : Spaced []
  | cons {w : Word} {ws : List Word} : First w.1 w.2 → (∀ c ∈ (chars ws).head?, ¬ Viable (w.2 ++ [c])) → Spaced ws →
      Spaced (w :: ws)

theorem Spaced.worded (h : Spaced ws) : Worded (chars ws) ws := by
  induction h with
  | nil => exact .nil
  | cons hfirst hnext _ ih => exact .cons (Lexer.cutOff_of_not_viable hfirst hnext) ih

theorem breaks_cons {c : Char} {cs : List Char} (hc : c = ' ' ∨ Lexer.alone c = true) (ws : List Word) :
    Breaks ((k, c :: cs) :: ws) := by
  intro d hd
  cases hd
  exact hc

theorem breaks_space (ws : List Word) : Breaks (space :: ws) := breaks_cons (Or.inl rfl) ws

theorem breaks_newline (ws : List Word) : Breaks (newline :: ws) := breaks_cons (Or.inr (by decide +kernel)) ws

theorem breaks_semicolon (ws : List Word) : Breaks (fixed .semicolon :: ws) :=
  show Breaks ((.semicolon, [';']) :: ws) from breaks_cons (Or.inr (by decide +kernel)) ws

theorem breaks_closeBracket (ws : List Word) : Breaks (fixed .closeBracket :: ws) :=
  show Breaks ((.closeBracket, [']']) :: ws) from breaks_cons (Or.inr (by decide +kernel)) ws

namespace Spaced

theorem word (hw : w.Sound) (hb : Breaks ws) (h : Spaced ws) : Spaced (w :: ws) := by
  refine .cons hw.first (fun c hc => ?_) h
  rcases hb c hc with rfl | halone
  · exact Lexer.not_viable_space hw.first.ne_nil hw.ne
  · exact Lexer.not_viable_alone halone hw.first.ne_nil

theorem closed {c : Char} (hfirst : First k [c]) (hc : Lexer.closed c = true) (h : Spaced ws) :
    Spaced ((k, [c]) :: ws) := .cons hfirst (fun d _ => Lexer.not_viable_closed hc d) h

theorem space (h : Spaced ws) : Spaced (Word.space :: ws) :=
  .closed (Lexer.first_of_winner (by decide +kernel)) (by decide +kernel) h

theorem newline (h : Spaced ws) : Spaced (Word.newline :: ws) :=
  .closed (Lexer.first_of_winner (by decide +kernel)) (by decide +kernel) h

theorem indent (h : Spaced ws) (depth : Nat) : Spaced (Word.indent depth ++ ws) := by
  unfold Word.indent
  induction 2 * depth with
  | zero => exact h
  | succ n ih => exact ih.space

/-- A word with a blank behind it. -/
theorem spaced (hw : w.Sound) (h : Spaced ws) : Spaced (w :: Word.space :: ws) := .word hw (breaks_space ws) h.space

theorem fixed (hk : k.literal?.isSome = true) (h : Spaced ws) : Spaced (Word.fixed k :: Word.space :: ws) :=
  .spaced (sound_fixed hk) h

/-- A word at the end of a line. -/
theorem lined (hk : k.literal?.isSome = true) (h : Spaced ws) : Spaced (Word.fixed k :: Word.newline :: ws) :=
  .word (sound_fixed hk) (breaks_newline ws) h.newline

theorem openBracket (h : Spaced ws) : Spaced (Word.fixed .openBracket :: ws) :=
  .closed (first_fixed rfl) (by decide +kernel) h

/-- A sign stands right before a number or a variable. -/
theorem signed (hk : k = .number ∨ k = .variable) {u : List Char} (hfirst : First k u) (s : Option Sign)
    (h : Spaced ((k, u) :: ws)) : Spaced (signLayout s ++ (k, u) :: ws) := by
  obtain ⟨c, cs, rfl, hc⟩ := Lexer.head_of_atom hfirst hk
  rcases s with _ | s
  · exact h
  · cases s with
    | plus => exact .closed (first_fixed (k := .plus) rfl) (by decide +kernel) h
    | minus =>
      refine .cons (first_fixed (k := .minus) rfl) (fun d hd => ?_) h
      cases hd
      exact Lexer.not_viable_minus hc

end Spaced

end Word

/-! ## Layouts are spaced -/

variable {rest : List Word}

theorem Expr.spaced {e : Expr String} (hw : e.Writable) (hc : e.canonical = true) (hb : Breaks rest)
    (h : Spaced rest) : Spaced (e.layout ++ rest) := by
  induction e generalizing rest with
  | binary op l r ihl ihr =>
    obtain ⟨hl, hr, -, -⟩ := canonical_binary.mp hc
    have hop : op.kind.literal?.isSome = true := by rw [op.literal_kind]; rfl
    have hright : Spaced (fixed op.kind :: space :: (r.layout ++ rest)) := .fixed hop (ihr hw.2 hr hb h)
    rw [layout, List.append_assoc]
    exact ihl hw.1 hl (breaks_space _) hright.space
  | paren s e ih =>
    simp only [canonical, Bool.and_eq_true, beq_iff_eq] at hc
    obtain ⟨rfl, hc⟩ := hc
    have hclose : Spaced (space :: fixed .closeParen :: rest) := (Spaced.word (sound_fixed rfl) hb h).space
    have hall := Spaced.fixed (k := .openParen) rfl (ih hw hc (breaks_space _) hclose)
    simpa [layout, signLayout] using hall
  | number s x =>
    rw [layout, List.append_assoc]
    exact .signed (Or.inl rfl) hw s (.word (sound_of_first hw (by decide)) hb h)
  | _ s x =>
    rw [layout, List.append_assoc]
    exact .signed (Or.inr rfl) hw.first s (.word (sound_ofVariable hw) hb h)

theorem Expr.Proper.spaced {e : Expr String} (he : e.Proper) (hb : Breaks rest) (h : Spaced rest) :
    Spaced (e.layout ++ rest) := Expr.spaced he.writable he.canonical hb h

theorem Condition.Writable.spaced {c : Condition} (hc : c.Writable) (h : Spaced rest) :
    Spaced (c.layout ++ rest) := by
  have hkind : c.comparison.kind.literal?.isSome = true := by cases c.comparison <;> rfl
  have hclose : Spaced (fixed .closeBracket :: space :: rest) := .fixed rfl h
  have hall := Spaced.openBracket (.spaced (sound_ofVariable hc.name) (.fixed hkind
    (hc.expression.spaced (breaks_closeBracket _) hclose)))
  simpa [layout] using hall

theorem spaced_assignment {a : String × Expr String} (hx : IsVariable a.1) (he : a.2.Proper) (h : Spaced rest) :
    Spaced (assignmentLayout a ++ rest) := by
  have hend : Spaced (space :: fixed .semicolon :: space :: rest) := (Spaced.fixed rfl h).space
  have hall := Spaced.spaced (sound_ofVariable hx) (.fixed (k := .equal) rfl (he.spaced (breaks_space _) hend))
  simpa [assignmentLayout] using hall

theorem spaced_flatMap {α : Type} {f : α → List Word} {as : List α}
    (hf : ∀ a ∈ as, ∀ rest, Spaced rest → Spaced (f a ++ rest)) (h : Spaced rest) :
    Spaced (as.flatMap f ++ rest) := by
  induction as with
  | nil => exact h
  | cons a as ih =>
    rw [List.flatMap_cons, List.append_assoc]
    exact hf a List.mem_cons_self _ (ih fun b hb => hf b (List.mem_cons_of_mem _ hb))

theorem spaced_assignments {as : List (String × Expr String)} (has : ∀ x ∈ as, IsVariable x.1 ∧ x.2.Proper)
    (h : Spaced rest) : Spaced (assignmentsLayout as ++ rest) := by
  cases as with
  | nil => exact h
  | cons a as =>
    have hend : Spaced (fixed .closeBrace :: space :: rest) := .fixed rfl h
    have hall := Spaced.fixed (k := .divide) rfl (.fixed (k := .openBrace) rfl (spaced_flatMap
      (fun x hx _ h => spaced_assignment (has x hx).1 (has x hx).2 h) hend))
    simpa [assignmentsLayout] using hall

theorem Arrow.Writable.spaced {a : Arrow} (ha : a.Writable) (h : Spaced rest) : Spaced (a.layout ++ rest) := by
  have hhead : a.head.Sound := by
    unfold Arrow.head
    cases htarget : a.target with
    | none => exact sound_fixed rfl
    | some x => exact sound_ofName (ha.target x htarget)
  have hend : Spaced (fixed .semicolon :: newline :: rest) := .lined rfl h
  have hguard : ∀ c ∈ a.guard.toList, ∀ rest, Spaced rest → Spaced (c.layout ++ rest) := fun c hc _ h =>
    (ha.guard c (Option.mem_toList.mp hc)).spaced h
  have hall := Spaced.fixed (k := .arrow) rfl (.spaced hhead (.fixed (k := .colon) rfl (.spaced
    (sound_of_first ha.trigger (by decide)) (spaced_flatMap hguard (spaced_assignments ha.assignments hend)))))
  simpa [layout] using hall

theorem spaced_arrows {as : List Arrow} (has : ∀ a ∈ as, a.Writable) (depth : Nat) (h : Spaced rest) :
    Spaced (arrowsLayout depth as ++ rest) := by
  refine spaced_flatMap (fun a ha rest h => ?_) h
  rw [List.append_assoc]
  exact ((has a ha).spaced h).indent depth

theorem spaced_initial {x : String} (hx : IsName x) (h : Spaced rest) : Spaced (initialLayout x ++ rest) :=
  .fixed rfl (.fixed rfl (.word (sound_ofName hx) (breaks_semicolon _) (.lined rfl h)))

theorem spaced_head {k : Kind} {x : String} (hk : k.literal?.isSome = true) (hx : IsName x) (h : Spaced rest) :
    Spaced (headLayout k x ++ rest) := .fixed hk (.spaced (sound_ofName hx) (.lined rfl h))

theorem spaced_layoutOf {ds : List Draft} {depth : Nat}
    (hds : ∀ d ∈ ds, ∀ rest, Spaced rest → Spaced (d.layout depth ++ rest)) (h : Spaced rest) :
    Spaced (Draft.layoutOf depth ds ++ rest) := by
  induction ds with
  | nil => exact h
  | cons d ds ih =>
    rw [Draft.layoutOf, List.append_assoc]
    exact hds d List.mem_cons_self _ (ih fun e he => hds e (List.mem_cons_of_mem _ he))

theorem Draft.Writable.spaced {d : Draft} (hd : d.Writable) (depth : Nat) (h : Spaced rest) :
    Spaced (d.layout depth ++ rest) := by
  induction d using Draft.induct generalizing depth rest with
  | simple x as =>
    cases hd with
    | simple hx has =>
      have hend : Spaced (fixed .closeBrace :: newline :: rest) := .lined rfl h
      simpa [layout] using (spaced_head rfl hx (spaced_arrows has (depth + 1) (hend.indent depth))).indent depth
  | composite x as i ds ih =>
    cases hd with
    | composite hx has hi _ hds =>
      have hend : Spaced (fixed .closeBrace :: newline :: rest) := .lined rfl h
      have hstates := spaced_layoutOf (fun d hd _ h => ih d hd (hds d hd) (depth + 1) h) (hend.indent depth)
      have hinitial := (spaced_initial hi hstates).indent (depth + 1)
      simpa [layout] using (spaced_head rfl hx (spaced_arrows has (depth + 1) hinitial)).indent depth

theorem Chart.Writable.spaced {c : Chart} (hc : c.Writable) : Spaced c.layout := by
  have hend : Spaced [fixed .closeBrace] := .word (sound_fixed rfl) (fun c hc => by cases hc) .nil
  have hstates := spaced_layoutOf (fun d hd _ h => (hc.states d hd).spaced 1 h) hend
  exact spaced_head rfl hc.name ((spaced_initial hc.initial hstates).indent 1)

/-- The text of a chart is cut into its words. -/
theorem Chart.lex_text {c : Chart} (hc : c.Writable) :
    (lex c.text).complaints = [] ∧ (lex c.text).tokens.map Token.word = said c.layout := by
  have hworded : Worded c.text.toList c.layout := by
    rw [Chart.text, String.toList_ofList]
    exact hc.spaced.worded
  exact hworded.lex

end Statechart
