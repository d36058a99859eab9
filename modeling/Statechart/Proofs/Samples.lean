/-
  Statechart.Proofs.Samples — the samples are the rings that they are meant to be.

  Each sample is the text of a chart (`demo_eq_text`, `ring_eq_text`). The charts are correct
  whatever their size: their words can be written, their states have distinct names, since
  `letters` names every number differently, and every transition leads round the ring, to
  the state it leaves, or to FINAL.

  Proved (`samples_build_rings`): every sample is read without complaint and built. The
  demonstration with `n` states has `n` simple states in a composite one and one beside it;
  each of the `n` leads to the next, the last to the first, and then to itself. The ring has
  at least two simple states, each leading to the next, and the last one to FINAL as well.
-/

import Statechart.Proofs.Construction
import Statechart.Proofs.Letters

namespace Statechart.Sample

open Word
open Lexer (First raceAt)
open Text (Pattern)

/-! ## Charts of the samples -/

def comparisonAt (i : Nat) : Comparison :=
  ([.equal, .notEqual, .less, .lessEqual, .greater, .greaterEqual][i % 6]?).getD .equal

def operatorAt (i : Nat) : Operator := ([.plus, .minus, .times, .divide, .power][i % 5]?).getD .plus

/-- Go on to the next state of the demonstration. -/
def demoStep (n i : Nat) : Arrow where
  target := some (demoName ((i + 1) % n))
  trigger := "ev" ++ letters (i % 7 : Nat)
  guard := some ⟨"x", comparisonAt i, .number none (Nat.repr (i % 5))⟩
  assignments :=
    [("x", .binary (operatorAt i) (.variable none "x") (.number none "1")),
     ("y", .binary .times (.paren none (.binary .plus (.variable (some .minus) "z") (.number none (Nat.repr (i % 3)))))
        (.number none "2"))]

def demoDraft (n i : Nat) : Draft := .simple (demoName i) [demoStep n i, ⟨some (demoName i), "stay", none, []⟩]

/-- A transition to FINAL, without more. -/
def halt : Arrow := ⟨none, "halt", none, []⟩

def exit : Arrow := ⟨some "Tail", "exit", some ⟨"x", .greater, .number none "0"⟩,
  [("x", .binary .plus (.variable none "x") (.number none "1"))]⟩

def back : Arrow := ⟨some "Wrap", "back", some ⟨"y", .lessEqual, .number none "9"⟩,
  [("z", .binary .minus (.variable (some .plus) "y")
    (.paren none (.binary .divide (.variable none "x") (.number none "2"))))]⟩

def quit : Arrow := ⟨none, "quit", some ⟨"y", .greaterEqual, .number none "0"⟩, []⟩

def demoChart (n : Nat) : Chart where
  name := "Demo"
  initial := "Wrap"
  states :=
    [.composite "Wrap" [exit, halt] (demoName 0) ((List.range n).map (demoDraft n)), .simple "Tail" [back, quit]]

/-- Go on to the next state of the ring. -/
def ringStep (m i : Nat) : Arrow where
  target := some (ringName ((i + 1) % m))
  trigger := "hop"
  guard := none
  assignments :=
    [("x", .number none (Nat.repr (i % 9))),
     ("y", .binary .plus (.variable none "x") (.number none (Nat.repr (i % 4))))]

def ringDraft (m i : Nat) : Draft :=
  .simple (ringName i) (ringStep m i :: if i + 1 = m then [halt] else [])

def ringChart (m : Nat) : Chart := ⟨"Ring", ringName 0, (List.range m).map (ringDraft m)⟩

/-! ## Samples are texts of charts -/

@[simp] theorem chars_nil : chars [] = [] := rfl

@[simp] theorem chars_cons (w : Word) (ws : List Word) : chars (w :: ws) = w.2 ++ chars ws := rfl

@[simp] theorem chars_append (us ws : List Word) : chars (us ++ ws) = chars us ++ chars ws := by simp [chars]

theorem chars_layoutOf (depth : Nat) (ds : List Draft) :
    chars (Draft.layoutOf depth ds) = ds.flatMap fun d => chars (d.layout depth) := by
  induction ds with
  | nil => rfl
  | cons d ds ih => rw [Draft.layoutOf, chars_append, ih, List.flatMap_cons]

theorem inTurn_comparisons (i : Nat) : inTurn comparisons i = (comparisonAt i).kind.spelling := by
  have hall : ∀ j < 6, (comparisons[j]?).getD "" = (([.equal, .notEqual, .less, .lessEqual, .greater,
      .greaterEqual][j]?).getD .equal : Comparison).kind.spelling := by
    decide
  exact hall (i % 6) (Nat.mod_lt i (by decide))

theorem inTurn_operators (i : Nat) : inTurn operators i = (operatorAt i).kind.spelling := by
  have hall : ∀ j < 5, (operators[j]?).getD "" =
      (([.plus, .minus, .times, .divide, .power][j]?).getD .plus : Operator).kind.spelling := by
    decide
  exact hall (i % 5) (Nat.mod_lt i (by decide))

theorem chars_ringDraft (m i : Nat) : chars ((ringDraft m i).layout 1) = (ringState m i).toList := by
  unfold ringState ringDraft ringStep halt
  by_cases h : i + 1 = m <;>
    simp [h, Draft.layout, headLayout, arrowsLayout, Arrow.layout, Arrow.head, assignmentsLayout, assignmentLayout,
      Expr.layout, signLayout, indent, List.replicate, space, newline, fixed, ofName, ofVariable, ofNumber,
      Kind.literal?, Kind.quoted, Operator.kind]

theorem chars_demoDraft (n i : Nat) : chars ((demoDraft n i).layout 2) = (demoState n i).toList := by
  unfold demoState demoDraft demoStep
  rw [inTurn_comparisons, inTurn_operators]
  simp [Draft.layout, headLayout, arrowsLayout, Arrow.layout, Arrow.head, Condition.layout, assignmentsLayout,
    assignmentLayout, Expr.layout, signLayout, Sign.word, indent, List.replicate, space, newline, fixed, ofName,
    ofVariable, ofNumber, Kind.literal?, Kind.spelling, Kind.quoted, Operator.kind]

/-- A line with a transition in it. -/
def line (depth : Nat) (a : Arrow) : List Char := chars (indent depth ++ a.layout)

theorem chars_arrowsLayout (depth : Nat) (as : List Arrow) :
    chars (arrowsLayout depth as) = as.flatMap (line depth) := by
  rw [chars, arrowsLayout, List.flatMap_assoc]
  rfl

theorem line_exit : line 2 exit = "    -> Tail : 'exit' [x > 0] / { x = x + 1 ; } ;\n".toList := by decide

theorem line_halt : line 2 halt = "    -> FINAL : 'halt' ;\n".toList := by decide

theorem line_back : line 2 back = "    -> Wrap : 'back' [y <= 9] / { z = +y - ( x / 2 ) ; } ;\n".toList := by
  decide

theorem line_quit : line 2 quit = "    -> FINAL : 'quit' [y >= 0] ;\n".toList := by decide

theorem toList_text (c : Chart) : c.text.toList =
    ("StateMachine " ++ c.name ++ r" {" ++ "\n  INITIAL -> " ++ c.initial ++ ";\n").toList ++
      ((c.states.flatMap fun d => chars (d.layout 1)) ++ r"}".toList) := by
  rw [Chart.text, String.toList_ofList, ← chars_layoutOf]
  simp [Chart.layout, headLayout, initialLayout, indent, List.replicate, space, newline, fixed, ofName, Kind.literal?]

theorem ring_eq_text (n : Int) : ring n = (ringChart (ringSize n)).text := by
  have hstates : (ringChart (ringSize n)).states.flatMap (fun d => chars (d.layout 1)) =
      (String.join ((List.range (ringSize n)).map (ringState (ringSize n)))).toList := by
    simp only [ringChart, String.toList_join, List.flatMap_map, chars_ringDraft]
  have htext := toList_text (ringChart (ringSize n))
  rewrite [hstates] at htext
  refine String.toList_inj.mp (Eq.trans ?_ htext.symm)
  clear htext hstates
  unfold ring
  generalize String.join _ = states
  simp [ringChart]

theorem demo_eq_text {n : Nat} (hn : 0 < n) : demo n = .ok (demoChart n).text := by
  have hstates : chars (Draft.layoutOf 2 ((List.range n).map (demoDraft n))) =
      (String.join ((List.range n).map (demoState n))).toList := by
    simp only [chars_layoutOf, String.toList_join, List.flatMap_map, chars_demoDraft]
  have htext := toList_text (demoChart n)
  simp only [demoChart, List.flatMap_cons, List.flatMap_nil, Draft.layout, Nat.reduceAdd, chars_append, hstates,
    chars_arrowsLayout, List.append_nil, List.append_assoc] at htext
  obtain ⟨n, rfl⟩ := Nat.exists_eq_succ_of_ne_zero (Nat.ne_of_gt hn)
  unfold demo
  refine congrArg Except.ok (String.toList_inj.mp (Eq.trans ?_ htext.symm))
  clear htext hstates
  simp only [Int.toNat_natCast, String.toList_append, List.append_assoc, ← line_exit, ← line_halt, ← line_back,
    ← line_quit]
  -- what is left are the lines around these
  generalize String.join _ = states, line 2 exit = a, line 2 halt = b, line 2 back = c, line 2 quit = d
  simp [headLayout, initialLayout, indent, List.replicate, space, newline, fixed, ofName, Kind.literal?]

/-! ## Words of the samples -/

/-- The kinds that win over names. -/
def beforeNames : List Kind := [.endOfText, .openBrace, .closeBrace, .semicolon, .colon, .openBracket, .closeBracket,
  .machine, .state, .composite, .arrow, .initial, .final, .text]

theorem matches_letters {u : List Char} (hu : ∀ d ∈ u, IsLetter d) :
    (Pattern.star (.range [Kind.lower, Kind.upper])).Matches u := by
  induction u with
  | nil => exact .done
  | cons d u ih =>
    obtain ⟨hd, hu⟩ := List.forall_mem_cons.mp hu
    have hrange : Pattern.inRanges d [Kind.lower, Kind.upper] = true := by
      have hbounds := isLetter_iff.mp hd
      simp only [Pattern.inRanges, List.any_cons, Bool.or_eq_true, Bool.and_eq_true, decide_eq_true_eq]
      exact Or.inl hbounds
    exact .more (.range hrange) (ih hu)

/-- A capital letter and small letters are a name. The first letter rules out most keywords, and the small letters the
    one that is left. -/
theorem first_name {c : Char} {u : List Char} (hc : c = 'S' ∨ c = 'R') (hu : ∀ d ∈ u, IsLetter d) :
    First .name (c :: u) := by
  have hupper : Pattern.inRanges c [Kind.upper] = true := by rcases hc with rfl | rfl <;> decide
  have hdead : ∀ j ∈ beforeNames, (j.pattern.after c).dead = true ∨ j = .machine := by
    rcases hc with rfl | rfl <;> decide +kernel
  refine ⟨.seq (.range hupper) (matches_letters hu), beforeNames, _, rfl, fun j hj hm => ?_⟩
  rcases hdead j hj with hdead | rfl
  · exact (Pattern.dead_iff (j.inhabited_pattern.after c)).mp hdead u ((Pattern.after_iff ..).mpr hm)
  · have heq : c :: u = "StateMachine".toList := Pattern.eq_of_matches_literal hm
    have hmem : 'M' ∈ u := by
      rw [(List.cons.inj heq).2]
      decide
    exact absurd (isLetter_iff.mp (hu 'M' hmem)).1 (by decide)

theorem isName_demoName (i : Nat) : IsName (demoName i) := by
  rw [IsName, demoName, String.toList_append, toList_letters]
  exact first_name (Or.inl rfl) fun d hd => isLetter_of_mem_spell hd

theorem isName_ringName (i : Nat) : IsName (ringName i) := by
  rw [IsName, ringName, String.toList_append, toList_letters]
  exact first_name (Or.inr rfl) fun d hd => isLetter_of_mem_spell hd

theorem isName_fixed (x : String) (hx : x ∈ ["Demo", "Wrap", "Tail", "Ring"]) : IsName x := by
  have hall : ∀ x ∈ ["Demo", "Wrap", "Tail", "Ring"], (raceAt x.toList).winner = some .name := by decide +kernel
  exact Lexer.first_of_winner (hall x hx)

theorem isVariable_fixed (x : String) (hx : x ∈ ["x", "y", "z"]) : IsVariable x := by
  have hall : ∀ x ∈ ["x", "y", "z"], (raceAt x.toList).winner = some .variable ∧ x ≠ "composite" := by decide +kernel
  exact ⟨Lexer.first_of_winner (hall x hx).1, (hall x hx).2⟩

theorem first_repr {j : Nat} (hj : j < 10) : First .number (Nat.repr j).toList := by
  have hall : ∀ j < 10, (raceAt (Nat.repr j).toList).winner = some .number := by decide +kernel
  exact Lexer.first_of_winner (hall j hj)

theorem first_trigger (x : String) (hx : x ∈ ["stay", "halt", "exit", "back", "quit", "hop"]) :
    First .text (Kind.quoted x).toList := by
  have hall : ∀ x ∈ ["stay", "halt", "exit", "back", "quit", "hop"],
      (raceAt (Kind.quoted x).toList).winner = some .text := by decide +kernel
  exact Lexer.first_of_winner (hall x hx)

theorem first_event (i : Nat) : First .text (Kind.quoted ("ev" ++ letters (i % 7 : Nat))).toList := by
  have hall : ∀ j < 7, (raceAt ('\'' :: 'e' :: 'v' :: ([letter j] ++ ['\'']))).winner = some .text := by decide +kernel
  have hlt : i % 7 < 7 := Nat.mod_lt i (by decide)
  have hletters : (letters (i % 7 : Nat)).toList = [letter (i % 7)] := by
    rw [toList_letters, spell_of_lt (by omega)]
  have htext : (Kind.quoted ("ev" ++ letters (i % 7 : Nat))).toList =
      '\'' :: 'e' :: 'v' :: ([letter (i % 7)] ++ ['\'']) := by
    rw [Kind.quoted, String.toList_append, String.toList_append, String.toList_append, hletters]
    rfl
  rw [htext]
  exact Lexer.first_of_winner (hall _ hlt)

/-! ## Transitions of the samples -/

theorem isVariable_x : IsVariable "x" := isVariable_fixed "x" (by decide)

theorem isVariable_y : IsVariable "y" := isVariable_fixed "y" (by decide)

theorem isVariable_z : IsVariable "z" := isVariable_fixed "z" (by decide)

theorem proper_repr {j : Nat} (hj : j < 10) : (Expr.number none (Nat.repr j)).Proper := ⟨first_repr hj, rfl⟩

theorem writable_demoStep (n i : Nat) : (demoStep n i).Writable := by
  refine ⟨fun x hx => ?_, first_event i, fun c hc => ?_, fun a ha => ?_⟩
  · cases hx
    exact isName_demoName _
  · cases hc
    exact ⟨isVariable_x, proper_repr (by omega)⟩
  · simp only [demoStep, List.mem_cons, List.not_mem_nil, or_false] at ha
    rcases ha with rfl | rfl
    · refine ⟨isVariable_x, ⟨isVariable_x, first_repr (j := 1) (by decide)⟩, ?_⟩
      exact Expr.canonical_binary.mpr ⟨rfl, rfl, Nat.le_of_lt (Expr.level_lt_six _), Expr.level_lt_six _⟩
    · exact ⟨isVariable_y, ⟨⟨isVariable_z, first_repr (by omega)⟩, first_repr (j := 2) (by decide)⟩, rfl⟩

theorem writable_ringStep (m i : Nat) : (ringStep m i).Writable := by
  refine ⟨fun x hx => ?_, first_trigger "hop" (by decide), fun c hc => (by cases hc), fun a ha => ?_⟩
  · cases hx
    exact isName_ringName _
  · simp only [ringStep, List.mem_cons, List.not_mem_nil, or_false] at ha
    rcases ha with rfl | rfl
    · exact ⟨isVariable_x, proper_repr (by omega)⟩
    · exact ⟨isVariable_y, ⟨isVariable_x, first_repr (by omega)⟩, rfl⟩

/-- A transition with a trigger only. -/
theorem writable_bare {target : Option String} {trigger : String} (htarget : ∀ x, target = some x → IsName x)
    (htrigger : First .text (Kind.quoted trigger).toList) : Arrow.Writable ⟨target, trigger, none, []⟩ := by
  refine ⟨htarget, htrigger, fun c hc => ?_, fun a ha => absurd ha List.not_mem_nil⟩
  cases hc

theorem writable_stay (i : Nat) : Arrow.Writable ⟨some (demoName i), "stay", none, []⟩ := by
  refine writable_bare (fun x hx => ?_) (first_trigger "stay" (by decide))
  cases hx
  exact isName_demoName i

theorem writable_halt : halt.Writable := by
  refine writable_bare (fun x hx => ?_) (first_trigger "halt" (by decide))
  cases hx

theorem writable_exit : exit.Writable := by
  refine ⟨fun x hx => ?_, first_trigger "exit" (by decide), fun c hc => ?_, fun a ha => ?_⟩
  · cases hx
    exact isName_fixed "Tail" (by decide)
  · cases hc
    exact ⟨isVariable_x, proper_repr (j := 0) (by decide)⟩
  · rw [List.mem_singleton.mp ha]
    exact ⟨isVariable_x, ⟨isVariable_x, first_repr (j := 1) (by decide)⟩, rfl⟩

theorem writable_back : back.Writable := by
  refine ⟨fun x hx => ?_, first_trigger "back" (by decide), fun c hc => ?_, fun a ha => ?_⟩
  · cases hx
    exact isName_fixed "Wrap" (by decide)
  · cases hc
    exact ⟨isVariable_y, proper_repr (j := 9) (by decide)⟩
  · rw [List.mem_singleton.mp ha]
    exact ⟨isVariable_z, ⟨isVariable_y, isVariable_x, first_repr (j := 2) (by decide)⟩, rfl⟩

theorem writable_quit : quit.Writable := by
  refine ⟨fun x hx => ?_, first_trigger "quit" (by decide), fun c hc => ?_, fun a ha => absurd ha List.not_mem_nil⟩
  · cases hx
  · cases hc
    exact ⟨isVariable_y, proper_repr (j := 0) (by decide)⟩

/-! ## The charts are correct -/

theorem namesOf_map_simple {α : Type} (as : List α) (name : α → String) (arrows : α → List Arrow) :
    Draft.namesOf (as.map fun a => .simple (name a) (arrows a)) = as.map name := by
  induction as with
  | nil => rfl
  | cons a as ih => rw [List.map_cons, Draft.namesOf, ih, Draft.names, List.map_cons, List.singleton_append]

theorem append_letters_injective (p : String) : Function.Injective fun i : Nat => p ++ letters i := by
  intro i j h
  have hlist := congrArg String.toList h
  simp only [String.toList_append] at hlist
  exact letters_injective (String.toList_inj.mp (List.append_cancel_left hlist))

theorem demoName_injective : Function.Injective demoName := append_letters_injective "S"

theorem ringName_injective : Function.Injective ringName := append_letters_injective "R"

theorem writable_ringDraft (m i : Nat) : (ringDraft m i).Writable := by
  refine .simple (isName_ringName i) fun a ha => ?_
  rcases List.mem_cons.mp ha with rfl | ha
  · exact writable_ringStep m i
  · split at ha
    · rw [List.mem_singleton.mp ha]
      exact writable_halt
    · cases ha

theorem namesOf_ringChart (m : Nat) : Draft.namesOf (ringChart m).states = (List.range m).map ringName :=
  namesOf_map_simple _ ringName _

theorem correct_ringChart {m : Nat} (hm : 0 < m) : (ringChart m).Correct := by
  have hmem {i : Nat} (hi : i < m) : ringName i ∈ Draft.namesOf (ringChart m).states := by
    rw [namesOf_ringChart]
    exact List.mem_map_of_mem (List.mem_range.mpr hi)
  refine ⟨⟨isName_fixed "Ring" (by decide), isName_ringName 0, ?_, ?_⟩, ?_, hmem hm, ?_⟩
  · simp [ringChart, Nat.ne_of_gt hm]
  · intro d hd
    obtain ⟨i, -, rfl⟩ := List.mem_map.mp hd
    exact writable_ringDraft m i
  · rw [namesOf_ringChart]
    exact List.nodup_range.map ringName_injective
  · intro d hd
    obtain ⟨i, -, rfl⟩ := List.mem_map.mp hd
    refine .simple fun a ha => ?_
    rcases List.mem_cons.mp ha with rfl | ha
    · exact Arrow.scoped_some rfl (hmem (Nat.mod_lt _ hm))
    · split at ha
      · rw [List.mem_singleton.mp ha]
        exact Arrow.scoped_none rfl
      · cases ha

theorem namesOf_demoChart (n : Nat) :
    Draft.namesOf (demoChart n).states = "Wrap" :: ((List.range n).map demoName ++ ["Tail"]) := by
  have hinner : Draft.namesOf ((List.range n).map (demoDraft n)) = (List.range n).map demoName :=
    namesOf_map_simple _ demoName _
  simp [demoChart, Draft.namesOf, Draft.names, hinner]

theorem demoName_notMem {x : String} (hx : x ∈ ["Wrap", "Tail"]) (n : Nat) : x ∉ (List.range n).map demoName := by
  intro hmem
  obtain ⟨i, -, rfl⟩ := List.mem_map.mp hmem
  have hall : ∀ x ∈ ["Wrap", "Tail"], x.toList.head? ≠ some 'S' := by decide
  exact hall _ hx (by rw [demoName, String.toList_append]; rfl)

theorem nodup_demoChart (n : Nat) : (Draft.namesOf (demoChart n).states).Nodup := by
  rw [namesOf_demoChart, List.nodup_cons, List.mem_append, List.nodup_append']
  refine ⟨?_, List.nodup_range.map demoName_injective, List.nodup_singleton _, ?_⟩
  · rintro (hin | hin)
    · exact demoName_notMem (by decide) n hin
    · exact absurd hin (by decide)
  · intro x hx hin
    rw [List.mem_singleton.mp hin] at hx
    exact demoName_notMem (by decide) n hx

theorem writable_demoChart {n : Nat} (hn : 0 < n) : (demoChart n).Writable := by
  refine ⟨isName_fixed "Demo" (by decide), isName_fixed "Wrap" (by decide), List.cons_ne_nil _ _, ?_⟩
  intro d hd
  rcases List.mem_cons.mp hd with rfl | hd
  · refine .composite (isName_fixed "Wrap" (by decide)) ?_ (isName_demoName 0) ?_ ?_
    · simp [writable_exit, writable_halt]
    · simp [Nat.ne_of_gt hn]
    · intro d hd
      obtain ⟨i, -, rfl⟩ := List.mem_map.mp hd
      exact .simple (isName_demoName i) (by simp [writable_demoStep, writable_stay])
  · rw [List.mem_singleton.mp hd]
    exact .simple (isName_fixed "Tail" (by decide)) (by simp [writable_back, writable_quit])

theorem scoped_pair {names : List String} {a b : Arrow} (ha : a.Scoped names) (hb : b.Scoped names) :
    ∀ c ∈ [a, b], c.Scoped names := by
  simp [ha, hb]

theorem correct_demoChart {n : Nat} (hn : 0 < n) : (demoChart n).Correct := by
  have hmem {i : Nat} (hi : i < n) : demoName i ∈ Draft.namesOf (demoChart n).states := by
    rw [namesOf_demoChart]
    exact List.mem_cons_of_mem _ (List.mem_append_left _ (List.mem_map_of_mem (List.mem_range.mpr hi)))
  have hwrap : "Wrap" ∈ Draft.namesOf (demoChart n).states := by
    rw [namesOf_demoChart]
    exact List.mem_cons_self
  have htail : "Tail" ∈ Draft.namesOf (demoChart n).states := by
    rw [namesOf_demoChart]
    simp
  refine ⟨writable_demoChart hn, nodup_demoChart n, hwrap, ?_⟩
  intro d hd
  rcases List.mem_cons.mp hd with rfl | hd
  · refine .composite (scoped_pair (Arrow.scoped_some rfl htail) (Arrow.scoped_none rfl)) (hmem hn) ?_
    intro d hd
    obtain ⟨i, hi, rfl⟩ := List.mem_map.mp hd
    have hi := List.mem_range.mp hi
    exact .simple (scoped_pair (Arrow.scoped_some rfl (hmem (Nat.mod_lt _ hn))) (Arrow.scoped_some rfl (hmem hi)))
  · rw [List.mem_singleton.mp hd]
    exact .simple (scoped_pair (Arrow.scoped_some rfl hwrap) (Arrow.scoped_none rfl))

/-! ## Rings -/

/-- The states and transitions of a demonstration with `n` states in its composite state. -/
def IsDemo (n : Nat) (m : Machine) : Prop :=
  ∃ (wrap : State) (start : Option Initial) (inner : List State) (tail : State),
    m.members = [.composite wrap start (inner.map .simple), .simple tail] ∧ wrap.name = "Wrap" ∧ tail.name = "Tail" ∧
    inner.map State.name = (List.range n).map (fun i : Nat => "S" ++ letters i) ∧ (inner.map State.name).Nodup ∧
    ∀ (i : Nat) (s : State), inner[i]? = some s → s.outgoing.map Transition.target =
      [.state ("S" ++ letters ((i + 1) % n : Nat)), .state ("S" ++ letters i)]

/-- The states and transitions of a ring of `k` states. -/
def IsRing (k : Nat) (m : Machine) : Prop :=
  ∃ states : List State, m.members = states.map .simple ∧
    states.map State.name = (List.range k).map (fun i : Nat => "R" ++ letters i) ∧
    ∀ (i : Nat) (s : State), states[i]? = some s → s.outgoing.map (fun t => (t.trigger, t.target.name?)) =
      ("hop", some ("R" ++ letters ((i + 1) % k : Nat))) :: if i + 1 = k then [("halt", none)] else []

/-- What relates the numbers in turn to the entries of a list relates each number to the entry at it. -/
theorem forall₂_range_getElem? {α : Type} {R : Nat → α → Prop} {k i : Nat} {as : List α} {a : α}
    (h : List.Forall₂ R (List.range k) as) (ha : as[i]? = some a) : R i a := by
  obtain ⟨hi, rfl⟩ := List.getElem?_eq_some_iff.mp ha
  have hrange : i < (List.range k).length := by rwa [h.length_eq]
  have hget := h.get hrange hi
  simpa using hget

theorem isRing_of_realized {k : Nat} {m : Machine} (h : (ringChart k).Realized m) : IsRing k m := by
  obtain ⟨states, hmembers, hnames, hall⟩ := Draft.realized_simple h.members
  refine ⟨states, hmembers, hnames, fun i s hs => ?_⟩
  rw [Arrow.Realized.outgoing (forall₂_range_getElem? hall hs)]
  split <;> rfl

theorem isDemo_of_realized {n : Nat} {m : Machine} (h : (demoChart n).Realized m) : IsDemo n m := by
  have hmembers := h.members
  generalize hm : m.members = members at hmembers
  obtain _ | ⟨hwrap, _ | ⟨htail, _ | _⟩⟩ := hmembers
  cases hwrap with
  | @composite _ _ _ _ wrap start ms hwrapName _ _ hinner =>
    cases htail with
    | @simple _ _ tail htailName _ =>
      obtain ⟨inner, rfl, hnames, hall⟩ := Draft.realized_simple hinner
      refine ⟨wrap, some start, inner, tail, hm, hwrapName, htailName, hnames, ?_, fun i s hs => ?_⟩
      · rw [hnames]
        exact List.nodup_range.map demoName_injective
      · have harrows := forall₂_range_getElem? hall hs
        generalize s.outgoing = ts at harrows
        obtain _ | ⟨hstep, _ | ⟨hstay, _ | _⟩⟩ := harrows
        rw [List.map_cons, List.map_singleton, Target.eq_state_of_name? hstep.target,
          Target.eq_state_of_name? hstay.target]
        rfl

theorem ringSize_eq (n : Int) : (max 2 n).toNat = ringSize n := by
  rw [ringSize]
  omega

theorem ringSize_pos (n : Int) : 0 < ringSize n := by
  rw [ringSize]
  omega

/-- The ring is read without complaint, and built as it is drawn. -/
theorem built_ring (n : Int) (load : Nat) : (parse .machine (ring n)).complaints = [] ∧
    ∃ m, Machine.ofTree load (parse .machine (ring n)).tree = .ok m ∧ (ringChart (ringSize n)).Realized m := by
  rw [ring_eq_text]
  exact (correct_ringChart (ringSize_pos n)).built load

/-- Every sample is read without complaint, and the machine that is built from it is the one it is made for. -/
theorem samples_build_rings (load : Nat) :
    (∀ n : Int, 1 ≤ n → ∃ text m, demo n = .ok text ∧ (parse .machine text).complaints = [] ∧
      Machine.ofTree load (parse .machine text).tree = .ok m ∧ IsDemo n.toNat m) ∧
    ∀ n : Int, ∃ m, (parse .machine (ring n)).complaints = [] ∧
      Machine.ofTree load (parse .machine (ring n)).tree = .ok m ∧ IsRing (max 2 n).toNat m := by
  refine ⟨fun n hn => ?_, fun n => ?_⟩
  · have hpos : 0 < n.toNat := by omega
    obtain ⟨hclean, m, hm, hreal⟩ := (correct_demoChart hpos).built load
    have htext := demo_eq_text hpos
    rw [Int.toNat_of_nonneg (by omega)] at htext
    exact ⟨_, m, htext, hclean, hm, isDemo_of_realized hreal⟩
  · obtain ⟨hclean, m, hm, hreal⟩ := built_ring n load
    rw [ringSize_eq]
    exact ⟨m, hclean, hm, isRing_of_realized hreal⟩

/-- Names of two letters are reached, and every comparison, operator and number that is taken in turn. -/
theorem demo_of_forty_builds_ring : (1 : Int) ≤ 40 ∧ ∃ text m, demo 40 = .ok text ∧
    (parse .machine text).complaints = [] ∧ Machine.ofTree 0 (parse .machine text).tree = .ok m ∧ IsDemo 40 m :=
  ⟨by decide, (samples_build_rings 0).1 40 (by decide)⟩

end Statechart.Sample
