/-
  Statechart.Proofs.Ranges — every place of a text belongs to one element at most.

  A state, a transition and an assignment have each a range of the text as their location:
  from the keyword to the name of a state, from the arrow to the target of a transition,
  from the variable to the semicolon of an assignment. The ranges are computed in four
  ways, from lines and columns that tokens note.
  - `place`: the line and the column of the character behind a text. They grow with the
    text, line by line and then column by column (`place_lt`).
  - `assignment_between`, `transition_between`, `state_between`: what is built has as its
    location what lies between its first and its last token.
  - `outcome_headers`: these tokens lie in the text one behind the other.

  Proved (`ranges_apart`): where a text is read without complaint and built, the elements
  are those of the nodes, each range goes from the first character of its first token to
  the last character of its last, none is empty, and no two of them meet.
-/

import Statechart.Proofs.Arrivals
import Statechart.Proofs.Edges
import Statechart.Proofs.Elements
import Mathlib

namespace Statechart

open Text (Pattern)

/-! ## Places -/

/-- The line and the column, both counted from 1, of the character behind a text. -/
def place (u : List Char) : ℤ ×ₗ ℤ := toLex (1 + u.count '\n', (u.reverse.takeWhile (· ≠ '\n')).length + 1)

theorem place_concat (u : List Char) (c : Char) : place u < place (u ++ [c]) := by
  have hcount : (u ++ [c]).count '\n' = u.count '\n' + if c = '\n' then 1 else 0 := by
    by_cases hc : c = '\n'
    · simp [hc]
    · simp [hc]
  rw [place, place, Prod.Lex.toLex_lt_toLex, hcount]
  by_cases hc : c = '\n'
  · -- the next line
    refine Or.inl ?_
    simp only [hc, if_true]
    omega
  · have htail : ((u ++ [c]).reverse.takeWhile (· ≠ '\n')).length = (u.reverse.takeWhile (· ≠ '\n')).length + 1 := by
      simp [hc]
    refine Or.inr ⟨?_, ?_⟩
    · simp only [hc, if_false, Nat.add_zero]
    · simp only [htail]
      omega

theorem place_lt {u v : List Char} (h : u <+: v) (hlt : u.length < v.length) : place u < place v := by
  obtain ⟨w, rfl⟩ := h
  induction w using List.reverseRecOn with
  | nil => simp at hlt
  | append_singleton w c ih =>
    rw [← List.append_assoc]
    by_cases hw : w = []
    · rw [hw, List.append_nil]
      exact place_concat u c
    · have hshort : u.length < (u ++ w).length := by
        have := List.length_pos_iff.mpr hw
        rw [List.length_append]
        omega
      exact (ih hshort).trans (place_concat (u ++ w) c)

theorem place_le_append (u w : List Char) : place u ≤ place (u ++ w) := by
  by_cases hw : w = []
  · rw [hw, List.append_nil]
  · refine le_of_lt (place_lt (List.prefix_append u w) ?_)
    have := List.length_pos_iff.mpr hw
    rw [List.length_append]
    omega

/-- Within a line the column grows. -/
theorem place_append {w : List Char} (hw : '\n' ∉ w) (u : List Char) :
    place (u ++ w) = toLex ((ofLex (place u)).1, (ofLex (place u)).2 + w.length) := by
  have htake : ∀ c ∈ w.reverse, (decide (c ≠ '\n')) = true := by
    intro c hc
    simp only [decide_eq_true_eq]
    intro heq
    exact hw (heq ▸ List.mem_reverse.mp hc)
  simp only [place, List.count_append, List.count_eq_zero.mpr hw, List.reverse_append,
    List.takeWhile_append_of_pos htake, List.length_append, List.length_reverse, ofLex_toLex]
  congr 2
  omega

/-- A text of the pattern does not have the character. -/
def Text.Pattern.avoids (c : Char) : Pattern → Bool
  | .nothing => true
  | .empty => true
  | .range rs => !inRanges c rs
  | .seq p q => p.avoids c && q.avoids c
  | .either p q => p.avoids c && q.avoids c
  | .star p => p.avoids c

theorem Text.Pattern.not_mem_of_avoids {c : Char} {p : Pattern} {u : List Char} (h : p.Matches u)
    (hp : p.avoids c = true) : c ∉ u := by
  induction h with
  | empty => simp
  | done => simp
  | @range d rs hd =>
    intro hc
    rw [List.mem_singleton.mp hc] at hp
    simp [avoids, hd] at hp
  | seq _ _ ihp ihq =>
    simp only [avoids, Bool.and_eq_true] at hp
    simp [ihp hp.1, ihq hp.2]
  | left _ ih =>
    simp only [avoids, Bool.and_eq_true] at hp
    exact ih hp.1
  | right _ ih =>
    simp only [avoids, Bool.and_eq_true] at hp
    exact ih hp.2
  | more _ _ ih ih' => simp [ih hp, ih' hp]

/-- Only blanks break lines. -/
theorem Kind.avoids_lineFeed (k : Kind) (hk : k ≠ .blank) : k.pattern.avoids '\n' = true := by
  revert hk
  cases k <;> decide

/-- The token stands in the text behind `u`. -/
structure Token.Occurs (t : Token) (text : String) (u : List Char) : Prop where
  marks : Lexer.Marks t u
  behind : ∃ v, text.toList = u ++ t.text.toList ++ v
  line : '\n' ∉ t.text.toList

namespace Token.Occurs

variable {t : Token} {text : String} {u : List Char}

theorem first_eq (h : t.Occurs text u) : toLex ((t.line : ℤ), (t.column : ℤ) + 1) = place u := by
  rw [place, h.marks.line, h.marks.column]
  push_cast
  rfl

theorem last_eq (h : t.Occurs text u) :
    toLex ((t.line : ℤ), (t.column : ℤ) + t.text.length) = place (u ++ t.text.toList.dropLast) := by
  have hline : '\n' ∉ t.text.toList.dropLast := fun hc => h.line (List.dropLast_subset _ hc)
  have hlen : 0 < t.text.toList.length := List.length_pos_iff.mpr h.marks.nonempty
  rw [place_append hline, ← h.first_eq, List.length_dropLast, ← String.length_toList]
  congr 2
  show _ = (t.column : ℤ) + 1 + _
  omega

theorem isPrefix (h : t.Occurs text u) : u ++ t.text.toList.dropLast <+: text.toList := by
  obtain ⟨v, hv⟩ := h.behind
  rw [hv, List.append_assoc]
  refine List.prefix_append_right_inj u |>.mpr ?_
  exact (List.dropLast_prefix _).trans (List.prefix_append _ _)

/-- The last character of a token comes before the first one of a later token. -/
theorem place_lt {s : Token} {v : List Char} (h : t.Occurs text u) (h' : s.Occurs text v) (hlt : t.stop < s.start) :
    place (u ++ t.text.toList.dropLast) < place v := by
  have hlen : 0 < t.text.toList.length := List.length_pos_iff.mpr h.marks.nonempty
  have hshort : (u ++ t.text.toList.dropLast).length < v.length := by
    rw [h.marks.stop, h'.marks.start] at hlt
    rw [List.length_append, List.length_dropLast]
    omega
  refine Statechart.place_lt ?_ hshort
  refine List.prefix_of_prefix_length_le h.isPrefix ?_ (Nat.le_of_lt hshort)
  exact (List.prefix_append _ _).trans h'.isPrefix

end Token.Occurs

/-! ## What is built -/

/-- An element of a machine that has a range of the text. -/
inductive Spot where
  | state (s : State)
  | transition (e : Transition)
  | assignment (a : Assignment)

def Spot.location? : Spot → Option Location
  | .state s => s.location
  | .transition e => some e.location
  | .assignment a => some a.location

def Transition.spots (e : Transition) : List Spot := .transition e :: e.assignments.map .assignment

def State.spots (s : State) : List Spot := .state s :: s.outgoing.flatMap Transition.spots

/-- The states, transitions and assignments of a machine. -/
def Machine.spots (m : Machine) : List Spot := m.declared.flatMap fun d => d.state.spots

/-- What a node with these tokens stands for, with the first token of the element and the last. -/
inductive Spot.Ends : Rule → List Token → Spot → Token → Token → Prop
  | simple {s : State} {k n : Token} {ts : List Token} : k.kind = .state → n.kind = .name → n.text = s.name →
      Ends .simple (k :: n :: ts) (.state s) k n
  | composite {s : State} {k n : Token} {ts : List Token} : k.kind = .composite → n.kind = .name → n.text = s.name →
      Ends .composite (k :: n :: ts) (.state s) k n
  | transition {e : Transition} {k n : Token} {ts : List Token} : k.kind = .arrow → n.kind = .name ∨ n.kind = .final →
      n.text = e.target.written → Ends .transition (k :: n :: ts) (.transition e) k n
  | assignment {a : Assignment} {k n : Token} {ts : List Token} : k.kind = .variable → k.text = a.name →
      n.kind = .semicolon → Ends .separated (k :: (ts ++ [n])) (.assignment a) k n

/-- From the first character of a token to the last character of another. -/
def Location.between (k n : Token) : Location := ⟨k.line, n.line, k.column + 1, n.column + n.text.length⟩

/-- The location of the element lies between its first token and its last. -/
def Spot.Between (x : Rule × List Tree) (s : Spot) : Prop :=
  ∃ k n, Ends x.1 (Tree.tokensOf x.2) s k n ∧ s.location? = some (.between k n)

/-- A faithful tree of a text, with its nodes where their tokens are. -/
structure Tree.Placed (text : String) (t : Tree) : Prop where
  faithful : t.Faithful
  edged : t.Edged
  occurs : ∀ k ∈ t.tokens, k.kind ≠ .endOfText → ∃ u, k.Occurs text u

theorem Tree.Placed.child {text : String} {n : Node} {cs : List Tree} (h : (Tree.node n cs).Placed text) {c : Tree}
    (hc : c ∈ cs) : c.Placed text :=
  ⟨h.faithful.child hc, (forall_nodes.mp h.edged).2 c hc, fun k hk => h.occurs k (mem_tokensOf.mpr ⟨c, hc, hk⟩)⟩

theorem Tree.tokenOf?_cons {k : Kind} {t : Token} {cs : List Tree} :
    tokenOf? k (.leaf t :: cs) = if t.kind = k then some t else tokenOf? k cs := by
  by_cases hk : t.kind = k
  · simp [tokenOf?, token?, hk]
  · simp [tokenOf?, token?, hk]

section Build

variable {text : String} {b : Builder} {n : Node} {cs : List Tree}

/-- An assignment is a variable, an equality sign and an expression, before a semicolon. -/
theorem Tree.Faithful.separated_inv (h : (Tree.node n cs).Faithful) (hn : n.rule = .separated) :
    ∃ m l v k e es semi, cs = [.node m [.node l [.leaf v], .leaf k, .node e es], .leaf semi] ∧ m.rule = .assignment ∧
      l.rule = .variable ∧ v.kind = .variable ∧ semi.kind = .semicolon := by
  obtain ⟨us, vs, rfl, hus, hvs⟩ := @Phrase.Spans.split [.rule .assignment] _ _ (h.spans hn)
  obtain ⟨m, as, rfl, hm⟩ := (Phrase.spans_one.mp hus).rule_inv
  obtain ⟨semi, rfl, hsemi⟩ := (Phrase.spans_one.mp hvs).token_inv
  have hinner := h.child (c := .node m as) (by simp)
  obtain ⟨l, xs, k, e, es, rfl, hl, -, -⟩ := (hinner.spans hm).binary_inv
  have hvar := hinner.child (c := .node l xs) (by simp)
  obtain ⟨v, rfl, hv⟩ := (Phrase.spans_one.mp (hvar.spans hl)).token_inv
  exact ⟨m, l, v, k, e, es, semi, rfl, hm, hl, List.mem_singleton.mp hv, List.mem_singleton.mp hsemi⟩

/-- An assignment reaches from its variable to its semicolon. -/
theorem Tree.Placed.assignment_between (h : (Tree.node n cs).Placed text) (hn : n.rule = .separated) {a : Assignment}
    {id : Id} (ha : Assignment.ofTree id (.node n cs) = .ok a) : Spot.Between (.separated, cs) (.assignment a) := by
  obtain ⟨m, l, v, k, e, es, semi, rfl, hm, hl, hv, hsemi⟩ := h.faithful.separated_inv hn
  have hend : semi.kind ≠ .endOfText := by
    rw [hsemi]
    decide
  have hedge := (forall_nodes.mp h.edged).1
  have hstart : n.start = v := by simpa [tokensOf, tokens] using hedge.start.symm
  have htokens : tokensOf [.node m [.node l [.leaf v], .leaf k, .node e es], .leaf semi] =
      v :: ((k :: tokensOf es) ++ [semi]) := by
    simp [tokensOf, tokens]
  have hstop : n.stop = some semi := by
    refine hedge.stop semi ?_ hend
    rw [htokens, ← List.cons_append, List.getLast?_concat]
  have hlength : semi.text.length = 1 := by
    have hmatch := h.faithful.apt semi (by simp [tokens, tokensOf]) hend
    rw [hsemi] at hmatch
    rw [← String.length_toList, Pattern.eq_of_matches_char (c := ';') hmatch]
    rfl
  unfold Assignment.ofTree at ha
  obtain ⟨t, ht, ha⟩ := bind_eq_ok.mp ha
  obtain ⟨x, hx, ha⟩ := bind_eq_ok.mp ha
  obtain ⟨y, -, ha⟩ := bind_eq_ok.mp ha
  obtain ⟨z, -, ha⟩ := bind_eq_ok.mp ha
  obtain ⟨stop, hs, ha⟩ := bind_eq_ok.mp ha
  obtain rfl := pure_eq_ok.mp ha
  obtain rfl : semi = stop := Option.some.inj (hstop.symm.trans (need_eq_ok.mp hs))
  obtain rfl : t = .node m [.node l [.leaf v], .leaf k, .node e es] := by
    simpa [firstOf?, children, hasRule, hm] using (need_eq_ok.mp ht).symm
  obtain rfl : x = .node l [.leaf v] := by
    simpa [firstOf?, children, hasRule, hl] using (need_eq_ok.mp hx).symm
  have hname : (Tree.node l [.leaf v]).text = v.text := by simp [Tree.text, tokens, tokensOf, String.join]
  refine ⟨v, semi, ?_, ?_⟩
  · rw [htokens]
    exact .assignment hv hname.symm hsemi
  · rw [hstart]
    simp [Spot.location?, Location.between, hlength]

theorem Builder.transition_location {source : String} {around : List String} {i : Nat} {e : Transition}
    (h : b.transition source around i n cs = .ok e) : ∃ arrow head, Tree.tokenOf? .arrow cs = some arrow ∧
      n.target = some head ∧ e.location = .between arrow head := by
  unfold Builder.transition at h
  obtain ⟨arrow, harrow, h⟩ := bind_eq_ok.mp h
  obtain ⟨guard, -, h⟩ := bind_eq_ok.mp h
  obtain ⟨as, -, h⟩ := bind_eq_ok.mp h
  obtain ⟨head, hhead, h⟩ := bind_eq_ok.mp h
  obtain ⟨trigger, -, h⟩ := bind_eq_ok.mp h
  obtain ⟨target, -, h⟩ := bind_eq_ok.mp h
  obtain rfl := pure_eq_ok.mp h
  exact ⟨arrow, head, need_eq_ok.mp harrow, need_eq_ok.mp hhead, rfl⟩

/-- A transition reaches from its arrow to its target. -/
theorem Tree.Placed.transition_between (h : (Tree.node n cs).Placed text) (hn : n.rule = .transition) {source : String}
    {around : List String} {i : Nat} {e : Transition} (he : b.transition source around i n cs = .ok e) :
    Spot.Between (.transition, cs) (.transition e) := by
  obtain ⟨k, t, us, rfl, hk, ht⟩ := (h.faithful.spans hn).two_tokens
  obtain ⟨arrow, head, harrow, hhead, hlocation⟩ := Builder.transition_location he
  have hwritten := (Builder.transition_departs he).written.target
  have hkind : k.kind = .arrow := List.mem_singleton.mp hk
  obtain rfl : k = arrow := by simpa [tokenOf?_cons, hkind] using harrow
  -- the target that is remembered is the one behind the arrow
  obtain ⟨x, hx, hamong⟩ := h.faithful.recalled hn rfl .target (by decide) (by decide)
  have hfirst : tokensAmong Slot.target.kinds (.leaf k :: .leaf t :: us) = t :: tokensAmong Slot.target.kinds us := by
    have hin : t.kind ∈ Slot.target.kinds := ht
    have hout : k.kind ∉ Slot.target.kinds := by
      rw [hkind]
      decide
    simp [tokensAmong, token?, hin, hout]
  obtain rfl : t = x := (List.cons.inj (hfirst.symm.trans hamong)).1
  obtain rfl : t = head := Option.some.inj (hx.symm.trans hhead)
  refine ⟨k, t, ?_, by rw [Spot.location?, hlocation]⟩
  rw [target?, hhead] at hwritten
  refine .transition hkind ?_ (Option.some.inj hwritten)
  simpa [or_comm] using ht

/-- The location that is declared for the state of a site. -/
structure Site.Locates (s : Site) (d : Declaration) : Prop where
  rule : s.rule = .simple ∨ s.rule = .composite
  tokens : ∃ keyword name,
    Tree.tokenOf? (if s.rule = .composite then .composite else .state) s.children = some keyword ∧
    Tree.tokenOf? .name s.children = some name ∧ d.name = name.text ∧ d.location = stateLocation keyword name

theorem declare_located {r r' : Registry} {container : Option String} {composite : Bool} {cs : List Tree}
    {name : String} (h : declare r container composite cs = .ok (r', name)) : ∃ keyword tok,
      Tree.tokenOf? (if composite then .composite else .state) cs = some keyword ∧ Tree.tokenOf? .name cs = some tok ∧
      r' = r ++ [⟨tok.text, composite, stateLocation keyword tok, container⟩] := by
  unfold declare at h
  obtain ⟨keyword, hk, h⟩ := bind_eq_ok.mp h
  obtain ⟨tok, ht, h⟩ := bind_eq_ok.mp h
  split at h
  · cases h
  · cases pure_eq_ok.mp h
    exact ⟨keyword, tok, need_eq_ok.mp hk, need_eq_ok.mp ht, rfl⟩

theorem Site.declare_located {r r' : Registry} {s : Site} (h : s.declare r = .ok r') :
    ∃ d, r' = r ++ [d] ∧ s.Locates d := by
  unfold Site.declare at h
  cases hrule : s.rule with
  | simple =>
    rw [hrule] at h
    obtain ⟨⟨r1, name⟩, hd, h⟩ := bind_eq_ok.mp h
    obtain rfl := pure_eq_ok.mp h
    obtain ⟨keyword, tok, hk, ht, rfl⟩ := Statechart.declare_located hd
    exact ⟨_, rfl, Or.inl hrule, keyword, tok, by rw [hrule]; exact hk, ht, rfl, rfl⟩
  | composite =>
    rw [hrule] at h
    obtain ⟨⟨r1, name⟩, hd, h⟩ := bind_eq_ok.mp h
    obtain rfl := pure_eq_ok.mp h
    obtain ⟨keyword, tok, hk, ht, rfl⟩ := Statechart.declare_located hd
    exact ⟨_, rfl, Or.inr hrule, keyword, tok, by rw [hrule]; exact hk, ht, rfl, rfl⟩
  | _ =>
    rw [hrule] at h
    cases h

theorem declareSites_located {ss : List Site} {r r' : Registry} (h : ss.foldlM Site.declare r = .ok r') :
    ∃ ds, r' = r ++ ds ∧ List.Forall₂ Site.Locates ss ds := by
  induction ss generalizing r with
  | nil =>
    obtain rfl := pure_eq_ok.mp h
    exact ⟨[], by simp, .nil⟩
  | cons s ss ih =>
    obtain ⟨r1, h1, h⟩ := bind_eq_ok.mp h
    obtain ⟨d, rfl, hd⟩ := s.declare_located h1
    obtain ⟨ds, rfl, hds⟩ := ih h
    exact ⟨d :: ds, by simp, .cons hd hds⟩

theorem registry_located {t : Tree} {r : Registry} (h : Registry.ofTree t = .ok r) :
    List.Forall₂ Site.Locates (sitesAmong none t.children) r := by
  rw [Registry.ofTree, declareStates_eq_foldlM] at h
  obtain ⟨ds, rfl, hds⟩ := declareSites_located h
  exact hds

theorem Registry.find?_of_mem {r : Registry} (hr : r.names.Nodup) {d : Declaration} (hd : d ∈ r) :
    r.find? d.name = some d := by
  obtain ⟨e, he⟩ := Option.isSome_iff_exists.mp (Registry.find?_isSome.mpr (List.mem_map_of_mem hd))
  have hname : e.name = d.name := by simpa using List.find?_some he
  rw [he, List.inj_on_of_nodup_map hr (List.mem_of_find?_eq_some he) hd hname]

theorem Builder.Builds.state_eq {s : Site} {d : Declared} (h : b.Builds s d) :
    d.state.location = (b.registry.find? d.state.name).map (·.location) := by
  cases h <;> rfl

theorem Token.Occurs.stateLocation_eq {t : Token} {u : List Char} (h : t.Occurs text u) (k : Token) :
    stateLocation k t = .between k t := by
  have hlen : 0 < t.text.toList.length := List.length_pos_iff.mpr h.marks.nonempty
  rw [stateLocation, Location.between, h.marks.start, h.marks.stop, ← String.length_toList]
  congr 1
  omega

/-- A state reaches from its keyword to its name. -/
theorem Tree.Placed.state_between {s : Site} {d : Declared} {x : Declaration} (h : (Tree.node n s.children).Placed text)
    (hn : n.rule = s.rule) (hb : b.Builds s d) (hx : x ∈ b.registry) (hr : b.registry.names.Nodup) (hs : s.Locates x) :
    Spot.Between (s.rule, s.children) (.state d.state) := by
  obtain ⟨container, rule, cs⟩ := s
  obtain ⟨hrule, keyword, name, hk, hname, hxname, hlocation⟩ := hs
  have hd : d.state.name = x.name := by
    have hsome := hb.name
    rw [Site.name?, nameOf?, hname] at hsome
    rw [hxname]
    exact (Option.some.inj hsome).symm
  have hstate : Spot.location? (.state d.state) = some (stateLocation keyword name) := by
    rw [Spot.location?, hb.state_eq, hd, Registry.find?_of_mem hr hx, Option.map_some, hlocation]
  -- whatever the keyword is, it comes first and the name behind it
  have hbetween {kind : Kind} {k t : Token} {us : List Tree} (hcs : cs = .leaf k :: .leaf t :: us)
      (hkind : k.kind = kind) (hkey : tokenOf? kind cs = some keyword) (hne : kind ≠ .name) (ht : t.kind = .name) :
      k = keyword ∧ t.text = d.state.name ∧ Spot.location? (.state d.state) = some (.between k t) := by
    rw [hcs, tokenOf?_cons, if_pos hkind] at hkey
    rw [hcs, tokenOf?_cons, if_neg (hkind ▸ hne), tokenOf?_cons, if_pos ht] at hname
    obtain rfl := Option.some.inj hkey
    obtain rfl := Option.some.inj hname
    obtain ⟨u, hu⟩ := h.occurs t (by simp [hcs, tokens, tokensOf]) (by rw [ht]; decide)
    rw [← hu.stateLocation_eq k]
    exact ⟨rfl, (hd.trans hxname).symm, hstate⟩
  rcases hrule with hrule | hrule
  · obtain rfl : rule = .simple := hrule
    obtain ⟨k, t, us, hcs, hkk, htk⟩ := (h.faithful.spans hn).two_tokens
    obtain ⟨-, htext, hloc⟩ := hbetween hcs (List.mem_singleton.mp hkk) hk (by decide) (List.mem_singleton.mp htk)
    refine ⟨k, t, ?_, hloc⟩
    dsimp only
    rw [show cs = _ from hcs]
    exact .simple (List.mem_singleton.mp hkk) (List.mem_singleton.mp htk) htext
  · obtain rfl : rule = .composite := hrule
    obtain ⟨k, t, us, hcs, hkk, htk⟩ := (h.faithful.spans hn).two_tokens
    obtain ⟨-, htext, hloc⟩ := hbetween hcs (List.mem_singleton.mp hkk) hk (by decide) (List.mem_singleton.mp htk)
    refine ⟨k, t, ?_, hloc⟩
    dsimp only
    rw [show cs = _ from hcs]
    exact .composite (List.mem_singleton.mp hkk) (List.mem_singleton.mp htk) htext

theorem Builder.Builds.transitions_eq {s : Site} {d : Declared} (h : b.Builds s d) :
    b.transitions d.state.name s.container.toList s.children = .ok d.state.outgoing := by
  cases h with
  | simple _ hts => exact hts
  | composite _ _ _ hts => exact hts

theorem Builder.transitions_built {source : String} {around : List String} {es : List Transition}
    (h : b.transitions source around cs = .ok es) :
    List.Forall₂ (fun c e => ∃ n us i, c = .node n us ∧ b.transition source around i n us = .ok e)
      (Tree.allOf .transition cs) es := by
  rw [← List.zipIdx_map_fst 0 (Tree.allOf .transition cs), List.forall₂_map_left_iff]
  refine (mapM_eq_ok h).imp ?_
  intro c e hc
  obtain ⟨c, i⟩ := c
  cases c with
  | node n us => exact ⟨n, us, i, rfl, hc⟩
  | leaf _ => cases hc
  | fault _ => cases hc

/-- A transition and its assignments are built from nodes in the order of the text. -/
theorem Tree.Placed.transition_spots (h : (Tree.node n cs).Placed text) (hn : n.rule = .transition) {source : String}
    {around : List String} {i : Nat} {e : Transition} (he : b.transition source around i n cs = .ok e) :
    List.Forall₂ Spot.Between (Tree.node n cs).transitionElements e.spots := by
  refine .cons (h.transition_between hn he) ?_
  rw [List.forall₂_map_left_iff, List.forall₂_map_right_iff]
  have hmem : ∀ c ∈ allOf .separated cs, c ∈ cs ∧ c.hasRule .separated = true := fun c hc => List.mem_filter.mp hc
  refine ((List.forall₂_and_left _ _).mpr ⟨hmem, (Builder.transition_departs he).written.assignments⟩).imp ?_
  intro c a hc
  obtain ⟨⟨hc, hrule⟩, ha⟩ := hc
  cases c with
  | node m us => exact (h.child hc).assignment_between (beq_iff_eq.mp hrule) ha
  | leaf _ => cases hrule
  | fault _ => cases hrule

/-- A state and its transitions are built from nodes in the order of the text. -/
theorem Tree.Placed.state_spots {s : Site} {d : Declared} {x : Declaration} (h : (Tree.node n s.children).Placed text)
    (hn : n.rule = s.rule) (hb : b.Builds s d) (hx : x ∈ b.registry) (hr : b.registry.names.Nodup) (hs : s.Locates x) :
    List.Forall₂ Spot.Between s.elements d.state.spots := by
  refine .cons (h.state_between hn hb hx hr hs) ?_
  have hmem : ∀ c ∈ allOf .transition s.children, c ∈ s.children ∧ c.hasRule .transition = true :=
    fun c hc => List.mem_filter.mp hc
  refine List.rel_flatMap ((List.forall₂_and_left _ _).mpr ⟨hmem, Builder.transitions_built hb.transitions_eq⟩) ?_
  intro c e hc
  obtain ⟨⟨hc, hrule⟩, m, us, i, rfl, he⟩ := hc
  exact (h.child hc).transition_spots (beq_iff_eq.mp hrule) he

end Build

/-! ## Ranges -/

/-- The places that belong to an element: its location, both ends included. -/
def Spot.range (s : Spot) : Set (ℤ ×ₗ ℤ) :=
  {x | ∃ l, s.location? = some l ∧ x ∈ Set.Icc (toLex (l.line, l.column)) (toLex (l.endLine, l.endColumn))}

/-- The location of the element goes from the first character of its first token to the last character of its
    last. -/
def Spot.Reaches (text : String) (x : Rule × List Tree) (s : Spot) : Prop :=
  ∃ k n u v l, Ends x.1 (Tree.tokensOf x.2) s k n ∧ k.Occurs text u ∧ n.Occurs text v ∧ s.location? = some l ∧
    toLex (l.line, l.column) = place u ∧ toLex (l.endLine, l.endColumn) = place (v ++ n.text.toList.dropLast)

/-- The tokens of a header, less the end of the text. -/
def headTokens (x : Rule × List Tree) : List Token := (header x).filter fun t => t.kind ≠ .endOfText

theorem Spot.Ends.header_eq {x : Rule × List Tree} {s : Spot} {k n : Token} (h : Ends x.1 (Tree.tokensOf x.2) s k n) :
    ∃ ts, headTokens x = k :: (ts ++ [n]) := by
  obtain ⟨r, cs⟩ := x
  dsimp only at h
  generalize hts : Tree.tokensOf cs = ts at h
  cases h with
  | simple hk hn _ => exact ⟨[], by simp [headTokens, header, hts, hk, hn]⟩
  | composite hk hn _ => exact ⟨[], by simp [headTokens, header, hts, hk, hn]⟩
  | transition hk hn _ => exact ⟨[], by rcases hn with hn | hn <;> simp [headTokens, header, hts, hk, hn]⟩
  | @assignment _ _ _ us hk _ hn =>
    exact ⟨us.filter fun t => t.kind ≠ .endOfText, by simp [headTokens, header, hts, hk, hn]⟩

theorem Spot.Reaches.range_eq {text : String} {x : Rule × List Tree} {s : Spot} (h : s.Reaches text x) :
    ∃ k n u v, (∃ ts, headTokens x = k :: (ts ++ [n])) ∧ k.Occurs text u ∧ n.Occurs text v ∧
      s.range = Set.Icc (place u) (place (v ++ n.text.toList.dropLast)) := by
  obtain ⟨k, n, u, v, l, hends, hk, hn, hl, hfirst, hlast⟩ := h
  refine ⟨k, n, u, v, hends.header_eq, hk, hn, ?_⟩
  rw [← hfirst, ← hlast]
  ext p
  simp [range, hl]

theorem Spot.Reaches.nonempty {text : String} {x : Rule × List Tree} {s : Spot} (h : s.Reaches text x)
    (hx : (headTokens x).Pairwise fun s t => s.stop < t.start) : s.range.Nonempty := by
  obtain ⟨k, n, u, v, ⟨ts, hts⟩, hk, hn, hrange⟩ := h.range_eq
  rw [hts, List.pairwise_cons] at hx
  rw [hrange, Set.nonempty_Icc]
  calc place u ≤ place (u ++ k.text.toList.dropLast) := place_le_append _ _
    _ ≤ place v := le_of_lt (hk.place_lt hn (hx.1 n (by simp)))
    _ ≤ place (v ++ n.text.toList.dropLast) := place_le_append _ _

theorem Spot.Reaches.disjoint {text : String} {x y : Rule × List Tree} {s t : Spot} (hs : s.Reaches text x)
    (ht : t.Reaches text y) (hxy : ∀ a ∈ headTokens x, ∀ b ∈ headTokens y, a.stop < b.start) :
    Disjoint s.range t.range := by
  obtain ⟨k, n, u, v, ⟨ts, hts⟩, -, hn, hrange⟩ := hs.range_eq
  obtain ⟨k', n', u', v', ⟨ts', hts'⟩, hk', -, hrange'⟩ := ht.range_eq
  have hlt : place (v ++ n.text.toList.dropLast) < place u' :=
    hn.place_lt hk' (hxy n (by simp [hts]) k' (by simp [hts']))
  rw [hrange, hrange', Set.disjoint_left]
  intro p hp hp'
  exact absurd (lt_of_le_of_lt hp.2 hlt) (not_lt.mpr hp'.1)

theorem forall₂_pairwise {α β : Type} {R : α → β → Prop} {S : α → α → Prop} {T : β → β → Prop} {as : List α}
    {bs : List β} (h : List.Forall₂ R as bs) (has : as.Pairwise S)
    (hT : ∀ a a' b b', R a b → R a' b' → S a a' → T b b') : bs.Pairwise T := by
  induction h with
  | nil => exact .nil
  | @cons a b as bs hab hrest ih =>
    rw [List.pairwise_cons] at has ⊢
    refine ⟨?_, ih has.2⟩
    intro b' hb'
    obtain ⟨a', ha', hr⟩ := exists_of_forall₂ hrest b' hb'
    exact hT a a' b b' hab hr (has.1 a' ha')

/-! ## Texts -/

theorem kind_ne_blank_of_lex {text : String} {t : Token} (ht : t ∈ (lex text).tokens) : t.kind ≠ .blank := by
  obtain ⟨x, -, hx⟩ := List.mem_filterMap.mp ht
  unfold Lexer.Piece.token? at hx
  split at hx
  · cases hx
  · cases hx
  · rename_i k hne _
    cases hx
    intro hk
    exact hne hk

theorem occurs_of_lex {text : String} {t : Token} (ht : t ∈ (lex text).tokens) : ∃ u, t.Occurs text u := by
  obtain ⟨u, v, htext, hmarks, -⟩ := (Lexer.pieces_cutUp text.toList).marks ht
  exact ⟨u, hmarks, ⟨v, htext⟩,
    Pattern.not_mem_of_avoids (lex_matches ht) (t.kind.avoids_lineFeed (kind_ne_blank_of_lex ht))⟩

section Text

variable {r : Rule} {text : String}

theorem outcome_placed (h : (Parser.outcome r (lex text)).complaints = []) :
    (Parser.outcome r (lex text)).close.Placed text := by
  refine ⟨outcome_faithful h, Parser.outcome_edged rfl h, ?_⟩
  intro k hk hend
  obtain ⟨-, m, -, htokens⟩ := Parser.outcome_tokens rfl h
  have hmem : k ∈ (lex text).tokens ++ List.replicate m (lex text).ending := htokens ▸ List.mem_append_left _ hk
  rcases List.mem_append.mp hmem with hmem | hmem
  · exact occurs_of_lex hmem
  · rw [List.eq_of_mem_replicate hmem] at hend
    exact absurd rfl hend

/-- The tokens of the elements lie one behind the other in the text. -/
theorem outcome_headers (h : (Parser.outcome r (lex text)).complaints = []) :
    ((Parser.outcome r (lex text)).close.elements.flatMap headTokens).Pairwise fun s t => s.stop < t.start := by
  obtain ⟨-, m, -, htokens⟩ := Parser.outcome_tokens rfl h
  refine List.Pairwise.sublist ?_ (Lexer.pieces_cutUp text.toList).tokens_pairwise
  have hsub := (outcome_faithful h).headers_sublist.trans
    (List.sublist_append_left _ (Parser.outcome r (lex text)).ahead)
  have hfilter := hsub.filter fun t => t.kind ≠ .endOfText
  have hnone : (List.replicate m (lex text).ending).filter (fun t => t.kind ≠ .endOfText) = [] := by simp [lex]
  rw [htokens, List.filter_append, List.filter_flatMap, hnone, List.append_nil] at hfilter
  exact hfilter.trans List.filter_sublist

end Text

theorem Tree.Placed.mem {text : String} {t : Tree} {x : Node × List Tree} (h : t.Placed text) (hx : x ∈ t.nodes) :
    (Tree.node x.1 x.2).Placed text := by
  have hd := h.faithful.derivation
  induction hd with
  | leaf => cases hx
  | node _ _ ih =>
    rcases List.mem_cons.mp hx with rfl | hx
    · exact h
    · obtain ⟨c, hc, hx⟩ := mem_nodesOf.mp hx
      exact ih c hc (h.child hc) hx

/-- A machine is built from the elements of its tree, one by one and in the order of the text. -/
theorem Tree.Placed.machine_spots {text : String} {t : Tree} (h : t.Placed text) (ht : t.hasRule .machine = true)
    {load : Nat} {m : Machine} (hm : Machine.ofTree load t = .ok m) : List.Forall₂ Spot.Between t.elements m.spots := by
  obtain ⟨n, cs, rfl, hn⟩ : ∃ n cs, t = .node n cs ∧ n.rule = .machine := by
    cases t with
    | node n cs => exact ⟨n, cs, rfl, beq_iff_eq.mp ht⟩
    | leaf _ => cases ht
    | fault _ => cases ht
  obtain ⟨b, -, -, hr, hms, -⟩ := ofTree_inv hm
  have hnodup : b.registry.names.Nodup := by
    rw [declared_names hr hms]
    exact (ofTree_wellFormed hm).distinct
  have hsites : ∀ s ∈ sitesAmong none cs, ∃ k : Node, k.rule = s.rule ∧ (Tree.node k s.children).Placed text ∧
      ∃ x ∈ b.registry, s.Locates x := by
    intro s hs
    obtain ⟨x, hx, hrule, hchildren, -⟩ := h.faithful.exists_node hn hs
    obtain ⟨d, hd, hlocates⟩ := exists_of_forall₂ (registry_located hr).flip s hs
    exact ⟨x.1, hrule, hchildren ▸ h.mem hx, d, hd, hlocates⟩
  rw [h.faithful.elements_machine hn]
  refine List.rel_flatMap ((List.forall₂_and_left _ _).mpr ⟨hsites, declared_sites hms⟩) ?_
  intro s d hsd
  obtain ⟨⟨k, hrule, hplaced, x, hx, hlocates⟩, hb⟩ := hsd
  exact hplaced.state_spots hrule hb hx hnodup hlocates

theorem Spot.Between.reaches {text : String} {x : Rule × List Tree} {s : Spot} (h : s.Between x)
    (hx : ∀ t ∈ headTokens x, ∃ u, t.Occurs text u) : s.Reaches text x := by
  obtain ⟨k, n, hends, hl⟩ := h
  obtain ⟨ts, hts⟩ := hends.header_eq
  obtain ⟨u, hu⟩ := hx k (by simp [hts])
  obtain ⟨v, hv⟩ := hx n (by simp [hts])
  exact ⟨k, n, u, v, _, hends, hu, hv, hl, hu.first_eq, hv.last_eq⟩

/-- Where a text is read without complaint and built, its elements have each a range of their own. -/
theorem Machine.ranges_apart {text : String} {load : Nat} {m : Machine} (hq : (parse .machine text).complaints = [])
    (hm : Machine.ofTree load (parse .machine text).tree = .ok m) :
    List.Forall₂ (Spot.Reaches text) (parse .machine text).tree.elements m.spots ∧
    (∀ s ∈ m.spots, s.range.Nonempty) ∧ m.spots.Pairwise fun s t => Disjoint s.range t.range := by
  have hc : (Parser.outcome .machine (lex text)).complaints = [] := (List.append_eq_nil_iff.mp hq).2
  have hplaced : (parse .machine text).tree.Placed text := outcome_placed hc
  obtain ⟨hwithin, hbetween⟩ := List.pairwise_flatMap.mp (outcome_headers hc)
  have hspots : List.Forall₂ Spot.Between (parse .machine text).tree.elements m.spots :=
    hplaced.machine_spots (Parser.outcome_isDerivation rfl hc).2.1 hm
  have hoccurs : ∀ x ∈ (parse .machine text).tree.elements, ∀ t ∈ headTokens x, ∃ u, t.Occurs text u := by
    intro x hx t ht
    obtain ⟨ht, hkind⟩ := List.mem_filter.mp ht
    refine hplaced.occurs t ?_ (by simpa using hkind)
    exact hplaced.faithful.headers_sublist.subset (List.mem_flatMap.mpr ⟨x, hx, ht⟩)
  have hreaches : List.Forall₂ (Spot.Reaches text) (parse .machine text).tree.elements m.spots := by
    refine ((List.forall₂_and_left _ _).mpr ⟨hoccurs, hspots⟩).imp ?_
    intro x s hx
    exact hx.2.reaches hx.1
  refine ⟨hreaches, ?_, forall₂_pairwise hreaches hbetween fun x y s t hs ht => hs.disjoint ht⟩
  intro s hs
  obtain ⟨x, hx, hr⟩ := exists_of_forall₂ hreaches s hs
  exact hr.nonempty (hwithin x hx)

namespace Ramp

/-- A state whose header goes over two lines, with two assignments, and a state inside another. -/
def text : String :=
  r"StateMachine Ramp{INITIAL->Up;" ++
  "\nstate\n" ++ r" Up{->Down:'go'/{x=1;y =" ++ "\n" ++ r" x+1;};}" ++
  r"composite state Down{-> " ++ "\n" ++ r"FINAL:'end';INITIAL->Low;state Low{}}}"

/-- The ranges of the elements, from line and column to line and column. -/
def locations : List (Option Location) :=
  [some ⟨2, 3, 1, 3⟩, some ⟨3, 3, 5, 10⟩, some ⟨3, 3, 18, 21⟩, some ⟨3, 4, 22, 5⟩, some ⟨4, 4, 9, 28⟩,
   some ⟨4, 5, 30, 5⟩, some ⟨5, 5, 26, 34⟩]

/-- The ranges of the machine that a parsed text is built into, if there is no complaint. -/
def located? (p : Parsed) : Option (List (Option Location)) :=
  if p.complaints = [] then (Machine.ofTree 0 p.tree).toOption.map fun m => m.spots.map Spot.location? else none

theorem located?_text : located? (parse .machine text) = some locations := by decide +kernel

end Ramp

/-- The elements of the ramp have seven ranges, one over two lines within a header and one within an assignment, and no
    two of them meet. -/
theorem Machine.ramp_ranges_apart :
    ∃ m, (parse .machine Ramp.text).complaints = [] ∧ Machine.ofTree 0 (parse .machine Ramp.text).tree = .ok m ∧
      m.spots.map Spot.location? = Ramp.locations ∧
      List.Forall₂ (Spot.Reaches Ramp.text) (parse .machine Ramp.text).tree.elements m.spots ∧
      (∀ s ∈ m.spots, s.range.Nonempty) ∧ m.spots.Pairwise fun s t => Disjoint s.range t.range := by
  have hlocated := Ramp.located?_text
  unfold Ramp.located? at hlocated
  split at hlocated
  · rename_i hq
    obtain ⟨m, hm, hl⟩ := Option.map_eq_some_iff.mp hlocated
    exact ⟨m, hq, eq_ok_of_toOption hm, hl, ranges_apart hq (eq_ok_of_toOption hm)⟩
  · cases hlocated

end Statechart
