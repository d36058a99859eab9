/-
  Statechart.Proofs.Reordering.Tree — trees that differ in the order of their states.

  `Reorders` are the changes of a tree that are to make no difference: the states of a
  machine or of a composite state in another order, at any level, and all tokens in other
  places of the text. To compare such trees, each site is reduced to what is read from it
  (`Site.essence`): what stands in it besides the states inside, without places.

  Proved (`Reorders.sites`): the sites of a tree that is reordered are, reduced so, the
  sites of the tree in another order, and what stands beside the states is the same.
-/

import Statechart.Proofs.Sites

namespace Statechart

/-! ## Trees without places -/

/-- A token wherever it stands. -/
def Token.plain (t : Token) : Token := { t with line := 0, column := 0, start := 0, stop := 0 }

def Node.plain (n : Node) : Node :=
  ⟨n.rule, n.start.plain, n.stop.map Token.plain, n.target.map Token.plain, n.trigger.map Token.plain⟩

theorem Node.plain_plain (n : Node) : n.plain.plain = n.plain := by
  have htoken : Token.plain ∘ Token.plain = Token.plain := rfl
  simp only [Node.plain, Option.map_map, htoken]
  rfl

namespace Tree

mutual

/-- A tree wherever its tokens stand. -/
def plain : Tree → Tree
  | .leaf t => .leaf t.plain
  | .fault t => .fault t.plain
  | .node n cs => .node n.plain (plainAll cs)

def plainAll : List Tree → List Tree
  | [] => []
  | c :: cs => c.plain :: plainAll cs

end

variable {r : Rule} {k : Kind} {t : Tree} {cs : List Tree}

theorem plainAll_eq (cs : List Tree) : plainAll cs = cs.map plain := by
  induction cs with
  | nil => rfl
  | cons c cs ih => rw [plainAll, ih, List.map_cons]

theorem plain_node (n : Node) (cs : List Tree) : (Tree.node n cs).plain = .node n.plain (cs.map plain) := by
  rw [plain, plainAll_eq]

@[simp] theorem hasRule_plain (r : Rule) (t : Tree) : t.plain.hasRule r = t.hasRule r := by cases t <;> rfl

@[simp] theorem children_plain (t : Tree) : t.plain.children = t.children.map plain := by
  cases t with
  | node n cs => rw [plain_node, children, children]
  | leaf _ => rfl
  | fault _ => rfl

@[simp] theorem token?_plain (t : Tree) : t.plain.token? = t.token?.map Token.plain := by cases t <;> rfl

theorem tokenOf?_plain (k : Kind) (cs : List Tree) : tokenOf? k (cs.map plain) = (tokenOf? k cs).map Token.plain := by
  have htokens : (cs.map plain).filterMap token? = (cs.filterMap token?).map Token.plain := by
    rw [List.filterMap_map, List.map_filterMap]
    congr 1
    funext c
    exact token?_plain c
  rw [tokenOf?, tokenOf?, htokens, List.find?_map]
  rfl

theorem allOf_plain (r : Rule) (cs : List Tree) : allOf r (cs.map plain) = (allOf r cs).map plain := by
  rw [allOf, List.filter_map, allOf]
  congr 2
  funext c
  exact hasRule_plain r c

theorem firstOf?_plain (r : Rule) (cs : List Tree) : firstOf? r (cs.map plain) = (firstOf? r cs).map plain := by
  rw [firstOf?_eq_head?, allOf_plain, List.head?_map, ← firstOf?_eq_head?]

/-! ## What stands beside the states -/

/-- What stands among some children besides states, without places. -/
def beside (cs : List Tree) : List Tree := (cs.filter fun c => !c.hasRule .state).map plain

theorem beside_append (cs ds : List Tree) : beside (cs ++ ds) = beside cs ++ beside ds := by
  rw [beside, List.filter_append, List.map_append, ← beside, ← beside]

theorem beside_cons (c : Tree) (cs : List Tree) :
    beside (c :: cs) = if c.hasRule .state then beside cs else c.plain :: beside cs := by
  by_cases hc : c.hasRule .state = true
  · simp [beside, hc]
  · simp [beside, hc]

mutual

theorem plain_plain : ∀ t : Tree, t.plain.plain = t.plain
  | .leaf _ => rfl
  | .fault _ => rfl
  | .node n cs => by
    rw [plain, plain, plainAll_plainAll cs, Node.plain_plain]

theorem plainAll_plainAll : ∀ cs : List Tree, plainAll (plainAll cs) = plainAll cs
  | [] => rfl
  | c :: cs => by rw [plainAll, plainAll, plain_plain c, plainAll_plainAll cs]

end

theorem beside_map_plain (cs : List Tree) : beside (cs.map plain) = beside cs := by
  induction cs with
  | nil => rfl
  | cons c cs ih => rw [List.map_cons, beside_cons, beside_cons, hasRule_plain, ih, plain_plain]

/-- States are no tokens. -/
theorem tokenOf?_beside (k : Kind) (cs : List Tree) : tokenOf? k (beside cs) = (tokenOf? k cs).map Token.plain := by
  have htokens : (cs.filter fun c => !c.hasRule .state).filterMap token? = cs.filterMap token? := by
    rw [List.filterMap_filter]
    congr 1
    funext c
    cases c with
    | node n ts => simp [token?]
    | leaf _ => rfl
    | fault _ => rfl
  rw [beside, tokenOf?_plain, tokenOf?, htokens, ← tokenOf?]

theorem allOf_beside (hr : r ≠ .state) (cs : List Tree) : allOf r (beside cs) = (allOf r cs).map plain := by
  rw [beside, allOf_plain, allOf, List.filter_filter, allOf]
  congr 2
  funext c
  cases c with
  | node n ts =>
    by_cases hn : n.rule = r
    · simp [hasRule, hn, hr]
    · simp [hasRule, hn]
  | leaf _ => rfl
  | fault _ => rfl

theorem firstOf?_beside (hr : r ≠ .state) (cs : List Tree) : firstOf? r (beside cs) = (firstOf? r cs).map plain := by
  rw [firstOf?_eq_head?, allOf_beside hr, List.head?_map, ← firstOf?_eq_head?]

theorem nameOf?_beside (cs : List Tree) : nameOf? (beside cs) = nameOf? cs := by
  rw [nameOf?, tokenOf?_beside, Option.map_map]
  rfl

theorem nameOf?_of_beside {cs cs' : List Tree} (h : beside cs = beside cs') : nameOf? cs = nameOf? cs' := by
  rw [← nameOf?_beside, h, nameOf?_beside]

end Tree

/-- What is read from a site: what stands in it besides the states inside, without places. -/
def Site.essence (s : Site) : Site := { s with children := Tree.beside s.children }

/-! ## Reordered trees -/

/-- The rules whose nodes hold states. -/
def Rule.holdsStates (r : Rule) : Bool := r == .machine || r == .composite

/-- Changes of a tree that are to make no difference. -/
inductive Tree.Reorders : Tree → Tree → Prop
  /-- All tokens stand in other places. -/
  | alike {t t' : Tree} : t.plain = t'.plain → Reorders t t'
  /-- The states of a machine or of a composite state come in another order. -/
  | permute {n : Node} {cs cs' : List Tree} : n.rule.holdsStates = true →
      cs.filter (fun c => !c.hasRule .state) = cs'.filter (fun c => !c.hasRule .state) →
      (allOf .state cs).Perm (allOf .state cs') → Reorders (.node n cs) (.node n cs')
  /-- One of these states changes. -/
  | inside {n : Node} {us vs : List Tree} {c c' : Tree} : n.rule.holdsStates = true → c.hasRule .state = true →
      Reorders c c' → Reorders (.node n (us ++ c :: vs)) (.node n (us ++ c' :: vs))
  /-- The state that a state rule stands for changes. -/
  | state {n : Node} {c c' : Tree} {vs : List Tree} : n.rule = .state → Reorders c c' →
      Reorders (.node n (c :: vs)) (.node n (c' :: vs))
  | trans {t t' t'' : Tree} : Reorders t t' → Reorders t' t'' → Reorders t t''

/-- What can be told of a tree by its sites. -/
structure Tree.SameSites (t t' : Tree) : Prop where
  rule : ∀ r, t.hasRule r = t'.hasRule r
  sites : ∀ container, ((t.sites container).map Site.essence).Perm ((t'.sites container).map Site.essence)
  /-- What holds states holds the same besides them. -/
  among : t.hasRule .state = false → beside t.children = beside t'.children ∧ ∀ container,
    ((sitesAmong container t.children).map Site.essence).Perm ((sitesAmong container t'.children).map Site.essence)

namespace Tree

theorem sitesAmong_append (container : Option String) (cs ds : List Tree) :
    sitesAmong container (cs ++ ds) = sitesAmong container cs ++ sitesAmong container ds := by
  rw [sitesAmong_eq, allOf, List.filter_append, List.flatMap_append, ← allOf, ← allOf, ← sitesAmong_eq,
    ← sitesAmong_eq]

mutual

theorem sites_plain : ∀ (t : Tree) (container : Option String),
    (t.plain.sites container).map Site.essence = (t.sites container).map Site.essence
  | .leaf _, _ => rfl
  | .fault _, _ => rfl
  | .node n cs, container => by
    rw [plain_node]
    unfold sites
    have hname : nameOf? (cs.map plain) = nameOf? cs := nameOf?_of_beside (beside_map_plain cs)
    have hessence (r : Rule) : Site.essence ⟨container, r, cs.map plain⟩ = Site.essence ⟨container, r, cs⟩ := by
      rw [Site.essence, Site.essence, beside_map_plain]
    cases hrule : n.rule with
    | state =>
      rw [Node.plain, hrule]
      exact firstSites_plain cs container
    | simple =>
      rw [Node.plain, hrule]
      exact congrArg (fun s => [s]) (hessence .simple)
    | composite =>
      rw [Node.plain, hrule]
      dsimp only
      rw [List.map_cons, List.map_cons, hessence, hname, sitesAmong_plain cs]
    | _ =>
      rw [Node.plain, hrule]

theorem firstSites_plain : ∀ (cs : List Tree) (container : Option String),
    (firstSites container (cs.map plain)).map Site.essence = (firstSites container cs).map Site.essence
  | [], _ => rfl
  | c :: _, container => sites_plain c container

theorem sitesAmong_plain : ∀ (cs : List Tree) (container : Option String),
    (sitesAmong container (cs.map plain)).map Site.essence = (sitesAmong container cs).map Site.essence
  | [], _ => rfl
  | c :: cs, container => by
    rw [List.map_cons, sitesAmong, sitesAmong, hasRule_plain]
    split
    · rw [List.map_append, List.map_append, sites_plain c, sitesAmong_plain cs]
    · exact sitesAmong_plain cs container

end

variable {t t' : Tree}

theorem sameSites_of_alike (h : t.plain = t'.plain) : t.SameSites t' := by
  refine ⟨?_, ?_, ?_⟩
  · intro r
    rw [← hasRule_plain, h, hasRule_plain]
  · intro container
    rw [← sites_plain t, h, sites_plain]
  · intro _
    have hchildren : t.children.map plain = t'.children.map plain := by rw [← children_plain, h, children_plain]
    refine ⟨?_, ?_⟩
    · rw [← beside_map_plain, hchildren, beside_map_plain]
    · intro container
      rw [← sitesAmong_plain t.children, hchildren, sitesAmong_plain]

theorem holdsStates_cases {r : Rule} (h : r.holdsStates = true) : r = .machine ∨ r = .composite := by
  simpa [Rule.holdsStates] using h

/-- The states of a node come in another order, or one of them changes. -/
theorem sameSites_node {n : Node} {cs cs' : List Tree} (hn : n.rule.holdsStates = true)
    (hbeside : beside cs = beside cs') (hamong : ∀ container, ((sitesAmong container cs).map Site.essence).Perm
      ((sitesAmong container cs').map Site.essence)) : (Tree.node n cs).SameSites (.node n cs') := by
  refine ⟨fun r => rfl, ?_, fun _ => ⟨hbeside, hamong⟩⟩
  intro container
  rcases holdsStates_cases hn with hrule | hrule
  · rw [sites, sites, hrule]
  · have hessence : Site.essence ⟨container, .composite, cs⟩ = Site.essence ⟨container, .composite, cs'⟩ := by
      rw [Site.essence, Site.essence, hbeside]
    rw [sites, sites, hrule]
    dsimp only
    rw [List.map_cons, List.map_cons, hessence, nameOf?_of_beside hbeside]
    exact (hamong _).cons _

/-- Reordering a tree leaves its sites, up to their order. -/
theorem Reorders.sites (h : t.Reorders t') : t.SameSites t' := by
  induction h with
  | alike h => exact sameSites_of_alike h
  | @permute n cs cs' hn hbeside hperm =>
    refine sameSites_node hn (by rw [beside, hbeside, ← beside]) ?_
    intro container
    rw [sitesAmong_eq, sitesAmong_eq]
    exact (hperm.flatMap_right _).map _
  | @inside n us vs c c' hn hc _ ih =>
    have hc' : c'.hasRule .state = true := ih.rule .state ▸ hc
    refine sameSites_node hn ?_ ?_
    · rw [beside_append, beside_append, beside_cons, beside_cons, if_pos hc, if_pos hc']
    · intro container
      rw [sitesAmong_append, sitesAmong_append, sitesAmong, sitesAmong, if_pos hc, if_pos hc', List.map_append,
        List.map_append, List.map_append, List.map_append]
      exact ((ih.sites container).append_right _).append_left _
  | @state n c c' vs hn _ ih =>
    refine ⟨fun r => rfl, ?_, ?_⟩
    · intro container
      rw [Tree.sites, Tree.sites, hn]
      exact ih.sites container
    · intro hstate
      simp [hasRule, hn] at hstate
  | trans _ _ ih ih' =>
    refine ⟨fun r => (ih.rule r).trans (ih'.rule r), ?_, ?_⟩
    · intro container
      exact (ih.sites container).trans (ih'.sites container)
    intro hstate
    obtain ⟨hbeside, hperm⟩ := ih.among hstate
    obtain ⟨hbeside', hperm'⟩ := ih'.among (ih.rule .state ▸ hstate)
    exact ⟨hbeside.trans hbeside', fun container => (hperm container).trans (hperm' container)⟩

/-! ## Turning trees around -/

/-- Some children with the states last, the last one first. -/
def statesReversed (cs : List Tree) : List Tree :=
  cs.filter (fun c => !c.hasRule .state) ++ (allOf .state cs).reverse

mutual

/-- A tree with the states in opposite order, at every level. -/
def flipped : Tree → Tree
  | .node n cs =>
    if n.rule.holdsStates then .node n (statesReversed (flippedStates cs))
    else if n.rule = .state then .node n (flippedFirst cs)
    else .node n cs
  | t => t

def flippedFirst : List Tree → List Tree
  | [] => []
  | c :: cs => c.flipped :: cs

def flippedStates : List Tree → List Tree
  | [] => []
  | c :: cs => (if c.hasRule .state then c.flipped else c) :: flippedStates cs

end

theorem reorders_statesReversed {n : Node} (hn : n.rule.holdsStates = true) (cs : List Tree) :
    (Tree.node n cs).Reorders (.node n (statesReversed cs)) := by
  refine .permute hn ?_ ?_
  · simp [statesReversed, allOf, List.filter_filter, List.filter_reverse]
  · simp [statesReversed, allOf, List.filter_filter, List.filter_reverse]

mutual

theorem reorders_flipped : ∀ t : Tree, t.Reorders t.flipped
  | .leaf _ => .alike rfl
  | .fault _ => .alike rfl
  | .node n cs => by
    rw [flipped]
    split
    · rename_i hn
      exact (reorders_flippedStates n hn [] cs).trans (reorders_statesReversed hn _)
    · split
      · rename_i hn
        exact reorders_flippedFirst n hn cs
      · exact .alike rfl

theorem reorders_flippedFirst (n : Node) (hn : n.rule = .state) : ∀ cs : List Tree,
    (Tree.node n cs).Reorders (.node n (flippedFirst cs))
  | [] => .alike rfl
  | c :: _ => .state hn (reorders_flipped c)

/-- The states are turned around one after the other, those before them are already. -/
theorem reorders_flippedStates (n : Node) (hn : n.rule.holdsStates = true) : ∀ us cs : List Tree,
    (Tree.node n (us ++ cs)).Reorders (.node n (us ++ flippedStates cs))
  | _, [] => .alike rfl
  | us, c :: cs => by
    rw [flippedStates]
    split
    · rename_i hc
      have hrest := reorders_flippedStates n hn (us ++ [c.flipped]) cs
      rw [List.append_assoc, List.append_assoc] at hrest
      exact (Reorders.inside hn hc (reorders_flipped c)).trans hrest
    · have hrest := reorders_flippedStates n hn (us ++ [c]) cs
      rw [List.append_assoc, List.append_assoc] at hrest
      exact hrest

end

end Tree

end Statechart
