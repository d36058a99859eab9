/-
  Statechart.Text.Pattern — regular patterns over characters, and what is left of a
  pattern once a character has been read.

  `Matches` says which texts a pattern describes; `after c` is the pattern of the
  texts that may still follow once `c` was read, so reading a text is taking `after`
  character by character. A pattern is `dead` when no text is left for it.
  - `nullable_iff`: `nullable` decides whether the empty text matches.
  - `after_iff`: what `after c` matches is what the pattern matches behind a `c`.
  - `dead_iff`: a pattern whose ranges are not empty is dead when nothing matches it.
-/

namespace Statechart.Text

inductive Pattern where
  | nothing
  | empty
  /-- One character of one of these ranges, both ends included. -/
  | range (ranges : List (Char × Char))
  | seq (p q : Pattern)
  | either (p q : Pattern)
  | star (p : Pattern)
  deriving DecidableEq, Repr

namespace Pattern

def inRanges (c : Char) (ranges : List (Char × Char)) : Bool :=
  ranges.any fun r => r.1.toNat ≤ c.toNat && c.toNat ≤ r.2.toNat

/-- The texts a pattern describes. -/
inductive Matches : Pattern → List Char → Prop
  | empty : Matches .empty []
  | range {c : Char} {rs : List (Char × Char)} : inRanges c rs = true → Matches (.range rs) [c]
  | seq {p q : Pattern} {u v : List Char} : Matches p u → Matches q v → Matches (.seq p q) (u ++ v)
  | left {p q : Pattern} {u : List Char} : Matches p u → Matches (.either p q) u
  | right {p q : Pattern} {u : List Char} : Matches q u → Matches (.either p q) u
  | done {p : Pattern} : Matches (.star p) []
  | more {p : Pattern} {u v : List Char} : Matches p u → Matches (.star p) v → Matches (.star p) (u ++ v)

/-- Whether the empty text matches. -/
def nullable : Pattern → Bool
  | .nothing => false
  | .empty => true
  | .range _ => false
  | .seq p q => p.nullable && q.nullable
  | .either p q => p.nullable || q.nullable
  | .star _ => true

/-- Whether no text matches, for a pattern whose ranges are not empty. -/
def dead : Pattern → Bool
  | .nothing => true
  | .empty => false
  | .range rs => rs.isEmpty
  | .seq p q => p.dead || q.dead
  | .either p q => p.dead && q.dead
  | .star _ => false

/-- `seq` without the cases that say nothing. -/
def join : Pattern → Pattern → Pattern
  | .nothing, _ => .nothing
  | .empty, q => q
  | p, q => .seq p q

/-- `either` without the cases that say nothing. -/
def alt : Pattern → Pattern → Pattern
  | .nothing, q => q
  | p, .nothing => p
  | p, q => .either p q

/-- The pattern of what may follow once `c` was read. -/
def after (c : Char) : Pattern → Pattern
  | .nothing => .nothing
  | .empty => .nothing
  | .range rs => if inRanges c rs then .empty else .nothing
  | .seq p q => if p.nullable then alt (join (p.after c) q) (q.after c) else join (p.after c) q
  | .either p q => alt (p.after c) (q.after c)
  | .star p => join (p.after c) (.star p)

/-- Exactly this character. -/
def char (c : Char) : Pattern := .range [(c, c)]

/-- Exactly this text. -/
def literal : List Char → Pattern
  | [] => .empty
  | [c] => char c
  | c :: cs => .seq (char c) (literal cs)

/-- One or more. -/
def plus (p : Pattern) : Pattern := .seq p (.star p)

/-- One or none. -/
def opt (p : Pattern) : Pattern := .either p .empty

theorem nullable_iff (p : Pattern) : p.nullable = true ↔ Matches p [] := by
  constructor
  · intro h
    induction p with
    | nothing => cases h
    | empty => exact .empty
    | range rs => cases h
    | seq p q ihp ihq =>
      simp only [nullable, Bool.and_eq_true] at h
      exact .seq (ihp h.1) (ihq h.2)
    | either p q ihp ihq =>
      simp only [nullable, Bool.or_eq_true] at h
      rcases h with h | h
      · exact .left (ihp h)
      · exact .right (ihq h)
    | star p _ => exact .done
  · intro h
    generalize hu : ([] : List Char) = u at h
    induction h with
    | empty => rfl
    | range _ => cases hu
    | seq _ _ ihp ihq =>
      obtain ⟨rfl, rfl⟩ := List.append_eq_nil_iff.mp hu.symm
      simp [nullable, ihp rfl, ihq rfl]
    | left _ ih => simp [nullable, ih hu]
    | right _ ih => simp [nullable, ih hu]
    | done => rfl
    | more _ _ _ _ => rfl

theorem matches_join {p q : Pattern} {u : List Char} : Matches (join p q) u ↔ Matches (.seq p q) u := by
  unfold join
  split
  · constructor
    · intro h; cases h
    · intro h; cases h with | seq hp _ => cases hp
  · constructor
    · intro h; exact .seq .empty h
    · intro h; cases h with | seq hp hq => cases hp; exact hq
  · exact Iff.rfl

theorem matches_alt {p q : Pattern} {u : List Char} : Matches (alt p q) u ↔ Matches (.either p q) u := by
  unfold alt
  split
  · constructor
    · intro h; exact .right h
    · intro h; cases h with
      | left h => cases h
      | right h => exact h
  · constructor
    · intro h; exact .left h
    · intro h; cases h with
      | left h => exact h
      | right h => cases h
  · exact Iff.rfl

theorem matches_seq_cons {p q : Pattern} {c : Char} {u : List Char} : Matches (.seq p q) (c :: u) ↔
    (∃ v w, u = v ++ w ∧ Matches p (c :: v) ∧ Matches q w) ∨ (Matches p [] ∧ Matches q (c :: u)) := by
  constructor
  · intro h
    generalize hx : c :: u = x at h
    cases h with
    | @seq _ _ a b ha hb =>
      cases a with
      | nil => exact .inr ⟨ha, by simpa [hx] using hb⟩
      | cons d v =>
        obtain ⟨rfl, rfl⟩ := List.cons.inj hx
        exact .inl ⟨v, b, rfl, ha, hb⟩
  · rintro (⟨v, w, rfl, hp, hq⟩ | ⟨hp, hq⟩)
    · exact .seq hp hq
    · exact .seq (u := []) hp hq

theorem matches_star_cons {p : Pattern} {c : Char} {u : List Char} :
    Matches (.star p) (c :: u) ↔ ∃ v w, u = v ++ w ∧ Matches p (c :: v) ∧ Matches (.star p) w := by
  constructor
  · intro h
    generalize hp : Pattern.star p = r at h
    generalize hx : c :: u = x at h
    induction h with
    | @more r a b ha hb _ ihb =>
      obtain rfl := Pattern.star.inj hp
      cases a with
      | nil => exact ihb rfl hx
      | cons d v =>
        obtain ⟨rfl, rfl⟩ := List.cons.inj hx
        exact ⟨v, b, rfl, ha, hb⟩
    | done => cases hx
    | _ => cases hp
  · rintro ⟨v, w, rfl, hp, hq⟩
    exact .more hp hq

theorem after_iff (c : Char) (p : Pattern) (u : List Char) : Matches (p.after c) u ↔ Matches p (c :: u) := by
  induction p generalizing u with
  | nothing => constructor <;> intro h <;> cases h
  | empty => constructor <;> intro h <;> cases h
  | range rs =>
    simp only [after]
    split
    · rename_i hc
      constructor
      · intro h; cases h; exact .range hc
      · intro h; cases h; exact .empty
    · rename_i hc
      constructor
      · intro h; cases h
      · intro h; cases h; contradiction
  | seq p q ihp ihq =>
    have hj : Matches (join (p.after c) q) u ↔ ∃ v w, u = v ++ w ∧ Matches p (c :: v) ∧ Matches q w := by
      rw [matches_join]
      constructor
      · intro h
        cases h with
        | seq ha hb => exact ⟨_, _, rfl, (ihp _).mp ha, hb⟩
      · rintro ⟨v, w, rfl, ha, hb⟩
        exact .seq ((ihp _).mpr ha) hb
    rw [matches_seq_cons, ← hj, ← nullable_iff, ← ihq]
    simp only [after]
    split
    · rename_i hn
      rw [matches_alt]
      constructor
      · intro h; cases h with
        | left h => exact .inl h
        | right h => exact .inr ⟨hn, h⟩
      · rintro (h | ⟨_, h⟩)
        · exact .left h
        · exact .right h
    · rename_i hn
      simp [hn]
  | either p q ihp ihq =>
    rw [after, matches_alt]
    constructor
    · intro h; cases h with
      | left h => exact .left ((ihp _).mp h)
      | right h => exact .right ((ihq _).mp h)
    · intro h; cases h with
      | left h => exact .left ((ihp _).mpr h)
      | right h => exact .right ((ihq _).mpr h)
  | star p ih =>
    rw [after, matches_join, matches_star_cons]
    constructor
    · intro h; cases h with | seq ha hb => exact ⟨_, _, rfl, (ih _).mp ha, hb⟩
    · rintro ⟨v, w, rfl, ha, hb⟩; exact .seq ((ih _).mpr ha) hb

/-- Every range of the pattern has a character in it. -/
def Inhabited : Pattern → Prop
  | .range rs => ∀ r ∈ rs, r.1.toNat ≤ r.2.toNat
  | .seq p q => p.Inhabited ∧ q.Inhabited
  | .either p q => p.Inhabited ∧ q.Inhabited
  | .star p => p.Inhabited
  | _ => True

theorem dead_iff {p : Pattern} (hp : p.Inhabited) : p.dead = true ↔ ∀ u, ¬ Matches p u := by
  induction p with
  | nothing => exact ⟨fun _ u h => (by cases h), fun _ => rfl⟩
  | empty => exact ⟨fun h => (by cases h), fun h => absurd Matches.empty (h [])⟩
  | range rs =>
    cases rs with
    | nil => exact ⟨fun _ u h => by cases h with | range h => simp [inRanges] at h, fun _ => rfl⟩
    | cons r rs =>
      refine ⟨fun h => (by cases h), fun h => absurd (Matches.range (c := r.1) ?_) (h [r.1])⟩
      have : r.1.toNat ≤ r.2.toNat := hp r List.mem_cons_self
      simp [inRanges, this]
  | seq p q ihp ihq =>
    simp only [dead, Bool.or_eq_true, ihp hp.1, ihq hp.2]
    constructor
    · rintro (h | h) u hu
      · cases hu with | seq ha _ => exact h _ ha
      · cases hu with | seq _ hb => exact h _ hb
    · intro h
      by_cases hd : ∀ u, ¬ Matches p u
      · exact .inl hd
      · refine .inr fun v hv => hd fun u hu => h _ (.seq hu hv)
  | either p q ihp ihq =>
    simp only [dead, Bool.and_eq_true, ihp hp.1, ihq hp.2]
    constructor
    · rintro ⟨h, h'⟩ u hu
      cases hu with
      | left hu => exact h u hu
      | right hu => exact h' u hu
    · exact fun h => ⟨fun u hu => h u (.left hu), fun u hu => h u (.right hu)⟩
  | star p _ => exact ⟨fun h => (by cases h), fun h => absurd Matches.done (h [])⟩

end Pattern

end Statechart.Text
