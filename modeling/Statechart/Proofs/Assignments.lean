/-
  Statechart.Proofs.Assignments — what assignments do to the variables.

  `Sets` says by itself what one assignment does: its expression has a value under the
  variables as they were, its variable has that value then, all others keep theirs, and the
  variables keep their order, a new one coming last. `SetsAll` puts assignments one after
  the other, each seeing what the earlier ones set.
  - `get?_set`, `names_set`: what setting a variable changes.
  - `ext_get?`: variables in the same order and with the same values are the same, for none
    is listed twice.

  Proved (`run_eq_ok`): to run an assignment is to do just that, and it fails exactly where
  nothing of the kind can be done. So what assignments lead to is determined
  (`SetsAll.unique`).
-/

import Statechart.Proofs.Built

namespace Statechart

/-! ## Variables -/

namespace Env

variable {v w : Env} {n name : String} {x : Float}

/-- The variables that are set, in their order. -/
def names (v : Env) : List String := v.entries.map (·.1)

theorem names_set (v : Env) (name : String) (x : Float) :
    (v.set name x).names = if name ∈ v.names then v.names else v.names ++ [name] := names_setEntry name x v.entries

theorem find?_setEntry (name n : String) (x : Float) (es : List (String × Float)) :
    ((setEntry name x es).find? fun e => e.1 == n).map (·.2) =
      if n = name then some x else (es.find? fun e => e.1 == n).map (·.2) := by
  induction es with
  | nil =>
    by_cases hn : n = name
    · simp [setEntry, hn]
    · simp [setEntry, hn, Ne.symm hn]
  | cons e es ih =>
    unfold setEntry
    by_cases he : e.1 = name
    · by_cases hn : n = name
      · simp [he, hn]
      · simp [he, hn, Ne.symm hn]
    · rw [if_neg he]
      by_cases hn : e.1 = n
      · have hne : n ≠ name := hn ▸ he
        simp [hn, hne]
      · simpa [hn] using ih

/-- Setting a variable changes that variable and no other. -/
theorem get?_set (v : Env) (name n : String) (x : Float) :
    (v.set name x).get? n = if n = name then some x else v.get? n := find?_setEntry name n x v.entries

theorem find?_eq_none {es : List (String × Float)} (h : n ∉ es.map (·.1)) : es.find? (fun e => e.1 == n) = none := by
  rw [List.find?_eq_none]
  intro e he hname
  exact h (beq_iff_eq.mp hname ▸ List.mem_map_of_mem he)

theorem entries_ext {es fs : List (String × Float)} (hdistinct : (es.map (·.1)).Nodup)
    (hnames : es.map (·.1) = fs.map (·.1))
    (h : ∀ n, (es.find? fun e => e.1 == n).map (·.2) = (fs.find? fun e => e.1 == n).map (·.2)) : es = fs := by
  induction es generalizing fs with
  | nil => exact (List.map_eq_nil_iff.mp hnames.symm).symm
  | cons e es ih =>
    cases fs with
    | nil => cases hnames
    | cons f fs =>
      obtain ⟨hname, hrest⟩ : e.1 = f.1 ∧ es.map (·.1) = fs.map (·.1) := List.cons.inj hnames
      obtain ⟨hnew, hdistinct⟩ := List.nodup_cons.mp hdistinct
      have hvalue : e.2 = f.2 := by simpa [hname] using h f.1
      have htail : es = fs := by
        refine ih hdistinct hrest ?_
        intro n
        by_cases hn : e.1 = n
        · rw [find?_eq_none (hn ▸ hnew), find?_eq_none (hrest ▸ hn ▸ hnew)]
        · have hf : ¬ f.1 = n := hname ▸ hn
          simpa [hn, hf] using h n
      rw [Prod.ext hname hvalue, htail]

theorem ext_get? (hnames : v.names = w.names) (h : ∀ n, v.get? n = w.get? n) : v = w := by
  obtain ⟨es, hes⟩ := v
  obtain ⟨fs, hfs⟩ := w
  obtain rfl : es = fs := entries_ext hes hnames h
  rfl

end Env

/-! ## Assignments -/

namespace Assignment

variable {a : Assignment} {as bs : List Assignment} {u v w : Env} {k : Nat}

/-- What an assignment does to the variables `v`. -/
structure Sets (a : Assignment) (v w : Env) : Prop where
  /-- Its variable has the value that the expression had. -/
  value : ∃ x, a.expression.eval v = .ok x ∧ w.get? a.name = some x
  others : ∀ n, n ≠ a.name → w.get? n = v.get? n
  order : w.names = if a.name ∈ v.names then v.names else v.names ++ [a.name]

/-- To run an assignment is to set its variable. -/
theorem run_eq_ok : a.run v = .ok w ↔ a.Sets v w := by
  unfold run
  constructor
  · intro h
    obtain ⟨x, hx, h⟩ := bind_eq_ok.mp h
    obtain rfl := pure_eq_ok.mp h
    refine ⟨⟨x, hx, ?_⟩, ?_, Env.names_set v a.name x⟩
    · rw [Env.get?_set, if_pos rfl]
    · intro n hn
      rw [Env.get?_set, if_neg hn]
  · intro h
    obtain ⟨x, hx, hvalue⟩ := h.value
    refine bind_eq_ok.mpr ⟨x, hx, congrArg Except.ok ?_⟩
    refine Env.ext_get? ((Env.names_set v a.name x).trans h.order.symm) ?_
    intro n
    rw [Env.get?_set]
    by_cases hn : n = a.name
    · rw [if_pos hn, hn, hvalue]
    · rw [if_neg hn, h.others n hn]

/-- Some assignments, one after the other. -/
inductive SetsAll : List Assignment → Env → Env → Prop
  | nil (v : Env) : SetsAll [] v v
  | cons {a : Assignment} {as : List Assignment} {u v w : Env} : a.Sets v u → SetsAll as u w → SetsAll (a :: as) v w

theorem setsAll_append : SetsAll (as ++ bs) v w ↔ ∃ u, SetsAll as v u ∧ SetsAll bs u w := by
  induction as generalizing v with
  | nil =>
    constructor
    · intro h
      exact ⟨v, .nil v, h⟩
    · rintro ⟨u, hu, h⟩
      cases hu
      exact h
  | cons a as ih =>
    constructor
    · intro h
      cases h with
      | cons ha h =>
        obtain ⟨u, hu, h⟩ := ih.mp h
        exact ⟨u, .cons ha hu, h⟩
    · rintro ⟨u, hu, h⟩
      cases hu with
      | cons ha hu => exact .cons ha (ih.mpr ⟨u, hu, h⟩)

theorem SetsAll.unique (h : SetsAll as v u) (h' : SetsAll as v w) : u = w := by
  induction h with
  | nil => cases h'; rfl
  | cons ha _ ih =>
    cases h' with
    | cons ha' h' =>
      obtain rfl := Except.ok.inj ((run_eq_ok.mpr ha).symm.trans (run_eq_ok.mpr ha'))
      exact ih h'

/-- One more of some assignments. -/
theorem SetsAll.take_succ (h : SetsAll (as.take k) v u) (ha : as[k]? = some a) (hw : a.Sets u w) :
    SetsAll (as.take (k + 1)) v w := by
  obtain ⟨hk, rfl⟩ := List.getElem?_eq_some_iff.mp ha
  rw [List.take_succ_eq_append_getElem hk]
  exact setsAll_append.mpr ⟨u, h, .cons hw (.nil w)⟩

/-- Assignments that can all be run can be run one at a time. -/
theorem SetsAll.next (h : SetsAll as v w) (hk : SetsAll (as.take k) v u) (ha : as[k]? = some a) :
    ∃ u', a.Sets u u' := by
  obtain ⟨hlt, rfl⟩ := List.getElem?_eq_some_iff.mp ha
  rw [← List.take_append_drop k as, List.drop_eq_getElem_cons hlt] at h
  obtain ⟨u', hu', h⟩ := setsAll_append.mp h
  obtain rfl := hk.unique hu'
  cases h with
  | cons ha _ => exact ⟨_, ha⟩

end Assignment

end Statechart
