/-
  Statechart.Proofs.Recovery — what is written of an element is enough to have it back.

  A client gets elements as records and may read them in any order. Two records are the
  same to it if they have the same keys, in whatever order, and the same under each
  (`Value.Agrees`); the order within a list counts. Two elements are the same if their
  parts are (`Element.Agrees`).

  Proved (`elements_recovered`): reading the record of an element gives the element
  (`ofValue?_toValue`), elements are the same exactly if their records are
  (`toValue_agrees`), and several elements under a key stay in their order. Each is one
  walk over the element, its children, the elements under a key and the element below.
-/

import Statechart.Element

namespace Statechart

/-! ## Reading back -/

theorem Ident.ofValue?_toValue (i : Ident) : Ident.ofValue? i.toValue = some i := by cases i <;> rfl

theorem mapM_map_eq_some {α β : Type} {f : α → β} {g : β → Option α} (h : ∀ a, g (f a) = some a) (as : List α) :
    (as.map f).mapM g = some as := by
  induction as with
  | nil => rfl
  | cons a as ih => simp [h, ih]

theorem Ref.ofValue?_toValue (r : Ref) : Ref.ofValue? r.toValue = some r := by
  cases r with
  | one i => cases i <;> rfl
  | many is => simp [Ref.toValue, Ref.ofValue?, mapM_map_eq_some Ident.ofValue?_toValue]

theorem Location.ofValue?_toValue (l : Location) : Location.ofValue? l.toValue = some l := by
  simp [Location.toValue, Location.ofValue?, Value.get?, Value.int?]

namespace Element

variable (h : Header) (cs : List (String × Value))

/-! The fields of a record, each under its key. -/

theorem record_id : (record h cs).get? "id" = some h.id.toValue := by simp [record, Value.get?]

theorem record_types : (record h cs).get? "types" = some (.list (h.types.map .str)) := by simp [record, Value.get?]

theorem record_attributes : (record h cs).get? "attributes" = some (.record h.attributes) := by
  simp [record, Value.get?]

theorem record_children : (record h cs).get? "children" = some (.record cs) := by simp [record, Value.get?]

theorem record_refs : (record h cs).get? "refs" = some (.record (h.refs.map fun r => (r.1, r.2.toValue))) := by
  simp [record, Value.get?]

theorem record_location : (record h cs).get? "location" = h.location.map Location.toValue := by
  cases hl : h.location <;> cases hb : h.label <;> simp [record, Value.get?, Value.field?, hl, hb]

theorem record_label : (record h cs).get? "label" = h.label.map .str := by
  cases hl : h.location <;> cases hb : h.label <;> simp [record, Value.get?, Value.field?, hl, hb]

theorem readHeader?_record : readHeader? (record h cs) = some h := by
  have hlocation : (record h cs).optional? "location" Location.ofValue? = some h.location := by
    rw [Value.optional?, record_location]
    cases h.location with
    | none => rfl
    | some l => exact congrArg (Option.map some) l.ofValue?_toValue
  have hlabel : (record h cs).optional? "label" Value.str? = some h.label := by
    rw [Value.optional?, record_label]
    cases h.label <;> rfl
  have htypes : (h.types.map Value.str).mapM Value.str? = some h.types :=
    mapM_map_eq_some (f := Value.str) (fun _ => rfl) _
  have hrefs : (h.refs.map fun r => (r.1, r.2.toValue)).mapM (fun r => do return (r.1, ← Ref.ofValue? r.2)) =
      some h.refs := mapM_map_eq_some (fun r => by simp [Ref.ofValue?_toValue]) _
  unfold readHeader?
  rw [record_id, record_types, record_attributes, record_refs, hlocation, hlabel]
  show ((Ident.ofValue? h.id.toValue).bind fun _ => _) = _
  rw [Ident.ofValue?_toValue]
  show (((h.types.map Value.str).mapM Value.str?).bind fun _ => _) = _
  rw [htypes]
  show (Option.bind (List.mapM _ _) fun _ => _) = _
  rw [hrefs]
  rfl

theorem childrenOf?_record (fs : List (String × Value)) (hfs : record h cs = .record fs) :
    childrenOf? fs = childrenOfFields? cs := by
  cases hfs
  simp [childrenOf?, childrenIn?]

mutual

theorem ofValue?_toValue : ∀ e : Element, ofValue? e.toValue = some e
  | .mk h cs => by
    have hhead := readHeader?_record h (childrenToValue cs)
    have hrest := childrenOf?_record h (childrenToValue cs) _ rfl
    rw [childrenOfFields?_childrenToValue cs] at hrest
    rw [toValue]
    unfold record at hhead ⊢
    rw [ofValue?, hhead, hrest]
    rfl

theorem childrenOfFields?_childrenToValue : ∀ cs : List (String × Child),
    childrenOfFields? (childrenToValue cs) = some cs
  | [] => rfl
  | (k, c) :: cs => by
    rw [childrenToValue, childrenOfFields?, childOf?_childToValue c, childrenOfFields?_childrenToValue cs]
    rfl

theorem childOf?_childToValue : ∀ c : Child, childOf? (childToValue c) = some c
  | .one (.mk h cs) => by
    have hhead := readHeader?_record h (childrenToValue cs)
    have hrest := childrenOf?_record h (childrenToValue cs) _ rfl
    rw [childrenOfFields?_childrenToValue cs] at hrest
    rw [childToValue, toValue]
    unfold record at hhead ⊢
    rw [childOf?, hhead, hrest]
    rfl
  | .many es => by
    rw [childToValue, childOf?, allOf?_allToValue es]
    rfl

theorem allOf?_allToValue : ∀ es : List Element, allOf? (allToValue es) = some es
  | [] => rfl
  | e :: es => by
    rw [allToValue, allOf?, ofValue?_toValue e, allOf?_allToValue es]
    rfl

end

end Element

/-! ## The same in any order -/

namespace Value

mutual

/-- The same to a client. -/
def Agrees : Value → Value → Prop
  | .list vs, .list ws => agreeAll vs ws
  | .record fs, .record gs => fs.length = gs.length ∧ agreeUnder fs gs
  | v, w => w = v

/-- The same one by one. -/
def agreeAll : List Value → List Value → Prop
  | [], [] => True
  | v :: vs, w :: ws => v.Agrees w ∧ agreeAll vs ws
  | _, _ => False

/-- The same under each key of the first. -/
def agreeUnder : List (String × Value) → List (String × Value) → Prop
  | [], _ => True
  | (k, v) :: fs, gs => (∃ w, (Value.record gs).get? k = some w ∧ v.Agrees w) ∧ agreeUnder fs gs

end

end Value

/-- The same apart from their children. -/
structure Header.Agrees (h h' : Header) : Prop where
  id : h'.id = h.id
  types : h'.types = h.types
  attributes : (Value.record h.attributes).Agrees (.record h'.attributes)
  refs : h.refs.length = h'.refs.length ∧ ∀ r ∈ h.refs, (h'.refs.find? fun r' => r'.1 == r.1).map (·.2) = some r.2
  location : h'.location = h.location
  label : h'.label = h.label

namespace Element

/-- What stands under a key. -/
def under? (k : String) (cs : List (String × Child)) : Option Child := (cs.find? fun c => c.1 == k).map (·.2)

mutual

/-- The same, with children that are the same under each key. -/
def Agrees : Element → Element → Prop
  | .mk h cs, .mk h' cs' => h.Agrees h' ∧ cs.length = cs'.length ∧ agreeUnder cs cs'

def agreeUnder : List (String × Child) → List (String × Child) → Prop
  | [], _ => True
  | (k, c) :: cs, cs' => (∃ c', under? k cs' = some c' ∧ agreeChild c c') ∧ agreeUnder cs cs'

def agreeChild : Child → Child → Prop
  | .one e, .one e' => e.Agrees e'
  | .many es, .many es' => agreeAll es es'
  | _, _ => False

def agreeAll : List Element → List Element → Prop
  | [], [] => True
  | e :: es, e' :: es' => e.Agrees e' ∧ agreeAll es es'
  | _, _ => False

end

end Element

theorem Value.agreeUnder_append {fs fs' gs : List (String × Value)} :
    agreeUnder (fs ++ fs') gs ↔ agreeUnder fs gs ∧ agreeUnder fs' gs := by
  induction fs with
  | nil => simp [agreeUnder]
  | cons f fs ih => simp [agreeUnder, ih, and_assoc]

theorem Value.agreeAll_map {α : Type} {f : α → Value} (h : ∀ a b, (f a).Agrees (f b) ↔ b = a) {as bs : List α} :
    agreeAll (as.map f) (bs.map f) ↔ bs = as := by
  induction as generalizing bs with
  | nil => cases bs <;> simp [agreeAll]
  | cons a as ih =>
    cases bs with
    | nil => simp [agreeAll]
    | cons b bs => simp [agreeAll, h, ih]

theorem Ident.toValue_agrees {i j : Ident} : i.toValue.Agrees j.toValue ↔ j = i := by
  cases i <;> cases j <;> simp [Ident.toValue, Value.Agrees]

theorem Value.str_agrees {s t : String} : (Value.str s).Agrees (.str t) ↔ t = s := by simp [Value.Agrees]

theorem Ref.toValue_agrees {r r' : Ref} : r.toValue.Agrees r'.toValue ↔ r' = r := by
  cases r with
  | one i =>
    cases r' with
    | one j => simpa [Ref.toValue] using Ident.toValue_agrees
    | many js => cases i <;> simp [Ref.toValue, Ident.toValue, Value.Agrees]
  | many is =>
    cases r' with
    | one j => cases j <;> simp [Ref.toValue, Ident.toValue, Value.Agrees]
    | many js => simpa [Ref.toValue, Value.Agrees] using Value.agreeAll_map fun _ _ => Ident.toValue_agrees

theorem Location.toValue_agrees {l l' : Location} : l.toValue.Agrees l'.toValue ↔ l' = l := by
  cases l; cases l'
  simp [Location.toValue, Value.Agrees, Value.agreeUnder, Value.get?]

theorem Value.record_agrees {fs gs : List (String × Value)} :
    (Value.record fs).Agrees (.record gs) ↔ fs.length = gs.length ∧ agreeUnder fs gs := by
  simp [Value.Agrees]

theorem Value.list_agrees {vs ws : List Value} : (Value.list vs).Agrees (.list ws) ↔ agreeAll vs ws := by
  simp [Value.Agrees]

theorem refs_agree {rs rs' : List (String × Ref)} :
    Value.agreeUnder (rs.map fun r => (r.1, r.2.toValue)) (rs'.map fun r => (r.1, r.2.toValue)) ↔
      ∀ r ∈ rs, (rs'.find? fun r' => r'.1 == r.1).map (·.2) = some r.2 := by
  induction rs with
  | nil => simp [Value.agreeUnder]
  | cons r rs ih =>
    rw [List.map_cons, Value.agreeUnder, ih, List.forall_mem_cons]
    refine and_congr_left' ?_
    simp only [Value.get?, List.find?_map, Function.comp_def]
    cases rs'.find? fun r' => r'.1 == r.1 with
    | none => simp
    | some r' => simp [Ref.toValue_agrees]

namespace Element

/-- An optional field has to be found in the other record, with the same value. -/
theorem field_agrees {α : Type} {f : α → Value} (hf : ∀ a b, (f a).Agrees (f b) ↔ b = a) {k : String} {o o' : Option α}
    {gs : List (String × Value)} (hk : (Value.record gs).get? k = o'.map f) :
    Value.agreeUnder (Value.field? k (o.map f)) gs ↔ ∀ a, o = some a → o' = some a := by
  cases o with
  | none => simp [Value.field?, Value.agreeUnder]
  | some a => cases o' <;> simp [Value.field?, Value.agreeUnder, hk, hf]

/-- Optional fields that are all found in the other record are the only ones there, if there are as many. -/
theorem fields_eq {α β : Type} {f : α → Value} {g : β → Value} {k l : String} {o o' : Option α} {p p' : Option β}
    (hlen : (Value.field? k (o.map f)).length + (Value.field? l (p.map g)).length =
      (Value.field? k (o'.map f)).length + (Value.field? l (p'.map g)).length)
    (ho : ∀ a, o = some a → o' = some a) (hp : ∀ b, p = some b → p' = some b) : o' = o ∧ p' = p := by
  cases o <;> cases o' <;> cases p <;> cases p' <;> simp_all [Value.field?]

theorem record_agrees {h h' : Header} {cs cs' : List (String × Value)} :
    (record h cs).Agrees (record h' cs') ↔ h.Agrees h' ∧ (Value.record cs).Agrees (.record cs') := by
  have hid := record_id h' cs'
  have htypes := record_types h' cs'
  have hattributes := record_attributes h' cs'
  have hchildren := record_children h' cs'
  have hrefs := record_refs h' cs'
  have hlocation := field_agrees (o := h.location) (fun _ _ => Location.toValue_agrees) (record_location h' cs')
  have hlabel := field_agrees (o := h.label) (fun _ _ => Value.str_agrees) (record_label h' cs')
  unfold record at *
  rw [Value.record_agrees, Value.agreeUnder_append, Value.agreeUnder_append, hlocation, hlabel]
  simp only [Value.agreeUnder, hid, htypes, hattributes, hchildren, hrefs, Option.some.injEq, exists_eq_left',
    Ident.toValue_agrees, Value.list_agrees, Value.agreeAll_map fun _ _ => Value.str_agrees, List.length_append,
    List.length_cons, List.length_nil]
  rw [@Value.record_agrees (List.map _ h.refs), refs_agree, List.length_map, List.length_map]
  constructor
  · rintro ⟨hlen, ⟨⟨hi, ht, ha, hc, hr, -⟩, hloc⟩, hlab⟩
    obtain ⟨hloc, hlab⟩ := fields_eq (f := Location.toValue) (g := Value.str) (k := "location") (l := "label")
      (by omega) hloc hlab
    exact ⟨⟨hi, ht, ha, hr, hloc, hlab⟩, hc⟩
  · rintro ⟨⟨hi, ht, ha, hr, hloc, hlab⟩, hc⟩
    rw [hloc, hlab]
    exact ⟨rfl, ⟨⟨hi, ht, ha, hc, hr, trivial⟩, fun _ => id⟩, fun _ => id⟩

theorem childrenToValue_length (cs : List (String × Child)) : (childrenToValue cs).length = cs.length := by
  induction cs with
  | nil => rfl
  | cons c cs ih => simp [childrenToValue, ih]

theorem get?_childrenToValue (k : String) (cs : List (String × Child)) :
    (Value.record (childrenToValue cs)).get? k = (under? k cs).map childToValue := by
  induction cs with
  | nil => rfl
  | cons c cs ih =>
    obtain ⟨k', c⟩ := c
    simp only [Value.get?, under?, childrenToValue, List.find?_cons] at ih ⊢
    cases k' == k with
    | true => rfl
    | false => exact ih

mutual

theorem toValue_agrees : ∀ e e' : Element, e.toValue.Agrees e'.toValue ↔ e.Agrees e'
  | .mk h cs, .mk h' cs' => by
    rw [toValue, toValue, record_agrees, Value.record_agrees, childrenToValue_length, childrenToValue_length,
      childrenToValue_agree cs cs', Agrees]

theorem childrenToValue_agree : ∀ cs cs' : List (String × Child),
    Value.agreeUnder (childrenToValue cs) (childrenToValue cs') ↔ agreeUnder cs cs'
  | [], _ => by simp [childrenToValue, Value.agreeUnder, agreeUnder]
  | (k, c) :: cs, cs' => by
    rw [childrenToValue, Value.agreeUnder, agreeUnder, childrenToValue_agree cs cs', get?_childrenToValue]
    refine and_congr_left' ?_
    cases under? k cs' with
    | none => simp
    | some c' => simp [childToValue_agrees c c']

theorem childToValue_agrees : ∀ c c' : Child, (childToValue c).Agrees (childToValue c') ↔ agreeChild c c'
  | .one e, .one e' => by simp [childToValue, agreeChild, toValue_agrees e e']
  | .one (.mk h cs), .many es' => by simp [childToValue, agreeChild, toValue, record, Value.Agrees]
  | .many es, .one (.mk h' cs') => by simp [childToValue, agreeChild, toValue, record, Value.Agrees]
  | .many es, .many es' => by simp [childToValue, agreeChild, Value.list_agrees, allToValue_agree es es']

theorem allToValue_agree : ∀ es es' : List Element, Value.agreeAll (allToValue es) (allToValue es') ↔ agreeAll es es'
  | [], [] => by simp [allToValue, Value.agreeAll, agreeAll]
  | [], _ :: _ => by simp [allToValue, Value.agreeAll, agreeAll]
  | _ :: _, [] => by simp [allToValue, Value.agreeAll, agreeAll]
  | e :: es, e' :: es' => by
    rw [allToValue, allToValue, Value.agreeAll, toValue_agrees e e', allToValue_agree es es', agreeAll]

end

theorem allToValue_eq_map (es : List Element) : allToValue es = es.map toValue := by
  induction es with
  | nil => rfl
  | cons e es ih => rw [allToValue, ih, List.map_cons]

/-- An element is read back from its record. Two elements are the same, in whatever order their attributes, references
    and children are, exactly if their records are. Under each key the record has what the element has there, several
    elements in their order. -/
theorem elements_recovered :
    (∀ e : Element, ofValue? e.toValue = some e) ∧
    (∀ e e' : Element, e.toValue.Agrees e'.toValue ↔ e.Agrees e') ∧
    (∀ (h : Header) (cs : List (String × Child)) (k : String),
      ((mk h cs).toValue.get? "children").bind (Value.get? k) = (under? k cs).map childToValue) ∧
    ∀ es : List Element, childToValue (.many es) = .list (es.map toValue) := by
  refine ⟨ofValue?_toValue, toValue_agrees, fun h cs k => ?_, fun es => ?_⟩
  · rw [toValue, record_children, Option.bind_some, get?_childrenToValue]
  · rw [childToValue, allToValue_eq_map]

end Element

end Statechart
