import FormBody.Proofs.Refusal

/-! Two bodies that are read in step, part by part. Where every part of the one has a fault like that of
its counterpart in the other and gives a field that shows the same, so do the bodies. What a part says
depends on its lines through the values that they give each header, and beyond that only the name that
is blamed for a type depends on their order. -/
namespace FormBody

open PartHeader

namespace Part

theorem name_eq_values (p : Part) : p.name =
    ((values dispositionName p.frame.lines).filterMap
      fun value => (Disposition.ofBytes value).name).getLast?.getD p.inherited := by
  simp only [name, headers, values_eq_filterMap disposition_understood, List.filterMap_filterMap,
    funext fieldName?_eq_bind, Option.bind_assoc]

theorem declaredTypes_eq_values (p : Part) : p.declaredTypes = values typeName p.frame.lines := by
  simp only [declaredTypes, headers, declaredType?_eq_valueOf?, values_eq_filterMap type_understood]

theorem fileName_field (p : Part) (index : Nat) : (p.field index).fileName =
    (values dispositionName p.frame.lines).getLast?.bind
      fun value => (Disposition.ofBytes value).fileName := by
  simp only [field, heading, headers, Heading.fileName_foldl_apply_eq,
    values_eq_filterMap disposition_understood]
  cases (List.filterMap _ _).getLast? <;> rfl

theorem contentLength_field (p : Part) (index : Nat) : (p.field index).contentLength =
    (values lengthName p.frame.lines).getLast?.bind declaredLength? := by
  simp only [field, heading, headers, Heading.contentLength_foldl_apply,
    values_eq_filterMap length_understood]
  cases (List.filterMap _ _).getLast? <;> rfl

/-- The field by the values that the lines give each header. -/
theorem field_eq_values (p : Part) (index : Nat) : p.field index =
    { name := p.name,
      fileName := (values dispositionName p.frame.lines).getLast?.bind
        fun value => (Disposition.ofBytes value).fileName,
      contentType := (values typeName p.frame.lines).getLast?.bind Heading.mediaType?,
      contentLength := (values lengthName p.frame.lines).getLast?.bind declaredLength?,
      index, content := p.frame.content } := by
  rw [← p.fileName_field index, ← p.contentLength_field index, ← declaredTypes_eq_values,
    ← p.contentType_field index]
  rfl

end Part

/-- Frames with the same content whose lines give the same dispositions and the same types, whatever else
they give and in whatever order. -/
structure Frame.Agrees (f g : Frame) : Prop where
  content : f.content = g.content
  dispositions : values dispositionName f.lines = values dispositionName g.lines
  types : values typeName f.lines = values typeName g.lines

namespace Frame.Agrees

variable {f g : Frame} (agree : f.Agrees g) (inherited : String)

include agree

theorem name_eq : Part.name ⟨inherited, f⟩ = Part.name ⟨inherited, g⟩ := by
  simp only [Part.name_eq_values, agree.dispositions]

theorem field_eq (index : Nat) : Part.field ⟨inherited, f⟩ index =
    { Part.field ⟨inherited, g⟩ index with
      contentLength := (values lengthName f.lines).getLast?.bind declaredLength? } := by
  simp only [Part.field_eq_values, agree.name_eq inherited, agree.dispositions, agree.types, agree.content]

theorem rel_fault? {related : DecodeError → DecodeError → Prop} (policy : Policy)
    (refl : ∀ e, related e e)
    (blame : ∀ type, related (.disallowedContentType (Part.blamed policy ⟨inherited, f⟩) type)
      (.disallowedContentType (Part.blamed policy ⟨inherited, g⟩) type)) :
    Option.Rel related (Part.fault? policy ⟨inherited, f⟩) (Part.fault? policy ⟨inherited, g⟩) := by
  have refused : Part.refused? policy ⟨inherited, f⟩ = Part.refused? policy ⟨inherited, g⟩ := by
    simp only [Part.refused?, Part.declaredTypes_eq_values, agree.types]
  simp only [Part.fault?_eq, refused, agree.name_eq inherited, agree.content]
  cases Part.refused? policy ⟨inherited, g⟩ with
  | some value => exact .some (blame _)
  | none =>
    -- the name and the size decide, and these are the same
    dsimp only
    split
    · exact .some (refl _)
    · split
      · exact .some (refl _)
      · exact .none

end Frame.Agrees

namespace Part

theorem forall₂_ofFrames {alike : Frame → Frame → Prop} {counterparts : Part → Part → Prop}
    (names : ∀ inherited f g, alike f g → name ⟨inherited, f⟩ = name ⟨inherited, g⟩)
    (step : ∀ inherited f g, alike f g → counterparts ⟨inherited, f⟩ ⟨inherited, g⟩)
    {frames others : List Frame} (corresponding : List.Forall₂ alike frames others) (inherited : String) :
    List.Forall₂ counterparts (ofFrames inherited frames) (ofFrames inherited others) := by
  induction corresponding generalizing inherited with
  | nil => exact .nil
  | cons first _ ih =>
    -- the name is all that a part leaves to the parts behind it
    rw [ofFrames, ofFrames, ← names inherited _ _ first]
    exact .cons (step inherited _ _ first) (ih _)

/-- A part and its counterpart in another body. Their faults are related, and what is shown of their
fields is the same. -/
structure Matches (policy : Policy) (related : DecodeError → DecodeError → Prop)
    (shown : Field → Field) (p q : Part) : Prop where
  fault : Option.Rel related (p.fault? policy) (q.fault? policy)
  field : ∀ index, shown (p.field index) = shown (q.field index)

variable {policy : Policy} {related : DecodeError → DecodeError → Prop} {shown : Field → Field}
  {parts others : List Part}

theorem map_fields_of_matches (matching : List.Forall₂ (Matches policy related shown) parts others)
    (index : Nat) : (fields index parts).map shown = (fields index others).map shown := by
  induction matching generalizing index with
  | nil => rfl
  | cons first _ ih => simp only [fields, List.map_cons, first.field, ih]

theorem rel_fault?_of_matches (matching : List.Forall₂ (Matches policy related shown) parts others) :
    Option.Rel related (policy.fault? parts) (policy.fault? others) := by
  induction matching with
  | nil => exact .none
  | @cons p q _ _ first _ ih =>
    simp only [Policy.fault?, List.findSome?_cons]
    have fault := first.fault
    generalize p.fault? policy = e at fault
    generalize q.fault? policy = f at fault
    cases fault with
    | some same => exact .some same
    | none => exact ih

/-- Parts that match are both at fault, for related errors, or make forms that show the same. -/
theorem verdict_of_matches (matching : List.Forall₂ (Matches policy related shown) parts others)
    (named : ∀ field, (shown field).name = field.name) :
    (∃ e f, related e f ∧ policy.verdict parts = .error e ∧ policy.verdict others = .error f) ∨
    ∃ a b, policy.verdict parts = .ok a ∧ policy.verdict others = .ok b ∧
      a.fields.map shown = b.fields.map shown := by
  have fault := rel_fault?_of_matches matching
  simp only [Policy.verdict]
  generalize policy.fault? parts = e at fault
  generalize policy.fault? others = f at fault
  cases fault with
  | some same => exact .inl ⟨_, _, same, rfl, rfl⟩
  | none =>
    refine .inr ⟨_, _, rfl, rfl, ?_⟩
    simp only [Form.map_fields_ofFields named, map_fields_of_matches matching]

end Part

/-- Two bodies whose parts match one by one are both rejected, for related errors, or both accepted, with
forms that show the same. -/
theorem Decoder.decode_of_matches {d : Decoder} {body other : Bytes} {sections others : List Section}
    {alike : Frame → Frame → Prop} {related : DecodeError → DecodeError → Prop} {shown : Field → Field}
    (made : d.MadeOf sections body) (remade : d.MadeOf others other)
    (names : ∀ inherited f g, alike f g → Part.name ⟨inherited, f⟩ = Part.name ⟨inherited, g⟩)
    (step : ∀ inherited f g, alike f g → Part.Matches d.policy related shown ⟨inherited, f⟩ ⟨inherited, g⟩)
    (named : ∀ field, (shown field).name = field.name)
    (corresponding : List.Forall₂ (fun s t => alike s.frame t.frame) sections others) :
    (∃ e f, related e f ∧ (d.decode body).result = .error e ∧ (d.decode other).result = .error f) ∨
    ∃ a b, (d.decode body).result = .ok a ∧ (d.decode other).result = .ok b ∧
      a.fields.map shown = b.fields.map shown := by
  have frames : List.Forall₂ alike (sections.map Section.frame) (others.map Section.frame) := by
    simpa using corresponding
  rw [made.result_decode, remade.result_decode]
  exact Part.verdict_of_matches (Part.forall₂_ofFrames names step frames "") named

end FormBody
