import FormBody.Proofs.DeclaredType

/-! Which part is blamed for a content type that is not allowed. The type that is reported is the first
such one of its part. The name that is reported is the one that is pending where the type stands, so
that a disposition behind the type comes too late: then the part in front is blamed. -/
namespace FormBody

open PartHeader

namespace Part

variable {policy : Policy} {p : Part} {front back : List PartHeader} {value : Bytes}

/-- The first type of the part that the policy does not allow. -/
def refused? (policy : Policy) (p : Part) : Option Bytes :=
  p.declaredTypes.find? fun value => !policy.allowsType value

/-- The name under which it is reported: the one that the header lines in front of it leave. -/
def blamed (policy : Policy) (p : Part) : String :=
  ((p.headers.takeWhile policy.accepts).filterMap fieldName?).getLast?.getD p.inherited

theorem find?_declaredType?_of_accepts (accepted : ∀ h ∈ front, policy.accepts h) :
    (front.filterMap declaredType?).find? (fun value => !policy.allowsType value) = none := by
  rw [List.find?_eq_none]
  intro value mem
  obtain ⟨h, given, declared⟩ := List.mem_filterMap.mp mem
  rw [declaredType?_eq_some_iff.mp declared] at given
  simpa [Policy.accepts] using accepted _ given

theorem refused?_of_split (split : p.headers = front ++ .type value :: back)
    (accepted : ∀ h ∈ front, policy.accepts h) (refused : policy.allowsType value = false) :
    p.refused? policy = some value := by
  rw [refused?, declaredTypes, split, List.filterMap_append, List.find?_append,
    find?_declaredType?_of_accepts accepted]
  simp [declaredType?, refused]

theorem blamed_of_split (split : p.headers = front ++ .type value :: back)
    (accepted : ∀ h ∈ front, policy.accepts h) (refused : policy.allowsType value = false) :
    p.blamed policy = (front.filterMap fieldName?).getLast?.getD p.inherited := by
  rw [blamed, split, List.takeWhile_append_of_pos accepted, List.takeWhile_cons_of_neg]
  · rw [List.append_nil]
  · simp [Policy.accepts, refused]

theorem result_noteLines (policy : Policy) (p : Part) :
    (Heading.noteLines policy (.ofName p.inherited) p.frame.lines).result =
      match p.refused? policy with
      | some value => .error (.disallowedContentType (p.blamed policy)
          (String.ofList (Text.trim (Text.Utf8.decodeLossy value))))
      | none => .ok p.heading := by
  cases noted : (Heading.noteLines policy (.ofName p.inherited) p.frame.lines).result with
  | ok heading =>
    obtain ⟨allowed, rfl⟩ := noteLines_eq_ok_iff.mp noted
    rw [refused?, declaredTypes, find?_declaredType?_of_accepts (typesAllowed_iff.mp allowed)]
  | error e =>
    obtain ⟨front, value, back, split, accepted, refused, rfl⟩ :=
      Heading.result_noteLines_eq_error_iff.mp noted
    rw [refused?_of_split split accepted refused, blamed_of_split split accepted refused,
      Heading.name_foldl_apply]
    rfl

theorem fault?_eq (policy : Policy) (p : Part) : p.fault? policy =
    match p.refused? policy with
    | some value => some (.disallowedContentType (p.blamed policy)
        (String.ofList (Text.trim (Text.Utf8.decodeLossy value))))
    | none =>
      if !policy.allowsName p.name then some (.unknownField p.name)
      else if (policy.sizes.limitFor p.name).toNat < p.frame.content.length then
        some (.fieldTooLarge (policy.sizes.limitFor p.name) p.name)
      else none := by
  rw [fault?, result_noteLines]
  cases p.refused? policy <;> rfl

theorem fault?_eq_disallowedContentType_iff {name type : String} :
    p.fault? policy = some (.disallowedContentType name type) ↔
      ∃ front value back, p.headers = front ++ .type value :: back ∧
        (∀ h ∈ front, policy.accepts h) ∧ policy.allowsType value = false ∧
        name = (front.filterMap fieldName?).getLast?.getD p.inherited ∧
        type = String.ofList (Text.trim (Text.Utf8.decodeLossy value)) := by
  have noted : p.fault? policy = some (.disallowedContentType name type) ↔
      (Heading.noteLines policy (.ofName p.inherited) p.frame.lines).result =
        .error (.disallowedContentType name type) := by
    unfold fault?
    cases (Heading.noteLines policy (.ofName p.inherited) p.frame.lines).result with
    | error e => simp
    | ok heading =>
      dsimp only
      split
      · simp
      · split <;> simp
  rw [noted, Heading.result_noteLines_eq_error_iff]
  simp only [DecodeError.disallowedContentType.injEq, Heading.name_foldl_apply]
  rfl

theorem name_of_split (split : p.headers = front ++ .type value :: back) :
    p.name = (back.filterMap fieldName?).getLast?.getD
      ((front.filterMap fieldName?).getLast?.getD p.inherited) := by
  have given : p.headers.filterMap fieldName? =
      front.filterMap fieldName? ++ back.filterMap fieldName? := by
    rw [split, List.filterMap_append]
    rfl
  rw [name, given, List.getLast?_append]
  cases (back.filterMap fieldName?).getLast? <;> rfl

end Part

namespace Decoder

/-- A body is rejected for a type if it is the first one that is not allowed in a part that is reached.
The type is the declared value without blanks around it. The name is the one that the header lines in
front of the type leave, and the part itself has it unless a line behind the type gives another. -/
theorem decode_refuses_type (d : Decoder) (body : Bytes) (name type : String) :
    (d.decode body).result = .error (.disallowedContentType name type) ↔
      body.length ≤ d.policy.sizes.wholeBody.toNat ∧
      ∃ part front value back, d.Reaches body part ∧ part.headers = front ++ .type value :: back ∧
        (∀ h ∈ front, d.policy.accepts h) ∧ d.policy.allowsType value = false ∧
        type = String.ofList (Text.trim (Text.Utf8.decodeLossy value)) ∧
        name = (front.filterMap fieldName?).getLast?.getD part.inherited ∧
        part.name = (back.filterMap fieldName?).getLast?.getD name := by
  rw [result_decode_eq_fault_iff (.disallowedContentType name type) nofun nofun]
  simp only [Part.fault?_eq_disallowedContentType_iff]
  constructor
  · rintro ⟨fits, part, reached, front, value, back, split, accepted, refused, rfl, rfl⟩
    exact ⟨fits, part, front, value, back, reached, split, accepted, refused, rfl, rfl,
      Part.name_of_split split⟩
  · rintro ⟨fits, part, front, value, back, reached, split, accepted, refused, rfl, rfl, _⟩
    exact ⟨fits, part, reached, front, value, back, split, accepted, refused, rfl, rfl⟩

def typeInFront : List Section :=
  [⟨[], [Text.Utf8.encode "Content-Disposition: form-data; name=a".toList], [49]⟩,
    ⟨[], [Text.Utf8.encode "Content-Type: text/plain".toList,
      Text.Utf8.encode "Content-Disposition: form-data; name=b".toList], [50]⟩]

def lenientX : Decoder := ⟨"X", .lenient⟩

def bodyX (sections : List Section) : Bytes := Framing.encode lenientX.markers [] sections []

theorem madeOf_bodyX {sections : List Section} (written : ∀ s ∈ sections, s.Proper lenientX.markers)
    (fits : (bodyX sections).length ≤ lenientX.policy.sizes.wholeBody.toNat) :
    lenientX.MadeOf sections (bodyX sections) :=
  ⟨by decide, written, ⟨[], [], List.forall_mem_nil _, rfl⟩, fits⟩

theorem madeOf_typeInFront : lenientX.MadeOf typeInFront (bodyX typeInFront) :=
  madeOf_bodyX (by decide) (by decide +kernel)

theorem decode_typeInFront : (lenientX.decode (bodyX typeInFront)).result =
    .error (.disallowedContentType "a" "text/plain") := by
  have fault : lenientX.policy.fault? (Part.ofFrames "" (typeInFront.map Section.frame)) =
      some (.disallowedContentType "a" "text/plain") := by decide +kernel
  rw [madeOf_typeInFront.result_decode, Policy.verdict, fault]

/-- The part that is refused has a name of its own, and the part in front of it is blamed. -/
theorem part_in_front_blamed :
    ∃ body, lenientX.MadeOf typeInFront body ∧
      (lenientX.decode body).result = .error (.disallowedContentType "a" "text/plain") ∧
      (∃ part ∈ lenientX.parts body, (part.refused? lenientX.policy).isSome) ∧
      ∀ part ∈ lenientX.parts body, (part.refused? lenientX.policy).isSome → part.name = "b" := by
  refine ⟨_, madeOf_typeInFront, decode_typeInFront, ?_⟩
  rw [madeOf_typeInFront.parts]
  exact ⟨by decide, by decide +kernel⟩

end Decoder
end FormBody
