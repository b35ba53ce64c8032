import FormBody.Proofs.Counterparts
import FormBody.Proofs.Text.Utf8

/-! Changes to a body that its form does not show. Lines in front of all parts change nothing. The order
of header lines of different kinds and lines that give no header decide at most who is blamed for a
type that is refused. Declared lengths decide nothing but themselves. -/
namespace FormBody

open Bytes PartHeader

namespace Decoder

/-- Lines that do not begin with the delimiter change nothing in front of a body. -/
theorem decode_preamble {d : Decoder} {lines : List Bytes} {body : Bytes}
    (skipped : ∀ line ∈ lines, IsLine line ∧ ¬ d.markers.delimiter <+: line) (filled : body ≠ [])
    (fits : (unlines lines ++ body).length ≤ d.policy.sizes.wholeBody.toNat) :
    (d.decode (unlines lines ++ body)).result = (d.decode body).result := by
  have framing : Framing.ofBytes d.markers (unlines lines ++ body) = Framing.ofBytes d.markers body :=
    Framing.ofBytes_congr (Framing.gap_unlines (Markers.proper_ofBoundary d.boundary) skipped body)
  have short : body.length ≤ d.policy.sizes.wholeBody.toNat := by
    rw [List.length_append] at fits
    omega
  have parts : d.parts (unlines lines ++ body) = d.parts body := by
    simp only [Decoder.parts, framing]
  -- an empty body would count as closed, and the lines alone would not
  have closes : d.closes (unlines lines ++ body) = d.closes body := by
    have whole : unlines lines ++ body ≠ [] := List.append_ne_nil_of_right_ne_nil _ filled
    simp only [Decoder.closes, framing, List.isEmpty_eq_false_iff.mpr filled,
      List.isEmpty_eq_false_iff.mpr whole]
  simp only [result_decode_eq, parts, closes, if_neg (Nat.not_lt.mpr fits), if_neg (Nat.not_lt.mpr short)]

theorem decode_preamble_twoLines :
    (lenientX.decode (unlines [[72, 105, 13], []] ++ Text.Utf8.encode
      "--X\r\nContent-Disposition: form-data; name=a\r\n\r\n1\r\n--X--".toList)).result =
        .ok (.ofFields [⟨"a", none, none, none, 0, [49]⟩]) :=
  (decode_preamble (by decide) (by decide) (by decide +kernel)).trans (by decide +kernel)

end Decoder

/-- Header lines with the same values in the same order for each header that is understood. Lines of
different headers, and lines that give none, may stand in any order. -/
structure Frame.Rearranges (f g : Frame) : Prop where
  content : f.content = g.content
  values : ∀ name ∈ understood, values name f.lines = values name g.lines

theorem Frame.Rearranges.agrees {f g : Frame} (rearranged : f.Rearranges g) : f.Agrees g :=
  ⟨rearranged.content, rearranged.values _ disposition_understood, rearranged.values _ type_understood⟩

/-- The same error, but for the name that a type is refused under. -/
inductive DecodeError.Alike : DecodeError → DecodeError → Prop
  | same (e : DecodeError) : Alike e e
  | renamed (name other type : String) :
      Alike (.disallowedContentType name type) (.disallowedContentType other type)

theorem Frame.Rearranges.matched {f g : Frame} (rearranged : f.Rearranges g) (policy : Policy)
    (inherited : String) : Part.Matches policy DecodeError.Alike id ⟨inherited, f⟩ ⟨inherited, g⟩ where
  fault := rearranged.agrees.rel_fault? inherited policy .same fun _ => .renamed _ _ _
  field index := by
    have lengths := rearranged.values _ length_understood
    simp only [Part.field_eq_values, rearranged.agrees.name_eq, rearranged.agrees.dispositions,
      rearranged.agrees.types, lengths, rearranged.content]

namespace Decoder

/-- Two bodies whose parts differ in the order of header lines and in lines that give no header. Both
are accepted, with the same form, or both are rejected, for the same reason; only the name that is
blamed for a type can be another one. -/
theorem decode_rearranged {d : Decoder} {body other : Bytes} {sections others : List Section}
    (made : d.MadeOf sections body) (remade : d.MadeOf others other)
    (rearranged : List.Forall₂ (fun s t => s.frame.Rearranges t.frame) sections others) :
    (∃ e f, e.Alike f ∧ (d.decode body).result = .error e ∧ (d.decode other).result = .error f) ∨
    ∃ form, (d.decode body).result = .ok form ∧ (d.decode other).result = .ok form := by
  rcases decode_of_matches made remade (fun inherited _ _ change => change.agrees.name_eq inherited)
    (fun inherited _ _ change => change.matched d.policy inherited) (fun _ => rfl) rearranged with
    rejected | ⟨a, b, first, second, same⟩
  · exact .inl rejected
  · obtain rfl : a = b := by
      cases a
      cases b
      simpa using same
    exact .inr ⟨a, first, second⟩

/-- The parts of `typeInFront` with the name in front of the type, behind a line that looks like the
terminator. -/
def nameInFront : List Section :=
  [⟨[], [Text.Utf8.encode "Content-Disposition: form-data; name=a".toList], [49]⟩,
    ⟨[], [Text.Utf8.encode "--X--".toList, Text.Utf8.encode "Content-Disposition: form-data; name=b".toList,
      Text.Utf8.encode "Content-Type: text/plain".toList], [50]⟩]

theorem madeOf_nameInFront : lenientX.MadeOf nameInFront (bodyX nameInFront) :=
  madeOf_bodyX (by decide) (by decide +kernel)

theorem decode_rearranged_nameInFront : ∃ name, (lenientX.decode (bodyX nameInFront)).result =
    .error (.disallowedContentType name "text/plain") := by
  have rearranged : List.Forall₂ (fun s t => s.frame.Rearranges t.frame) typeInFront nameInFront :=
    .cons ⟨rfl, by decide⟩ (.cons ⟨rfl, by decide⟩ .nil)
  rcases decode_rearranged madeOf_typeInFront madeOf_nameInFront rearranged with
    ⟨e, f, alike, first, second⟩ | ⟨form, first, _⟩
  · obtain rfl := Except.error.inj (first.symm.trans decode_typeInFront)
    cases alike with
    | same => exact ⟨"a", second⟩
    | renamed _ other _ => exact ⟨other, second⟩
  · rw [decode_typeInFront] at first
    cases first

end Decoder

namespace PartHeader

def isLength : PartHeader → Bool
  | .length _ => true
  | _ => false

/-- The line gives a length, well formed or not. -/
def declaresLength (line : Bytes) : Bool := (value? line lengthName).isSome

/-- A value that gives a length: digits, with or without a plus sign and with blanks around them, that
denote a number of 64 bits. -/
def Declares (value : Bytes) (n : UInt64) : Prop :=
  ∃ text digits, value = Text.Utf8.encode text ∧
    (Text.trim text = digits ∨ Text.trim text = '+' :: digits) ∧
    digits ≠ [] ∧ (∀ c ∈ digits, c.isDigit) ∧ Text.Decimal.ofDigits digits = n.toNat

theorem declaredLength?_eq_some_iff {value : Bytes} {n : UInt64} :
    declaredLength? value = some n ↔ Declares value n := by
  simp only [declaredLength?, Option.bind_eq_some_iff, Text.Utf8.decode?_eq_some_iff,
    Text.Decimal.parse?_eq_some_iff, Declares, exists_and_left]

theorem filterMap_ofLine?_filter (lines : List Bytes) :
    (lines.filter (!declaresLength ·)).filterMap ofLine? =
      (lines.filterMap ofLine?).filter (!isLength ·) := by
  rw [List.filterMap_filter, List.filter_filterMap]
  congr 1
  funext line
  -- a line that gives a length spells no other header
  rw [declaresLength, value?_eq_bind length_understood]
  cases ofLine? line with
  | none => rfl
  | some h => cases h <;> rfl

/-- Lengths give nothing but lengths. -/
theorem filterMap_filter_isLength {α : Type} {given? : PartHeader → Option α}
    (silent : ∀ value, given? (.length value) = none) (headers : List PartHeader) :
    (headers.filter (!isLength ·)).filterMap given? = headers.filterMap given? := by
  rw [List.filterMap_filter]
  congr 1
  funext h
  cases h <;> simp [isLength, silent]

/-- Lengths are always accepted, so that none of them changes what stands in front of a refused type. -/
theorem takeWhile_filter_isLength (policy : Policy) (headers : List PartHeader) :
    (headers.filter (!isLength ·)).takeWhile policy.accepts =
      (headers.takeWhile policy.accepts).filter (!isLength ·) := by
  rw [List.takeWhile_filter]
  congr 2
  funext h
  cases h <;> rfl

end PartHeader

/-- Header lines that are the same but for those that give a length. -/
structure Frame.Redeclares (f g : Frame) : Prop where
  content : f.content = g.content
  others : f.lines.filter (!declaresLength ·) = g.lines.filter (!declaresLength ·)

/-- The field without what it declared of its length. -/
def Field.undeclared (field : Field) : Field := { field with contentLength := none }

theorem Field.name_undeclared (field : Field) : field.undeclared.name = field.name := rfl

namespace Frame.Redeclares

variable {f g : Frame} (redeclared : f.Redeclares g)

include redeclared

theorem filter_headers : (f.lines.filterMap ofLine?).filter (!isLength ·) =
    (g.lines.filterMap ofLine?).filter (!isLength ·) := by
  rw [← filterMap_ofLine?_filter, redeclared.others, filterMap_ofLine?_filter]

theorem values_eq {name : Bytes} (known : name ∈ understood) (other : name ≠ lengthName) :
    values name f.lines = values name g.lines := by
  have silent : ∀ value, (PartHeader.length value).valueOf? name = none := fun _ => if_neg other.symm
  rw [values_eq_filterMap known, values_eq_filterMap known, ← filterMap_filter_isLength silent,
    redeclared.filter_headers, filterMap_filter_isLength silent]

theorem agrees : f.Agrees g :=
  ⟨redeclared.content, redeclared.values_eq disposition_understood (by decide),
    redeclared.values_eq type_understood (by decide)⟩

theorem blamed_eq (policy : Policy) (inherited : String) :
    Part.blamed policy ⟨inherited, f⟩ = Part.blamed policy ⟨inherited, g⟩ := by
  have silent : ∀ value, fieldName? (.length value) = none := fun _ => rfl
  -- the headers up to a refused type are the same once lengths are left out of them
  have front (headers : List PartHeader) : (headers.takeWhile policy.accepts).filterMap fieldName? =
      ((headers.filter (!isLength ·)).takeWhile policy.accepts).filterMap fieldName? := by
    rw [takeWhile_filter_isLength, filterMap_filter_isLength silent]
  have given : ((Part.headers ⟨inherited, f⟩).takeWhile policy.accepts).filterMap fieldName? =
      ((Part.headers ⟨inherited, g⟩).takeWhile policy.accepts).filterMap fieldName? := by
    rw [front, front (Part.headers ⟨inherited, g⟩), Part.headers, Part.headers,
      redeclared.filter_headers]
  simp only [Part.blamed, given]

theorem matched (policy : Policy) (inherited : String) :
    Part.Matches policy Eq Field.undeclared ⟨inherited, f⟩ ⟨inherited, g⟩ where
  fault := redeclared.agrees.rel_fault? inherited policy (fun _ => rfl) fun _ => by
    rw [redeclared.blamed_eq]
  field index := by rw [redeclared.agrees.field_eq]; rfl

end Frame.Redeclares

namespace Decoder

/-- Two bodies whose parts differ in the lines that give a length. Both are rejected for the same reason,
or both are accepted and their fields differ in nothing but the declared length. What a field says of it
is what the last such line of its own part declares, and nothing if that is no number or there is no
such line. -/
theorem decode_redeclared {d : Decoder} {body other : Bytes} {sections others : List Section}
    (made : d.MadeOf sections body) (remade : d.MadeOf others other)
    (redeclared : List.Forall₂ (fun s t => s.frame.Redeclares t.frame) sections others) :
    ((∃ e, (d.decode body).result = .error e ∧ (d.decode other).result = .error e) ∨
      ∃ a b, (d.decode body).result = .ok a ∧ (d.decode other).result = .ok b ∧
        a.fields.map Field.undeclared = b.fields.map Field.undeclared) ∧
    ∀ form, (d.decode body).result = .ok form → ∀ field ∈ form.fields,
      ∃ s, sections[field.index]? = some s ∧ field.content = s.frame.content ∧
        ∀ n, field.contentLength = some n ↔
          ∃ value, (values lengthName s.frame.lines).getLast? = some value ∧ Declares value n := by
  constructor
  · rcases decode_of_matches made remade (fun inherited _ _ change => change.agrees.name_eq inherited)
      (fun inherited _ _ change => change.matched d.policy inherited) Field.name_undeclared redeclared with
      ⟨e, _, rfl, rejected⟩ | accepted
    · exact .inl ⟨e, rejected⟩
    · exact .inr accepted
  · intro form accepted field mem
    obtain ⟨part, here, same⟩ := exists_part_of_accepted accepted mem
    rw [made.parts] at here
    have there := Part.frame_of_getElem? here
    rw [List.getElem?_map] at there
    obtain ⟨s, there, frame⟩ := Option.map_eq_some_iff.mp there
    refine ⟨s, there, ?_, fun n => ?_⟩
    · rw [← same, frame]
      rfl
    · rw [← same, Part.contentLength_field, ← frame, Option.bind_eq_some_iff]
      simp only [declaredLength?_eq_some_iff]

def overstated : List Section :=
  [⟨[], [Text.Utf8.encode "Content-Disposition: form-data; name=a".toList,
      Text.Utf8.encode "Content-Length: 99999999999999999999".toList], [49]⟩,
    ⟨[], [Text.Utf8.encode "content-length: +07 ".toList,
      Text.Utf8.encode "Content-Disposition: form-data; name=b".toList], [50]⟩]

def unstated : List Section :=
  [⟨[], [Text.Utf8.encode "Content-Length:".toList,
      Text.Utf8.encode "Content-Disposition: form-data; name=a".toList], [49]⟩,
    ⟨[], [Text.Utf8.encode "Content-Disposition: form-data; name=b".toList], [50]⟩]

theorem madeOf_overstated : lenientX.MadeOf overstated (bodyX overstated) :=
  madeOf_bodyX (by decide) (by decide +kernel)

theorem madeOf_unstated : lenientX.MadeOf unstated (bodyX unstated) :=
  madeOf_bodyX (by decide) (by decide +kernel)

theorem decode_redeclared_overstated :
    ∃ a b, (lenientX.decode (bodyX overstated)).result = .ok a ∧
      (lenientX.decode (bodyX unstated)).result = .ok b ∧
      a.fields.map Field.undeclared = b.fields.map Field.undeclared ∧
      ∀ field ∈ a.fields, field.index = 1 → field.contentLength = some 7 := by
  have redeclared : List.Forall₂ (fun s t => s.frame.Redeclares t.frame) overstated unstated :=
    .cons ⟨rfl, by decide⟩ (.cons ⟨rfl, by decide⟩ .nil)
  have faultless : lenientX.policy.fault? (Part.ofFrames "" (overstated.map Section.frame)) = none := by
    decide +kernel
  obtain ⟨outcome, declared⟩ := decode_redeclared madeOf_overstated madeOf_unstated redeclared
  rcases outcome with ⟨e, rejected, _⟩ | ⟨a, b, first, second, same⟩
  · rw [madeOf_overstated.result_decode, Policy.verdict, faultless] at rejected
    cases rejected
  · refine ⟨a, b, first, second, same, fun field mem index => ?_⟩
    obtain ⟨s, here, _, length⟩ := declared a first field mem
    rw [index] at here
    obtain rfl := Option.some.inj here
    have declares : Declares (Text.Utf8.encode " +07 ".toList) 7 :=
      ⟨" +07 ".toList, ['0', '7'], rfl, .inr (by decide), by decide, by simp, by decide +kernel⟩
    exact (length 7).mpr ⟨_, by decide +kernel, declares⟩

end Decoder
end FormBody
