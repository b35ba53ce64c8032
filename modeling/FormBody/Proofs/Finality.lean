import FormBody.Proofs.Framing.Extension
import FormBody.Proofs.Refusal

/-! Rejections that no further bytes can change. A part that a delimiter ends stays as it is in every
longer body, and so do the header lines that have been read of the part behind it. The first fault that is
found among them is found again. The name and the size of a part that the end of the input cuts off are
not settled in this way: another line can still name it, and a delimiter can still take bytes from its
content. -/
namespace FormBody

theorem Framing.Extends.prefix_complete {f g : Framing} (longer : f.Extends g) : f.complete <+: g.frames := by
  cases longer with
  | closed complete => exact List.prefix_refl _
  | exhausted split =>
    refine List.IsPrefix.trans ?_ g.complete_prefix_frames
    rw [split]
    exact List.prefix_append _ _
  | inside split =>
    rw [split]
    exact List.prefix_append _ _

namespace Part

variable {policy : Policy} {inherited : String} {f g : Frame}

theorem exists_ofFrames_append (inherited : String) (front : List Frame) :
    ∃ left, ∀ back, ofFrames inherited (front ++ back) = ofFrames inherited front ++ ofFrames left back := by
  induction front generalizing inherited with
  | nil => exact ⟨inherited, fun _ => rfl⟩
  | cons f front ih =>
    obtain ⟨left, split⟩ := ih (name ⟨inherited, f⟩)
    exact ⟨left, fun back => congrArg (Part.mk inherited f :: ·) (split back)⟩

theorem ofFrames_prefix {front frames : List Frame} (h : front <+: frames) :
    ofFrames inherited front <+: ofFrames inherited frames := by
  obtain ⟨back, rfl⟩ := h
  obtain ⟨left, split⟩ := exists_ofFrames_append inherited front
  rw [split]
  exact List.prefix_append _ _

theorem fault?_of_lines_prefix {name type : String} (lines : f.lines <+: g.lines)
    (refused : fault? policy ⟨inherited, f⟩ = some (.disallowedContentType name type)) :
    fault? policy ⟨inherited, g⟩ = some (.disallowedContentType name type) := by
  obtain ⟨front, value, back, split, accepted, denied, named, declared⟩ :=
    fault?_eq_disallowedContentType_iff.mp refused
  obtain ⟨others, whole⟩ := lines
  have longer : headers ⟨inherited, g⟩ =
      front ++ .type value :: (back ++ others.filterMap PartHeader.ofLine?) := by
    rw [headers, ← whole, List.filterMap_append]
    change headers ⟨inherited, f⟩ ++ _ = _
    rw [split, List.append_assoc, List.cons_append]
  exact fault?_eq_disallowedContentType_iff.mpr
    ⟨front, value, _, longer, accepted, denied, named, declared⟩

end Part

theorem Policy.fault?_of_prefix {policy : Policy} {parts others : List Part} {e : DecodeError}
    (h : parts <+: others) (found : policy.fault? parts = some e) : policy.fault? others = some e := by
  obtain ⟨back, rfl⟩ := h
  unfold fault? at found ⊢
  rw [List.findSome?_append, found, Option.some_or]

namespace Decoder

variable {d : Decoder} {body : Bytes} {e : DecodeError}

/-- The parts of a body that a delimiter ends. -/
def endedParts (d : Decoder) (body : Bytes) : List Part :=
  Part.ofFrames "" (Framing.ofBytes d.markers body).complete

/-- The error is the fault of a part that a delimiter ends, and no part in front of it is at fault. -/
def BlamesEnded (d : Decoder) (body : Bytes) (e : DecodeError) : Prop :=
  ∃ front part back, d.endedParts body = front ++ part :: back ∧ (∀ p ∈ front, p.Obeys d.policy) ∧
    part.fault? d.policy = some e

theorem fault?_append_of_ended (blamed : d.BlamesEnded body e) (more : Bytes) :
    d.policy.fault? (d.parts (body ++ more)) = some e := by
  have proper : d.markers.Proper := Markers.proper_ofBoundary d.boundary
  obtain ⟨front, part, back, split, obeyed, fault⟩ := blamed
  have found : d.policy.fault? (d.endedParts body) = some e :=
    Policy.fault?_eq_some_iff.mpr ⟨front, part, back, split, obeyed, fault⟩
  have longer := Framing.extends_append proper body more
  exact Policy.fault?_of_prefix (Part.ofFrames_prefix longer.prefix_complete) found

theorem fault?_append_of_type {name type : String}
    (found : d.policy.fault? (d.parts body) = some (.disallowedContentType name type)) (more : Bytes) :
    d.policy.fault? (d.parts (body ++ more)) = some (.disallowedContentType name type) := by
  have proper : d.markers.Proper := Markers.proper_ofBoundary d.boundary
  have longer := Framing.extends_append proper body more
  rw [parts] at found ⊢
  generalize Framing.ofBytes d.markers (body ++ more) = g at longer ⊢
  generalize Framing.ofBytes d.markers body = f at longer found
  cases longer with
  | closed complete => exact found
  | exhausted split =>
    refine Policy.fault?_of_prefix (Part.ofFrames_prefix ?_) found
    exact (Framing.Extends.exhausted split).prefix_complete
  | @inside complete behind last frame g split lines =>
    -- Of the part that is cut off only the lines read so far are known, and the fault is in them.
    obtain ⟨left, parts⟩ := Part.exists_ofFrames_append "" complete
    rw [show Framing.frames ⟨complete, .inside last⟩ = complete ++ [last] from rfl, parts] at found
    rw [split, parts]
    unfold Policy.fault? at found ⊢
    rw [List.findSome?_append] at found ⊢
    cases early : (Part.ofFrames "" complete).findSome? (·.fault? d.policy) with
    | some e =>
      rw [early] at found
      exact found
    | none =>
      rw [early, Option.none_or] at found
      rw [Option.none_or]
      have refused : Part.fault? d.policy ⟨left, last⟩ = some (.disallowedContentType name type) := by
        simpa [Part.ofFrames] using found
      rw [Part.ofFrames, List.findSome?_cons, Part.fault?_of_lines_prefix lines refused]

/-- A rejection for a declared type is final, and so is one for any fault of a part that a delimiter ends:
every longer body that is within the limit is rejected with the same error. -/
theorem decode_append_of_rejected (d : Decoder) (body more : Bytes) (e : DecodeError)
    (fits : (body ++ more).length ≤ d.policy.sizes.wholeBody.toNat)
    (rejected : (d.decode body).result = .error e)
    (settled : (∃ name type, e = .disallowedContentType name type) ∨ d.BlamesEnded body e) :
    (d.decode (body ++ more)).result = .error e := by
  have found : d.policy.fault? (d.parts (body ++ more)) = some e := by
    rcases settled with ⟨name, type, rfl⟩ | blamed
    · obtain ⟨_, part, ⟨front, back, split, obeyed⟩, fault⟩ :=
        (result_decode_eq_fault_iff (.disallowedContentType name type) nofun nofun).mp rejected
      have first : d.policy.fault? (d.parts body) = some (.disallowedContentType name type) :=
        Policy.fault?_eq_some_iff.mpr ⟨front, part, back, split, obeyed, fault⟩
      exact fault?_append_of_type first more
    · exact fault?_append_of_ended blamed more
  rw [result_decode_eq, if_neg (Nat.not_lt.mpr fits), found]

def narrow : Decoder :=
  ⟨"X", { Policy.lenient with sizes := SizeLimits.unlimited.setFor "a" 1, allowedTypes := [] }⟩

def oversizedPart : Section :=
  ⟨[], [Text.Utf8.encode "Content-Disposition: form-data; name=a".toList], [49, 50, 51]⟩

def ended : Bytes := oversizedPart.encode narrow.markers ++ narrow.markers.delimiter

def typeAlone : Bytes := Text.Utf8.encode "--X\r\nContent-Type: text/plain\r\n".toList

def closing : Bytes := Text.Utf8.encode "--\r\n".toList

theorem blamesEnded_ended : narrow.BlamesEnded ended (.fieldTooLarge 1 "a") := by
  have framing : Framing.ofBytes narrow.markers ended =
      (Framing.ofBytes narrow.markers narrow.markers.delimiter).cons oversizedPart.frame :=
    Framing.ofBytes_section (Markers.proper_ofBoundary "X") (by decide) (by decide) (List.prefix_refl _)
  have split : narrow.endedParts ended = ⟨"", oversizedPart.frame⟩ ::
      Part.ofFrames (Part.name ⟨"", oversizedPart.frame⟩)
        (Framing.ofBytes narrow.markers narrow.markers.delimiter).complete := by
    rw [endedParts, framing]
    rfl
  exact ⟨[], _, _, split, List.forall_mem_nil _, by decide +kernel⟩

theorem decode_append_of_rejected_ended :
    (narrow.decode (ended ++ closing)).result = .error (.fieldTooLarge 1 "a") ∧
      (narrow.decode (typeAlone ++ closing)).result = .error (.disallowedContentType "" "text/plain") := by
  have tooLarge : (narrow.decode ended).result = .error (.fieldTooLarge 1 "a") := by decide +kernel
  have refused : (narrow.decode typeAlone).result = .error (.disallowedContentType "" "text/plain") := by
    decide +kernel
  exact ⟨decode_append_of_rejected narrow ended closing _ (by decide +kernel) tooLarge (.inr blamesEnded_ended),
    decode_append_of_rejected narrow typeAlone closing _ (by decide +kernel) refused (.inl ⟨_, _, rfl⟩)⟩

/-- A part that is too large only as long as nothing follows it. -/
def unended : Bytes :=
  Text.Utf8.encode "--X\r\nContent-Disposition: form-data; name=a\r\n\r\n1\r\n--".toList

example : (narrow.decode unended).result = .error (.fieldTooLarge 1 "a") ∧
    (narrow.decode (unended ++ [88])).result = .ok (.ofFields [⟨"a", none, none, none, 0, [49]⟩]) := by
  constructor <;> decide +kernel

end Decoder
end FormBody
