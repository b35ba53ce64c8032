import FormBody.Proofs.Framing.Acceptance
import FormBody.Proofs.Form

/-! Content types that get through. The gate asks whether an allowed essence occurs anywhere in the
declared value, while the type that is kept comes from reading the same value as a media type. The two
agree where the allowed essence is what stands in front of the first semicolon; elsewhere a type that
is not listed passes. -/
namespace FormBody

open Text

/-- An allowed type has this essence, letter case aside. -/
def Policy.ListsEssence (policy : Policy) (essence : List Char) : Prop :=
  ∃ a ∈ policy.allowedTypes, eqIgnoreCase essence a.essence.toList

theorem Text.toLower_toLower (c : Char) : c.toLower.toLower = c.toLower := by
  by_cases upper : 'A'.val ≤ c.val ∧ c.val ≤ 'Z'.val
  · have lowered : c.toLower.val = c.val + ('a'.val - 'A'.val) := congrArg Char.val (dif_pos upper)
    have beyond : ¬ ('A'.val ≤ c.toLower.val ∧ c.toLower.val ≤ 'Z'.val) := by
      rw [lowered]
      grind
    exact dif_neg beyond
  · have same : c.toLower = c := dif_neg upper
    rw [same, same]

theorem Text.lower_lower (text : List Char) : lower (lower text) = lower text := by
  rw [lower, lower, List.map_map]
  exact List.map_congr_left fun c _ => toLower_toLower c

theorem Policy.listsEssence_lower {policy : Policy} {essence : List Char} :
    policy.ListsEssence (lower essence) ↔ policy.ListsEssence essence := by
  simp only [ListsEssence, eqIgnoreCase, lower_lower]

namespace MediaType

theorem ne_semicolon_of_isToken {c : Char} (token : isToken c) : (c != ';') = true :=
  bne_iff_ne.mpr fun same => absurd token (by rw [same]; decide)

theorem takeWhile_semicolon {type subtype tail : List Char} (typeTokens : ∀ c ∈ type, isToken c)
    (subtypeTokens : ∀ c ∈ subtype, isToken c) (ends : tail = [] ∨ ∃ more, tail = ';' :: more) :
    (type ++ '/' :: (subtype ++ tail)).takeWhile (· != ';') = type ++ '/' :: subtype := by
  have solid : ∀ c ∈ type ++ '/' :: subtype, (c != ';') = true := by
    intro c mem
    rcases List.mem_append.mp mem with inType | behind
    · exact ne_semicolon_of_isToken (typeTokens c inType)
    · rcases List.mem_cons.mp behind with rfl | inSubtype
      · decide
      · exact ne_semicolon_of_isToken (subtypeTokens c inSubtype)
  have stop : ∀ c ∈ tail.head?, (c != ';') = false := by
    rcases ends with rfl | ⟨more, rfl⟩ <;> simp
  rw [← List.cons_append, ← List.append_assoc]
  exact (takeWhile_append_stop solid stop).1

theorem essence_of_parse? {text : List Char} {m : MediaType} (h : parse? text = some m) :
    m.essence.toList = lower (text.takeWhile (· != ';')) := by
  have typeTokens : ∀ c ∈ text.takeWhile isToken, isToken c := fun c => List.mem_takeWhile_imp
  unfold parse? at h
  split at h
  · next rest slash =>
    have subtypeTokens : ∀ c ∈ rest.takeWhile isToken, isToken c := fun c => List.mem_takeWhile_imp
    have front : (text.takeWhile isToken ++ '/' :: (rest.takeWhile isToken ++
        rest.dropWhile isToken)).takeWhile (· != ';') = text.takeWhile (· != ';') := by
      rw [List.takeWhile_append_dropWhile, ← slash, List.takeWhile_append_dropWhile]
    dsimp only at h
    split at h
    · cases h
    · split at h
      · next ended =>
        cases h
        rw [← front, takeWhile_semicolon typeTokens subtypeTokens (.inl ended), String.toList_ofList]
      · next more semicolon =>
        split at h
        · cases h
        · obtain ⟨_, _, rfl⟩ := Option.map_eq_some_iff.mp h
          rw [← front, takeWhile_semicolon typeTokens subtypeTokens (.inr ⟨more, semicolon⟩),
            String.toList_ofList]
      · cases h
  · cases h

end MediaType

namespace Part

/-- The values of the type headers, the last of which counts. -/
def declaredTypes (p : Part) : List Bytes := p.headers.filterMap PartHeader.declaredType?

theorem contentType_field (p : Part) (index : Nat) :
    (p.field index).contentType = p.declaredTypes.getLast?.bind Heading.mediaType? := by
  rw [field, heading, Heading.contentType_foldl_apply, declaredTypes]
  cases (p.headers.filterMap PartHeader.declaredType?).getLast? <;> rfl

end Part

namespace Decoder

/-- In an accepted body an allowed essence occurs somewhere in every value that a part declares. The
type that a field keeps was read from the last value of its part, and its own essence is allowed
exactly if an allowed one is all that stands in front of the first semicolon. -/
theorem contentType_of_accepted {d : Decoder} {body : Bytes} {form : Form}
    (accepted : (d.decode body).result = .ok form) :
    (∀ part ∈ d.parts body, ∀ value ∈ part.declaredTypes, ∃ a ∈ d.policy.allowedTypes,
      Bytes.containsIgnoreCase value (Utf8.encode a.essence.toList)) ∧
    ∀ field ∈ form.fields, ∀ m, field.contentType = some m →
      ∃ part value text, (d.parts body)[field.index]? = some part ∧
        part.declaredTypes.getLast? = some value ∧ Utf8.decode? value = some text ∧
        MediaType.parse? (trim text) = some m ∧
        (d.policy.ListsEssence m.essence.toList ↔
          d.policy.ListsEssence ((trim text).takeWhile (· != ';'))) := by
  obtain ⟨_, obeys, _, rfl⟩ := result_decode_eq_ok_iff.mp accepted
  constructor
  · intro part inside value mem
    obtain ⟨header, given, declared⟩ := List.mem_filterMap.mp mem
    rw [PartHeader.declaredType?_eq_some_iff.mp declared] at given
    exact List.any_eq_true.mp ((obeys part inside).types value given)
  · intro field mem m given
    obtain ⟨i, here⟩ := List.mem_iff_getElem?.mp ((Form.sublist_ofFields _).subset mem)
    rw [Part.getElem?_fields, Nat.zero_add] at here
    obtain ⟨part, there, rfl⟩ := Option.map_eq_some_iff.mp here
    rw [Part.contentType_field] at given
    obtain ⟨value, last, read⟩ := Option.bind_eq_some_iff.mp given
    obtain ⟨text, decoded, parsed⟩ := Option.bind_eq_some_iff.mp read
    refine ⟨part, value, text, there, last, decoded, parsed, ?_⟩
    rw [MediaType.essence_of_parse? parsed, Policy.listsEssence_lower]

def longerSubtype : Bytes :=
  Utf8.encode ("--X\r\nContent-Disposition: form-data; name=a\r\n" ++
    "Content-Type: application/octet-streamer\r\n\r\n1\r\n--X--").toList

theorem decode_longerSubtype : ((Decoder.mk "X" .lenient).decode longerSubtype).result =
    .ok (.ofFields [⟨"a", none, some ⟨"application/octet-streamer", [], ""⟩, none, 0, [49]⟩]) := by
  decide +kernel

theorem contentType_of_accepted_longerSubtype :
    ∃ part value text, ((Decoder.mk "X" .lenient).parts longerSubtype)[0]? = some part ∧
      part.declaredTypes.getLast? = some value ∧ Utf8.decode? value = some text ∧
      MediaType.parse? (trim text) = some ⟨"application/octet-streamer", [], ""⟩ := by
  obtain ⟨part, value, text, there, last, decoded, parsed, _⟩ :=
    (contentType_of_accepted decode_longerSubtype).2 _ (List.mem_singleton_self _) _ rfl
  exact ⟨part, value, text, there, last, decoded, parsed⟩

/-- The gate lets a type through that no allowed type has the essence of. -/
theorem unlisted_type_accepted :
    ∃ form, ((Decoder.mk "X" .lenient).decode longerSubtype).result = .ok form ∧
      ∃ field ∈ form.fields, ∃ m, field.contentType = some m ∧
        ¬ Policy.lenient.ListsEssence m.essence.toList := by
  refine ⟨_, decode_longerSubtype, _, List.mem_singleton_self _, _, rfl, ?_⟩
  rintro ⟨a, listed, same⟩
  obtain rfl := List.mem_singleton.mp listed
  exact absurd same (by decide)

end Decoder
end FormBody
