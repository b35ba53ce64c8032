import FormBody.Decoder.Basic
import FormBody.Proofs.Parameter.Spelling
import FormBody.Proofs.Search
import FormBody.Proofs.Text.Utf8

/-! Where a content type declares the boundary. The search for the form data stops at the type itself,
and behind it quoted values are passed over as a whole, so that only the keys of the list count. -/
namespace FormBody

open Text

theorem Text.not_mem_of_eqIgnoreCase {c : Char} {written name : List Char} (other : c.toLower ∉ lower name)
    (same : eqIgnoreCase written name) : c ∉ written := fun mem =>
  other (eq_of_beq same ▸ List.mem_map_of_mem mem)

theorem Text.lower_append (a b : List Char) : lower (a ++ b) = lower a ++ lower b := List.map_append

theorem Text.length_eq_of_eqIgnoreCase {a b : List Char} (same : eqIgnoreCase a b) : a.length = b.length := by
  have lengths := congrArg List.length (eq_of_beq same)
  simpa [lower] using lengths

namespace Parameter

def declares (key : List Char) (p : Parameter) : Bool := eqIgnoreCase p.key key && !p.value.isEmpty

theorem find?_eq_first (key : List Char) (params : List Parameter) :
    find? key params = (params.find? (declares key)).map (·.value) := by
  have both : (fun p : Parameter => decide (eqIgnoreCase p.key key ∧ !p.value.isEmpty)) = declares key := by
    funext p
    rw [declares, Bool.decide_and, Bool.decide_eq_true, Bool.decide_eq_true]
  rw [find?, List.find?_map, List.find?_filter, ← both]
  rfl

end Parameter

namespace Request

def isVisibleChar (c : Char) : Bool := c == '\t' || (32 ≤ c.toNat && c.toNat < 127)

theorem encodeChar_visible {c : Char} (visible : isVisibleChar c) :
    ∃ b : UInt8, Utf8.encodeChar c = [b] ∧ (b == 9 || isVisible b) ∧ Char.ofNat b.toNat = c := by
  have range : c.toNat = 9 ∨ 32 ≤ c.toNat ∧ c.toNat < 127 := by
    simp only [isVisibleChar, Bool.or_eq_true, Bool.and_eq_true, beq_iff_eq, decide_eq_true_eq] at visible
    exact visible.imp (fun tab => by rw [tab]; rfl) id
  have code := Utf8.encodeChar_one (n := c.toNat) (by omega)
  have value : (UInt8.ofNat c.toNat).toNat = c.toNat := Utf8.toNat_byte (by omega)
  rw [Char.ofNat_toNat] at code
  refine ⟨UInt8.ofNat c.toNat, code, ?_, by rw [value, Char.ofNat_toNat]⟩
  simp only [isVisible, Bool.or_eq_true, Bool.and_eq_true, beq_iff_eq, decide_eq_true_eq, UInt8.le_iff_toNat_le,
    UInt8.lt_iff_toNat_lt, ← UInt8.toNat_inj, value]
  exact range

theorem visibleText?_encode {text : List Char} (visible : text.all isVisibleChar) :
    visibleText? (Utf8.encode text) = some text := by
  have read : ((Utf8.encode text).all fun b => b == 9 || isVisible b) ∧
      (Utf8.encode text).map (fun b => Char.ofNat b.toNat) = text := by
    induction text with
    | nil => exact ⟨rfl, rfl⟩
    | cons c text ih =>
      rw [List.all_cons, Bool.and_eq_true] at visible
      obtain ⟨b, code, inside, back⟩ := encodeChar_visible visible.1
      obtain ⟨all, again⟩ := ih visible.2
      have split : Utf8.encode (c :: text) = b :: Utf8.encode text := by
        rw [Utf8.encode, List.flatMap_cons, code]
        rfl
      rw [split, List.all_cons, List.map_cons, back, all, again]
      exact ⟨by rw [inside]; rfl, rfl⟩
  rw [visibleText?, if_pos read.1, read.2]

theorem boundary_multipart {head rest : List Char} {headers : List Header} {header : Header}
    (multipart : eqIgnoreCase head Boundary.multipartFormData)
    (first : headers.find? (·.name == contentType) = some header)
    (value : header.value = Utf8.encode (head ++ rest))
    (visible : (head ++ rest).all isVisibleChar) :
    boundary headers = Boundary.ofContentType (head ++ rest) := by
  have start : (head ++ rest).take Boundary.multipartFormData.length = head :=
    List.take_left' (length_eq_of_eqIgnoreCase multipart)
  rw [boundary, first]
  dsimp only
  rw [value, visibleText?_encode visible]
  dsimp only
  rw [start, if_pos multipart]

end Request

namespace Boundary

open Parameter

variable {head suffix list : List Char}

theorem index?_formData (multipart : eqIgnoreCase head multipartFormData) (rest : List Char) :
    index? Disposition.formData (lower (head ++ rest)) = some 10 := by
  have shape : lower multipartFormData = "multipart/".toList ++ ('f' :: "orm-data".toList) := by decide
  have front : lower head = "multipart/".toList ++ ('f' :: "orm-data".toList) :=
    (eq_of_beq multipart).trans shape
  have apart : ¬ 'f' :: "orm-data".toList <:+: "multipart/".toList :=
    index?_eq_none_iff.mp (by decide)
  rw [lower_append, front, List.append_assoc]
  exact index?_append_needle (lower rest) (by decide) apart

/-- The list begins at the first semicolon behind the type, whatever stands between them. -/
theorem ofContentType_multipart (multipart : eqIgnoreCase head multipartFormData) (free : ';' ∉ suffix)
    (ends : EndsEntry list) : ofContentType (head ++ (suffix ++ list)) =
      (find? boundaryKey (entries list)).elim (.error .noBoundary) (.ok <| String.ofList ·) := by
  have long : 10 ≤ head.length := by
    rw [length_eq_of_eqIgnoreCase multipart]
    decide
  have inHead : ';' ∉ head := not_mem_of_eqIgnoreCase (by decide) multipart
  have apart : ';' ∉ head.drop 10 ++ suffix := by
    rw [List.mem_append, not_or]
    exact ⟨fun mem => inHead (List.mem_of_mem_drop mem), free⟩
  have rest : (head ++ (suffix ++ list)).drop 10 = head.drop 10 ++ suffix ++ list := by
    rw [List.drop_append_of_le_length long, List.append_assoc]
  rw [ofContentType, index?_formData multipart]
  dsimp only
  rw [rest, (split_append apart ends).2]
  cases find? boundaryKey (entries list) <;> rfl

/-- The boundary of a multipart form is the value of the first parameter that declares one, whatever
else is written behind the type, and the markers of the decoder are made from it. -/
theorem ofContentType_eq_first {params : List Parameter}
    (multipart : eqIgnoreCase head multipartFormData) (free : ';' ∉ suffix)
    (spelled : SpellsList list params) :
    let text := head ++ (suffix ++ list)
    let declared := params.find? (declares boundaryKey)
    (ofContentType text = match declared with
      | some p => .ok (String.ofList p.value)
      | none => .error .noBoundary) ∧
    ∀ headers header policy, headers.find? (·.name == Request.contentType) = some header →
      header.value = Utf8.encode text → text.all Request.isVisibleChar →
      match declared with
      | some p => ∃ d, Decoder.ofHeaders headers policy = .ok d ∧
          d.boundary = String.ofList p.value ∧ d.policy = policy ∧
          d.markers.delimiter = Utf8.encode ("--".toList ++ p.value) ∧
          d.markers.terminator = d.markers.delimiter ++ Utf8.encode "--".toList
      | none => Decoder.ofHeaders headers policy = .error .noBoundary := by
  intro text declared
  have parsed : ofContentType text = match declared with
      | some p => .ok (String.ofList p.value)
      | none => .error .noBoundary := by
    have search : find? boundaryKey params = declared.map (·.value) := find?_eq_first boundaryKey params
    rw [ofContentType_multipart multipart free spelled.endsEntry, spelled.entries_eq, search]
    cases declared <;> rfl
  refine ⟨parsed, fun headers header policy first value visible => ?_⟩
  have requested : Request.boundary headers = ofContentType text :=
    Request.boundary_multipart multipart first value visible
  have made : Decoder.ofHeaders headers policy = (ofContentType text).map (Decoder.mk · policy) :=
    congrArg _ requested
  rw [parsed] at made
  cases found : declared with
  | none =>
    rw [found] at made
    exact made
  | some p =>
    rw [found] at made
    refine ⟨⟨String.ofList p.value, policy⟩, made, rfl, rfl, ?_, rfl⟩
    rw [Decoder.markers, Markers.ofBoundary, String.toList_ofList, Utf8.encode_append]
    rfl

/-- A quoted value that looks like a declaration, a declaration without a value, and two with one. -/
def decoys : List Char :=
  "; note=\"; boundary=evil \\\"form-data\\\"\"; boundary; BOUNDARY = AaB03x;boundary=last".toList

def decoyParams : List Parameter :=
  [⟨"note".toList, "; boundary=evil \"form-data\"".toList⟩, ⟨"boundary".toList, []⟩,
    ⟨"BOUNDARY".toList, "AaB03x".toList⟩, ⟨"boundary".toList, "last".toList⟩]

theorem spellsList_decoys : SpellsList decoys decoyParams := by
  have note : Spells "note=\"; boundary=evil \\\"form-data\\\"\"".toList
      ⟨"note".toList, "; boundary=evil \"form-data\"".toList⟩ :=
    .quoted "note".toList [] [] ['"', '\\'] "; boundary=evil \"form-data\"".toList [] (by decide)
      (by decide) (by decide) (by decide)
  have empty : Spells "boundary".toList ⟨"boundary".toList, []⟩ :=
    .alone "boundary".toList [] (by decide) (by decide)
  have first : Spells "BOUNDARY = AaB03x".toList ⟨"BOUNDARY".toList, "AaB03x".toList⟩ :=
    .bare "BOUNDARY".toList [' '] [' '] "AaB03x".toList [] (by decide) (by decide) (by decide)
  have last : Spells "boundary=last".toList ⟨"boundary".toList, "last".toList⟩ :=
    .bare "boundary".toList [] [] "last".toList [] (by decide) (by decide) (by decide)
  have ended : SpellsList [] [] := .nil [] endsEntry_nil (by decide)
  exact .cons [' '] (by decide) note (.cons [' '] (by decide) empty
    (.cons [' '] (by decide) first (.cons [] (by decide) last ended)))

def decoyType : List Char := "Multipart/FORM-data".toList ++ (" v2 ".toList ++ decoys)

theorem ofContentType_eq_first_decoys : ofContentType decoyType = .ok "AaB03x" ∧
    ∃ d, Decoder.ofHeaders [⟨Request.contentType, Utf8.encode decoyType⟩] .lenient = .ok d ∧
      d.markers.delimiter = Utf8.encode "--AaB03x".toList ∧
      d.markers.terminator = Utf8.encode "--AaB03x--".toList := by
  have multipart : eqIgnoreCase "Multipart/FORM-data".toList multipartFormData := by decide
  have free : ';' ∉ " v2 ".toList := by decide
  obtain ⟨parsed, requested⟩ := ofContentType_eq_first multipart free spellsList_decoys
  obtain ⟨d, made, -, -, delimiter, terminator⟩ := requested
    [⟨Request.contentType, Utf8.encode decoyType⟩] ⟨Request.contentType, Utf8.encode decoyType⟩ .lenient
    rfl rfl (by decide)
  exact ⟨parsed, d, made, delimiter, by rw [terminator, delimiter]; rfl⟩

end Boundary
end FormBody
