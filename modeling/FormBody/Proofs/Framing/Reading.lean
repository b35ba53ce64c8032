import FormBody.Decoder.Basic
import FormBody.Proofs.Framing.Basic
import FormBody.Proofs.Part.Heading

/-! What the parts of a framing mean under a policy. Parts are read in order, and the only thing that
one part leaves to the next is the field name. -/
namespace FormBody

namespace Heading

variable {policy : Policy} {heading : Heading}

def field (policy : Policy) (h : Heading) (index : Nat) (content : Bytes) :
    Except DecodeError Field :=
  let limit := policy.sizes.limitFor h.name
  if !policy.allowsName h.name then .error (.unknownField h.name)
  else if limit.toNat < content.length then .error (.fieldTooLarge limit h.name)
  else .ok { name := h.name, fileName := h.fileName, contentType := h.contentType,
             contentLength := h.contentLength, index, content }

theorem eq_of_field {index : Nat} {content : Bytes} {field : Field}
    (h : heading.field policy index content = .ok field) :
    field = { name := heading.name, fileName := heading.fileName,
              contentType := heading.contentType, contentLength := heading.contentLength,
              index, content } := by
  simp only [Heading.field] at h
  split at h
  · cases h
  · split at h
    · cases h
    · cases h; rfl

theorem field_of_unrestricted (heading : Heading) (index : Nat) {content : Bytes}
    (anyName : policy.allowedNames = none) (noLimits : ∀ name, policy.sizes.limitFor name = noLimit)
    (fits : content.length ≤ noLimit.toNat) :
    heading.field policy index content =
      .ok { name := heading.name, fileName := heading.fileName, contentType := heading.contentType,
            contentLength := heading.contentLength, index, content } := by
  have allowed : (!policy.allowsName heading.name) = false := by simp [Policy.allowsName, anyName]
  simp only [Heading.field]
  rw [allowed, noLimits, if_neg Bool.false_ne_true, if_neg (Nat.not_lt.mpr fits)]

end Heading

namespace Frame

/-- The field that a part gives, read from the name that the part in front of it leaves. -/
def field (policy : Policy) (name : String) (index : Nat) (f : Frame) : Except DecodeError Field :=
  (Heading.noteLines policy (.ofName name) f.lines).result.bind fun heading =>
    heading.field policy index f.content

theorem exists_of_field {policy : Policy} {name : String} {index : Nat} {f : Frame} {field : Field}
    (h : f.field policy name index = .ok field) :
    ∃ heading, (Heading.noteLines policy (.ofName name) f.lines).result = .ok heading ∧
      heading.field policy index f.content = .ok field := by
  unfold Frame.field at h
  cases noted : (Heading.noteLines policy (.ofName name) f.lines).result with
  | error e => rw [noted] at h; cases h
  | ok heading => rw [noted] at h; exact ⟨heading, rfl, h⟩

theorem index_of_field {policy : Policy} {name : String} {index : Nat} {f : Frame} {field : Field}
    (h : f.field policy name index = .ok field) : field.index = index := by
  obtain ⟨heading, _, checked⟩ := exists_of_field h
  rw [Heading.eq_of_field checked]

theorem content_of_field {policy : Policy} {name : String} {index : Nat} {f : Frame} {field : Field}
    (h : f.field policy name index = .ok field) : field.content = f.content := by
  obtain ⟨heading, _, checked⟩ := exists_of_field h
  rw [Heading.eq_of_field checked]

theorem name_of_field {policy : Policy} {name : String} {index : Nat} {f : Frame} {field : Field}
    (h : f.field policy name index = .ok field) (empty : field.name = "") : name = "" := by
  obtain ⟨heading, noted, checked⟩ := exists_of_field h
  rw [Heading.eq_of_field checked, ← (Heading.result_noteLines_eq_ok_iff.mp noted).2] at empty
  exact Heading.name_of_foldl_apply empty

theorem fileName_of_field {policy : Policy} {name : String} {index : Nat} {f : Frame}
    {field : Field} (h : f.field policy name index = .ok field) : field.fileName ≠ some "" := by
  obtain ⟨heading, noted, checked⟩ := exists_of_field h
  rw [Heading.eq_of_field checked, ← (Heading.result_noteLines_eq_ok_iff.mp noted).2]
  exact Heading.fileName_foldl_apply nofun

/-- The fields of parts in order, up to the first that is rejected. -/
def fields (policy : Policy) : String → Nat → List Frame → Except DecodeError (List Field)
  | _, _, [] => .ok []
  | name, index, f :: rest => (f.field policy name index).bind fun field =>
      (fields policy field.name (index + 1) rest).map (field :: ·)

def nameAfter (name : String) (fields : List Field) : String :=
  (fields.getLast?.map (·.name)).getD name

theorem nameAfter_cons (name : String) (field : Field) (fields : List Field) :
    nameAfter name (field :: fields) = nameAfter field.name fields := by
  cases fields with
  | nil => rfl
  | cons next fields => simp [nameAfter, List.getLast?_cons]

theorem fields_append (policy : Policy) (name : String) (index : Nat) (front back : List Frame) :
    fields policy name index (front ++ back) =
      (fields policy name index front).bind fun found =>
        (fields policy (nameAfter name found) (index + front.length) back).map (found ++ ·) := by
  induction front generalizing name index with
  | nil =>
    change fields policy name index back = (fields policy name index back).map ([] ++ ·)
    cases fields policy name index back <;> rfl
  | cons f front ih =>
    rw [List.cons_append, fields, fields]
    cases f.field policy name index with
    | error e => rfl
    | ok field =>
      have shift : index + 1 + front.length = index + (front.length + 1) := by omega
      dsimp only [Except.bind]
      rw [ih, List.length_cons, shift]
      cases fields policy field.name (index + 1) front with
      | error e => rfl
      | ok found =>
        dsimp only [Except.bind, Except.map]
        rw [nameAfter_cons]
        cases fields policy (nameAfter field.name found) (index + (front.length + 1)) back <;> rfl

theorem exists_of_fields_cons {policy : Policy} {name : String} {index : Nat} {f : Frame}
    {rest : List Frame} {found : List Field}
    (h : fields policy name index (f :: rest) = .ok found) :
    ∃ field others, f.field policy name index = .ok field ∧
      fields policy field.name (index + 1) rest = .ok others ∧ found = field :: others := by
  rw [fields] at h
  cases first : f.field policy name index with
  | error e => rw [first] at h; cases h
  | ok field =>
    rw [first] at h
    cases more : fields policy field.name (index + 1) rest with
    | error e => simp [Except.bind, more, Except.map] at h
    | ok others =>
      simp only [Except.bind, more, Except.map, Except.ok.injEq] at h
      exact ⟨field, others, rfl, more, h.symm⟩

theorem exists_of_fields_append {policy : Policy} {name : String} {index : Nat}
    {front back : List Frame} {found : List Field}
    (h : fields policy name index (front ++ back) = .ok found) :
    ∃ first second, fields policy name index front = .ok first ∧
      fields policy (nameAfter name first) (index + front.length) back = .ok second ∧
      found = first ++ second := by
  rw [fields_append] at h
  cases early : fields policy name index front with
  | error e => rw [early] at h; cases h
  | ok first =>
    rw [early] at h
    cases late : fields policy (nameAfter name first) (index + front.length) back with
    | error e => simp [Except.bind, late, Except.map] at h
    | ok second =>
      simp only [Except.bind, late, Except.map, Except.ok.injEq] at h
      exact ⟨first, second, rfl, late, h.symm⟩

end Frame

/-- Everything is accepted, if only it is closed where that is required. -/
def Policy.withTerminator (required : Bool) : Policy :=
  { Policy.lenient with terminatorRequired := required }

/-- The form that a framing gives. The end of the input counts only after all parts. -/
def Framing.form (policy : Policy) (f : Framing) : Except DecodeError Form :=
  (Frame.fields policy "" 0 f.frames).bind fun fields =>
    if policy.terminatorRequired && !f.closed then .error .incompleteBody
    else .ok (.ofFields fields)

theorem Framing.exists_of_form {policy : Policy} {f : Framing} {form : Form}
    (h : f.form policy = .ok form) :
    ∃ fields, Frame.fields policy "" 0 f.frames = .ok fields ∧ form = .ofFields fields ∧
      (policy.terminatorRequired = true → f.closed = true) := by
  unfold Framing.form at h
  cases read : Frame.fields policy "" 0 f.frames with
  | error e => rw [read] at h; cases h
  | ok fields =>
    rw [read] at h
    dsimp only [Except.bind] at h
    split at h
    · cases h
    · next complete =>
      cases h
      refine ⟨fields, rfl, rfl, fun required => ?_⟩
      simpa [required] using complete

/-- A body that lacks a required terminator is rejected, for that reason unless a part is at fault. -/
theorem Framing.form_of_not_closed {policy : Policy} {f : Framing}
    (required : policy.terminatorRequired = true) (h : f.closed = false) :
    ∃ e, f.form policy = .error e ∧
      ∀ found, Frame.fields policy "" 0 f.frames = .ok found → e = .incompleteBody := by
  unfold Framing.form
  rw [required, h]
  cases read : Frame.fields policy "" 0 f.frames with
  | error e => exact ⟨e, rfl, fun found same => by cases same⟩
  | ok found => exact ⟨.incompleteBody, rfl, fun _ _ => rfl⟩

end FormBody
