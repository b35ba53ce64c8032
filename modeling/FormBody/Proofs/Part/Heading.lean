import FormBody.Proofs.Part.Header

/-! Headings by the headers that they take note of. What a policy accepts changes the heading in a way
that does not depend on the policy, and headers of different kinds change different parts of it. -/
namespace FormBody

/-- A policy has a say in content types only. -/
def Policy.accepts (policy : Policy) : PartHeader → Bool
  | .type value => policy.allowsType value
  | _ => true

namespace PartHeader

/-- The field name that a header gives. -/
def fieldName? : PartHeader → Option String
  | .disposition value => (Disposition.ofBytes value).name
  | _ => none

def declaredType? : PartHeader → Option Bytes
  | .type value => some value
  | _ => none

theorem exists_of_fieldName? {header : PartHeader} {name : String}
    (given : header.fieldName? = some name) :
    ∃ value, header = .disposition value ∧ (Disposition.ofBytes value).name = some name := by
  cases header with
  | disposition value => exact ⟨value, rfl, given⟩
  | length value => cases given
  | type value => cases given

theorem declaredType?_eq_some_iff {header : PartHeader} {value : Bytes} :
    header.declaredType? = some value ↔ header = .type value := by
  cases header <;> simp [declaredType?]

theorem declaredType?_eq_valueOf? : declaredType? = valueOf? typeName := by
  funext h
  cases h <;> rfl

theorem fieldName?_eq_bind (h : PartHeader) :
    h.fieldName? = (h.valueOf? dispositionName).bind fun value => (Disposition.ofBytes value).name := by
  cases h <;> rfl

end PartHeader

namespace Heading

variable {policy : Policy}

theorem result_noteLines_cons (policy : Policy) (h : Heading) (line : Bytes) (rest : List Bytes) :
    (noteLines policy h (line :: rest)).result =
      (noteLine policy h line).result.bind fun next => (noteLines policy next rest).result :=
  Logged.result_andThen ..

theorem result_noteLines_append (policy : Policy) (h : Heading) (front back : List Bytes) :
    (noteLines policy h (front ++ back)).result =
      (noteLines policy h front).result.bind fun next => (noteLines policy next back).result := by
  induction front generalizing h with
  | nil => rfl
  | cons line front ih =>
    rw [List.cons_append, result_noteLines_cons, result_noteLines_cons]
    cases (noteLine policy h line).result with
    | error e => rfl
    | ok next => exact ih next

/-- What a header changes if it is accepted. -/
def apply (h : Heading) : PartHeader → Heading
  | .disposition value => h.noteDisposition (.ofBytes value)
  | .length value => { h with contentLength := PartHeader.declaredLength? value }
  | .type value => { h with contentType := mediaType? value }

theorem result_note_eq_ok_iff {header : PartHeader} {h next : Heading} :
    (note policy h header).result = .ok next ↔ policy.accepts header ∧ h.apply header = next := by
  cases header with
  | disposition value => simp [note, Policy.accepts, apply]
  | length value => simp [note, Policy.accepts, apply]
  | type value =>
    by_cases allowed : policy.allowsType value
    · simp [note, Policy.accepts, apply, allowed]
    · simp [note, Policy.accepts, allowed]

/-- Lines are noted if the policy accepts the headers among them, and these make the heading. -/
theorem result_noteLines_eq_ok_iff {h final : Heading} {lines : List Bytes} :
    (noteLines policy h lines).result = .ok final ↔
      (∀ header ∈ lines.filterMap PartHeader.ofLine?, policy.accepts header) ∧
        (lines.filterMap PartHeader.ofLine?).foldl apply h = final := by
  induction lines generalizing h with
  | nil => simp [noteLines]
  | cons line lines ih =>
    rw [result_noteLines_cons, noteLine]
    cases spelled : PartHeader.ofLine? line with
    | none =>
      rw [List.filterMap_cons_none spelled]
      exact ih
    | some header =>
      rw [List.filterMap_cons_some spelled, List.forall_mem_cons, List.foldl_cons]
      dsimp only
      constructor
      · intro noted
        cases first : (note policy h header).result with
        | error e => rw [first] at noted; cases noted
        | ok next =>
          obtain ⟨accepted, rfl⟩ := result_note_eq_ok_iff.mp first
          rw [first] at noted
          obtain ⟨others, final⟩ := ih.mp noted
          exact ⟨⟨accepted, others⟩, final⟩
      · rintro ⟨⟨accepted, others⟩, final⟩
        rw [result_note_eq_ok_iff.mpr ⟨accepted, rfl⟩]
        exact ih.mpr ⟨others, final⟩

theorem result_note_eq_error_iff {header : PartHeader} {h : Heading} {e : DecodeError} :
    (note policy h header).result = .error e ↔
      ∃ value, header = .type value ∧ policy.allowsType value = false ∧
        e = .disallowedContentType h.name (String.ofList (Text.trim (Text.Utf8.decodeLossy value))) := by
  cases header with
  | disposition value => simp [note]
  | length value => simp [note]
  | type value =>
    by_cases allowed : policy.allowsType value
    · simp [note, allowed]
    · simp [note, allowed, eq_comm (b := e)]

/-- Lines are rejected for the first type among them that the policy does not allow, under the name
that the lines in front of it leave. -/
theorem result_noteLines_eq_error_iff {h : Heading} {e : DecodeError} {lines : List Bytes} :
    (noteLines policy h lines).result = .error e ↔
      ∃ front value back,
        lines.filterMap PartHeader.ofLine? = front ++ PartHeader.type value :: back ∧
        (∀ header ∈ front, policy.accepts header) ∧ policy.allowsType value = false ∧
        e = .disallowedContentType (front.foldl apply h).name
          (String.ofList (Text.trim (Text.Utf8.decodeLossy value))) := by
  induction lines generalizing h with
  | nil => simp [noteLines]
  | cons line lines ih =>
    rw [result_noteLines_cons, noteLine]
    cases spelled : PartHeader.ofLine? line with
    | none =>
      rw [List.filterMap_cons_none spelled]
      exact ih
    | some header =>
      rw [List.filterMap_cons_some spelled]
      dsimp only
      cases first : (note policy h header).result with
      | ok next =>
        obtain ⟨accepted, rfl⟩ := result_note_eq_ok_iff.mp first
        refine ih.trans ⟨?_, ?_⟩
        · rintro ⟨front, value, back, split, others, fault⟩
          exact ⟨header :: front, value, back, congrArg (header :: ·) split,
            List.forall_mem_cons.mpr ⟨accepted, others⟩, fault⟩
        · rintro ⟨_ | ⟨_, front⟩, value, back, split, others, refused, fault⟩
          · obtain ⟨rfl, _⟩ := List.cons.inj split
            exact absurd accepted (by simp [Policy.accepts, refused])
          · obtain ⟨rfl, tail⟩ := List.cons.inj split
            exact ⟨front, value, back, tail, (List.forall_mem_cons.mp others).2, refused, fault⟩
      | error f =>
        obtain ⟨value, rfl, refused, rfl⟩ := result_note_eq_error_iff.mp first
        constructor
        · rintro ⟨⟩
          exact ⟨[], value, _, rfl, List.forall_mem_nil _, refused, rfl⟩
        · rintro ⟨_ | ⟨_, front⟩, other, back, split, others, _, rfl⟩
          · obtain ⟨same, _⟩ := List.cons.inj split
            cases same
            rfl
          · obtain ⟨rfl, _⟩ := List.cons.inj split
            exact absurd (others _ List.mem_cons_self) (by simp [Policy.accepts, refused])

theorem apply_comm {a b : PartHeader} (h : Heading) (different : a.name ≠ b.name) :
    (h.apply a).apply b = (h.apply b).apply a := by
  cases a <;> cases b <;> first
    | rfl
    | exact absurd rfl different

/-- An empty name is only ever left over from the part in front. -/
theorem name_of_apply {h : Heading} {header : PartHeader} (empty : (h.apply header).name = "") :
    h.name = "" := by
  cases header with
  | length value => exact empty
  | type value => exact empty
  | disposition value =>
    have proper := Disposition.proper_ofBytes value
    cases given : (Disposition.ofBytes value).name with
    | none =>
      rw [apply, noteDisposition, given] at empty
      exact empty
    | some name =>
      rw [apply, noteDisposition, given] at empty
      exact absurd (given.trans (congrArg some empty)) proper.name

theorem name_of_foldl_apply {h : Heading} {headers : List PartHeader}
    (empty : (headers.foldl apply h).name = "") : h.name = "" := by
  induction headers generalizing h with
  | nil => exact empty
  | cons header headers ih => exact name_of_apply (ih empty)

theorem fileName_foldl_apply {h : Heading} {headers : List PartHeader} (filed : h.fileName ≠ some "") :
    (headers.foldl apply h).fileName ≠ some "" := by
  induction headers generalizing h with
  | nil => exact filed
  | cons header headers ih =>
    apply ih
    cases header with
    | disposition value => exact (Disposition.proper_ofBytes value).fileName
    | length value => exact filed
    | type value => exact filed

/-- The last header that has a say in an entry decides it, and without one it stays. -/
theorem foldl_apply_last {α β : Type} {given? : PartHeader → Option α} {meaning : α → β}
    {entry : Heading → β}
    (step : ∀ (h : Heading) header, entry (h.apply header) = ((given? header).map meaning).getD (entry h))
    (h : Heading) (headers : List PartHeader) :
    entry (headers.foldl apply h) =
      ((headers.filterMap given?).getLast?.map meaning).getD (entry h) := by
  induction headers generalizing h with
  | nil => rfl
  | cons header headers ih =>
    rw [List.foldl_cons, ih, step]
    cases given : given? header with
    | none => rw [List.filterMap_cons_none given, Option.map_none, Option.getD_none]
    | some a =>
      rw [List.filterMap_cons_some given, List.getLast?_cons]
      cases (headers.filterMap given?).getLast? <;> rfl

theorem name_foldl_apply (h : Heading) (headers : List PartHeader) :
    (headers.foldl apply h).name =
      (headers.filterMap PartHeader.fieldName?).getLast?.getD h.name := by
  have step (h : Heading) (header : PartHeader) :
      (h.apply header).name = (header.fieldName?.map id).getD h.name := by
    cases header with
    | disposition value => rw [Option.map_id]; rfl
    | length value => rfl
    | type value => rfl
  rw [foldl_apply_last step, Option.map_id, id]

theorem contentType_foldl_apply (h : Heading) (headers : List PartHeader) :
    (headers.foldl apply h).contentType =
      ((headers.filterMap PartHeader.declaredType?).getLast?.map mediaType?).getD h.contentType := by
  refine foldl_apply_last (fun h header => ?_) h headers
  cases header <;> rfl

/-- The last disposition counts, also when it gives no file name. -/
theorem fileName_foldl_apply_eq (h : Heading) (headers : List PartHeader) :
    (headers.foldl apply h).fileName =
      ((headers.filterMap (PartHeader.valueOf? PartHeader.dispositionName)).getLast?.map
        fun value => (Disposition.ofBytes value).fileName).getD h.fileName := by
  refine foldl_apply_last (fun h header => ?_) h headers
  cases header <;> rfl

/-- The last length counts, also when it is not well formed. -/
theorem contentLength_foldl_apply (h : Heading) (headers : List PartHeader) :
    (headers.foldl apply h).contentLength =
      ((headers.filterMap (PartHeader.valueOf? PartHeader.lengthName)).getLast?.map
        PartHeader.declaredLength?).getD h.contentLength := by
  refine foldl_apply_last (fun h header => ?_) h headers
  cases header <;> rfl

theorem foldl_apply_perm {headers others : List PartHeader} (h : Heading)
    (same : headers.Perm others)
    (distinct : ∀ a ∈ headers, ∀ b ∈ headers, a = b ∨ a.name ≠ b.name) :
    headers.foldl apply h = others.foldl apply h := by
  refine same.foldl_eq' (fun a memA b memB h => ?_) h
  rcases distinct a memA b memB with rfl | different
  · rfl
  · exact apply_comm h different

end Heading
end FormBody
