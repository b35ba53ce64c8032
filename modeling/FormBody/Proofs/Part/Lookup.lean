import FormBody.Proofs.Boundary
import FormBody.Proofs.Part.Heading

/-! What a disposition says is looked up in its parameters. The disposition goes through them once, for both
of its keys together, and it finds what a search for each key on its own finds. -/
namespace FormBody

namespace Disposition

open Parameter Text

def given? (key : List Char) (p : Parameter) : Option String :=
  if eqIgnoreCase p.key key then some (String.ofList p.value) else none

theorem not_fileNameKey {key : List Char} (same : eqIgnoreCase key nameKey) :
    eqIgnoreCase key fileNameKey = false := by
  have lowered : lower key = lower nameKey := eq_of_beq same
  rw [eqIgnoreCase, lowered]
  decide

theorem name_note (d : Disposition) (p : Parameter) : (d.note p).name = d.name.or (given? nameKey p) := by
  obtain ⟨name, fileName⟩ := d
  cases name with
  | some name =>
    simp only [note, Option.isNone_some, Bool.false_and, Bool.false_eq_true, if_false]
    split <;> rfl
  | none =>
    simp only [note, given?, Option.isNone_none, Bool.true_and]
    split
    · rfl
    · split <;> rfl

/-- A parameter with the key of the name is passed on if there is a name, but it is no file name either. -/
theorem fileName_note (d : Disposition) (p : Parameter) :
    (d.note p).fileName = d.fileName.or (given? fileNameKey p) := by
  obtain ⟨name, fileName⟩ := d
  by_cases named : eqIgnoreCase p.key nameKey
  · simp only [note, given?, not_fileNameKey named, Bool.and_false, Bool.false_eq_true, if_false,
      Option.or_none]
    split <;> rfl
  · cases fileName with
    | some fileName => simp [note, named]
    | none =>
      simp only [note, given?, named, Bool.and_false, Bool.false_eq_true, if_false, Option.isNone_none,
        Bool.true_and]
      split <;> rfl

/-- An entry that keeps what it has and takes what it is given first comes from a search. -/
theorem foldl_note_eq {entry : Disposition → Option String} {key : List Char}
    (step : ∀ d p, entry (d.note p) = (entry d).or (given? key p)) (params : List Parameter)
    (d : Disposition) : entry (params.foldl note d) = (entry d).or (params.findSome? (given? key)) := by
  induction params generalizing d with
  | nil => exact (Option.or_none).symm
  | cons p params ih =>
    rw [List.foldl_cons, ih, step, Option.or_assoc, List.findSome?_cons]
    cases given? key p <;> rfl

theorem findSome?_given? (key : List Char) (params : List Parameter) :
    (params.filter (!·.value.isEmpty)).findSome? (given? key) = (find? key params).map String.ofList := by
  rw [find?_eq_first]
  induction params with
  | nil => rfl
  | cons p params ih =>
    rw [List.filter_cons, List.find?_cons, declares]
    cases empty : p.value.isEmpty with
    | true => simpa using ih
    | false =>
      simp only [Bool.not_false, if_true, Bool.and_true, List.findSome?_cons, ih, given?]
      by_cases same : eqIgnoreCase p.key key
      · simp [same]
      · simp [same]

theorem ofText_of_formData {value : List Char} (token : eqIgnoreCase (split value).1 formData) :
    (ofText value).name = (find? nameKey (entries (split value).2)).map String.ofList ∧
      (ofText value).fileName = (find? fileNameKey (entries (split value).2)).map String.ofList := by
  have noted : ofText value =
      ((entries (split value).2).filter (!·.value.isEmpty)).foldl note empty := if_pos token
  rw [noted, foldl_note_eq name_note, foldl_note_eq fileName_note, findSome?_given?, findSome?_given?]
  exact ⟨Option.none_or, Option.none_or⟩

theorem ofText_of_other {value : List Char} (token : ¬ eqIgnoreCase (split value).1 formData) :
    ofText value = empty := if_neg token

/-- The value of a disposition is read as text in any case. If its token is form data, letter case aside, the
name and the file name are what a search of the parameters for each of the two keys finds, and that is the
value of the first parameter with the key and a value, whatever stands around it. With any other token
there is neither, and a line that says so takes the file name from a heading and leaves the field name. -/
theorem ofBytes_eq_lookup (value : Bytes) :
    let text := Utf8.decodeLossy value
    let token := (split text).1
    let params := entries (split text).2
    let d := ofBytes value
    (eqIgnoreCase token formData →
      d.name = (find? nameKey params).map String.ofList ∧
      d.fileName = (find? fileNameKey params).map String.ofList) ∧
    (∀ key, find? key params = (params.find? (declares key)).map (·.value)) ∧
    (¬ eqIgnoreCase token formData → d.name = none ∧ d.fileName = none ∧
      ∀ policy h line, PartHeader.ofLine? line = some (.disposition value) →
        Heading.noteLine policy h line = ⟨[], .ok { h with fileName := none }⟩) := by
  intro text token params d
  refine ⟨ofText_of_formData, fun key => find?_eq_first key params, fun other => ?_⟩
  have nothing : d = empty := ofText_of_other other
  refine ⟨by rw [nothing]; rfl, by rw [nothing]; rfl, fun policy h line spelled => ?_⟩
  rw [Heading.noteLine, spelled]
  dsimp only
  rw [Heading.note, show ofBytes value = empty from nothing]
  rfl

example : ofText "Form-DATA; filename=\"\"; NAME=a; filename=\"x; name=b\"; name=c".toList =
    ⟨some "a", some "x; name=b"⟩ := by decide +kernel

end Disposition
end FormBody
