import FormBody.Part.Disposition
import FormBody.Proofs.Parameter.Spelling

/-! Dispositions written as form data with a quoted name and a quoted file name. -/
namespace FormBody.Disposition

open Parameter Text

theorem isKey_nameKey : IsKey nameKey := by decide

theorem isKey_fileNameKey : IsKey fileNameKey := by decide

def parameters (d : Disposition) : List Parameter :=
  (d.name.map fun name => ⟨nameKey, name.toList⟩).toList ++
    (d.fileName.map fun fileName => ⟨fileNameKey, fileName.toList⟩).toList

/-- A name or a file name that is left out leaves out its parameter. -/
def write (d : Disposition) : List Char := formData ++ d.parameters.flatMap render

/-- Only names that are not empty can be told from names left out. -/
structure Proper (d : Disposition) : Prop where
  name : d.name ≠ some ""
  fileName : d.fileName ≠ some ""

theorem isKey_of_mem_parameters {d : Disposition} {p : Parameter} (h : p ∈ d.parameters) :
    IsKey p.key := by
  simp only [parameters, List.mem_append, Option.mem_toList, Option.map_eq_some_iff] at h
  rcases h with ⟨name, _, rfl⟩ | ⟨fileName, _, rfl⟩
  · exact isKey_nameKey
  · exact isKey_fileNameKey

theorem ofText_write {d : Disposition} (proper : d.Proper) : ofText (' ' :: d.write) = d := by
  have token : trim (' ' :: formData) = formData := by decide
  have spelled := spellsList_render fun p (mem : p ∈ d.parameters) => isKey_of_mem_parameters mem
  have free : ';' ∉ ' ' :: formData := by decide
  obtain ⟨first, list⟩ := split_append free spelled.endsEntry
  rw [List.cons_append] at first list
  simp only [ofText, write, first, list, token, spelled.entries_eq, eqIgnoreCase_refl, if_true]
  obtain ⟨name, fileName⟩ := d
  have filled {text : String} (nonempty : some text ≠ some "") : text.toList.isEmpty = false := by
    simpa using nonempty
  have other : eqIgnoreCase fileNameKey nameKey = false := by decide
  have same : eqIgnoreCase nameKey nameKey = true := eqIgnoreCase_refl _
  cases name with
  | none =>
    cases fileName with
    | none => rfl
    | some fileName =>
      simp [parameters, filled proper.fileName, note, empty, other, eqIgnoreCase_refl]
  | some name =>
    cases fileName with
    | none => simp [parameters, filled proper.name, note, empty, same]
    | some fileName =>
      simp [parameters, filled proper.name, filled proper.fileName, note, empty, same,
        eqIgnoreCase_refl]

theorem Proper.note {d : Disposition} {p : Parameter} (proper : d.Proper) (filled : p.value ≠ []) :
    (d.note p).Proper := by
  have value : some (String.ofList p.value) ≠ some "" := by
    intro same
    have chars := congrArg String.toList (Option.some.inj same)
    rw [String.toList_ofList] at chars
    exact filled chars
  unfold Disposition.note
  split
  · exact ⟨value, proper.fileName⟩
  · split
    · exact ⟨proper.name, value⟩
    · exact proper

/-- A parameter without a value never makes a name, so that what was read is no empty name. -/
theorem proper_ofText (value : List Char) : (ofText value).Proper := by
  simp only [ofText]
  split
  · suffices general : ∀ (params : List Parameter) (d : Disposition), d.Proper →
        (∀ p ∈ params, p.value ≠ []) → (params.foldl Disposition.note d).Proper from
      general _ _ ⟨nofun, nofun⟩ fun p mem => by simpa using (List.mem_filter.mp mem).2
    intro params
    induction params with
    | nil => exact fun d proper _ => proper
    | cons p params ih =>
      intro d proper filled
      rw [List.forall_mem_cons] at filled
      exact ih (d.note p) (proper.note filled.1) filled.2
  · exact ⟨nofun, nofun⟩

theorem proper_ofBytes (value : Bytes) : (ofBytes value).Proper := proper_ofText _

end FormBody.Disposition
