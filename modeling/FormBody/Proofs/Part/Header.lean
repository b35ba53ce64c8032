import FormBody.Part.Heading
import FormBody.Proofs.Framing.Cut
import FormBody.Proofs.Part.Disposition
import Mathlib.Data.List.Forall2

/-! Header lines by what they spell, and headings by the headers that they take note of. -/
namespace FormBody

open Text

namespace Bytes

theorem mem_lower {b : UInt8} {bytes : Bytes} (h : b ∈ bytes) : lowerByte b ∈ lower bytes :=
  List.mem_map_of_mem h

theorem not_mem_of_eqIgnoreCase {b : UInt8} {written name : Bytes} (other : lowerByte b ∉ lower name)
    (h : eqIgnoreCase written name) : b ∉ written := fun mem =>
  other (beq_iff_eq.mp h ▸ mem_lower mem)

end Bytes

namespace PartHeader

open Bytes

def name : PartHeader → Bytes
  | disposition _ => dispositionName
  | length _ => lengthName
  | type _ => typeName

def value : PartHeader → Bytes
  | disposition value | length value | type value => value

/-- The line gives the header, its name in any letter case. -/
def Spells (h : PartHeader) (line : Bytes) : Prop :=
  ∃ written, eqIgnoreCase written h.name ∧ line = written ++ 58 :: h.value

theorem value?_eq_some_iff {line name value : Bytes} : value? line name = some value ↔
    ∃ written, eqIgnoreCase written name ∧ line = written ++ 58 :: value := by
  unfold value?
  constructor
  · intro found
    split at found
    · next rest colon =>
      split at found
      · next same =>
        cases found
        exact ⟨line.take name.length, same, by rw [← colon, List.take_append_drop]⟩
      · cases found
    · cases found
  · rintro ⟨written, same, rfl⟩
    have size : written.length = name.length := by
      rw [← length_lower written, beq_iff_eq.mp same, length_lower]
    rw [List.drop_left' size, List.take_left' size]
    simp [same]

theorem not_mem_written {h : PartHeader} {written : Bytes} {b : UInt8} (mark : b = 58 ∨ b = 13)
    (named : eqIgnoreCase written h.name) : b ∉ written := by
  refine not_mem_of_eqIgnoreCase ?_ named
  rcases mark with rfl | rfl <;> cases h <;> simp only [name] <;> decide

theorem Spells.unique {a b : PartHeader} {line : Bytes} (first : a.Spells line)
    (second : b.Spells line) : a = b := by
  obtain ⟨written, named, rfl⟩ := first
  obtain ⟨other, renamed, same⟩ := second
  have front : written <+: other :=
    prefix_of_prefix_append_cons (same ▸ List.prefix_append _ _) (not_mem_written (.inl rfl) named)
  have back : other <+: written :=
    prefix_of_prefix_append_cons (same.symm ▸ List.prefix_append _ _) (not_mem_written (.inl rfl) renamed)
  obtain rfl : written = other := front.eq_of_length_le back.length_le
  have values : a.value = b.value := List.tail_eq_of_cons_eq (List.append_cancel_left same)
  have names : lower a.name = lower b.name := (beq_iff_eq.mp named).symm.trans (beq_iff_eq.mp renamed)
  cases a <;> cases b <;> first
    | exact congrArg _ values
    | exact absurd names (by simp only [name]; decide)

theorem spells_of_value? {line name value : Bytes} {h : PartHeader} (named : h.name = name)
    (valued : h.value = value) (found : value? line name = some value) : h.Spells line := by
  obtain ⟨written, same, split⟩ := value?_eq_some_iff.mp found
  exact ⟨written, named ▸ same, valued ▸ split⟩

/-- Reading a line as a header finds the one that it spells. -/
theorem ofLine?_eq_some_iff {line : Bytes} {h : PartHeader} :
    ofLine? line = some h ↔ h.Spells line := by
  unfold ofLine?
  constructor
  · intro found
    rcases first : value? line dispositionName with _ | value
    · rcases second : value? line lengthName with _ | value
      · rcases third : value? line typeName with _ | value
        · simp [first, second, third] at found
        · obtain rfl : type value = h := by simpa [first, second, third] using found
          exact spells_of_value? rfl rfl third
      · obtain rfl : length value = h := by simpa [first, second] using found
        exact spells_of_value? rfl rfl second
    · obtain rfl : disposition value = h := by simpa [first] using found
      exact spells_of_value? rfl rfl first
  · intro spelled
    have read : value? line h.name = some h.value := value?_eq_some_iff.mpr spelled
    have noDisposition (other : ∀ v, disposition v ≠ h) : value? line dispositionName = none :=
      Option.eq_none_iff_forall_ne_some.mpr fun v found =>
        other v ((spells_of_value? rfl rfl found).unique spelled)
    have noLength (other : ∀ v, length v ≠ h) : value? line lengthName = none :=
      Option.eq_none_iff_forall_ne_some.mpr fun v found =>
        other v ((spells_of_value? rfl rfl found).unique spelled)
    cases h with
    | disposition value => rw [show value? line dispositionName = some value from read]; rfl
    | length value =>
      rw [noDisposition nofun, show value? line lengthName = some value from read]
      rfl
    | type value =>
      rw [noDisposition nofun, noLength nofun, show value? line typeName = some value from read]
      rfl

theorem filterMap_ofLine? {headers : List PartHeader} {lines : List Bytes}
    (spelled : List.Forall₂ Spells headers lines) : lines.filterMap ofLine? = headers := by
  induction spelled with
  | nil => rfl
  | cons first _ ih => rw [List.filterMap_cons_some (ofLine?_eq_some_iff.mpr first), ih]

def understood : List Bytes := [dispositionName, lengthName, typeName]

theorem disposition_understood : dispositionName ∈ understood := List.mem_cons_self

theorem length_understood : lengthName ∈ understood := by simp [understood]

theorem type_understood : typeName ∈ understood := by simp [understood]

def valueOf? (name : Bytes) (h : PartHeader) : Option Bytes :=
  if h.name = name then some h.value else none

/-- The values that the lines give a header of this name. -/
def values (name : Bytes) (lines : List Bytes) : List Bytes := lines.filterMap (value? · name)

theorem valueOf?_eq_some_iff {name value : Bytes} {h : PartHeader} :
    h.valueOf? name = some value ↔ h.name = name ∧ h.value = value := by
  simp [valueOf?]

theorem exists_of_understood {name : Bytes} (known : name ∈ understood) (value : Bytes) :
    ∃ h : PartHeader, h.name = name ∧ h.value = value := by
  simp only [understood, List.mem_cons, List.not_mem_nil, or_false] at known
  rcases known with rfl | rfl | rfl
  · exact ⟨disposition value, rfl, rfl⟩
  · exact ⟨length value, rfl, rfl⟩
  · exact ⟨type value, rfl, rfl⟩

theorem value?_eq_bind {name : Bytes} (known : name ∈ understood) (line : Bytes) :
    value? line name = (ofLine? line).bind (valueOf? name) := by
  ext value
  rw [Option.bind_eq_some_iff]
  simp only [ofLine?_eq_some_iff, valueOf?_eq_some_iff, value?_eq_some_iff]
  constructor
  · intro spelled
    obtain ⟨h, rfl, rfl⟩ := exists_of_understood known value
    exact ⟨h, spelled, rfl, rfl⟩
  · rintro ⟨h, spelled, rfl, rfl⟩
    exact spelled

theorem values_eq_filterMap {name : Bytes} (known : name ∈ understood) (lines : List Bytes) :
    values name lines = (lines.filterMap ofLine?).filterMap (valueOf? name) := by
  rw [values, List.filterMap_filterMap]
  simp only [value?_eq_bind known]

theorem Spells.isLine {h : PartHeader} {line : Bytes} (spelled : h.Spells line)
    (plain : IsLine h.value) : IsLine line ∧ line ≠ [] := by
  obtain ⟨written, named, rfl⟩ := spelled
  have tail : IsLine ([58] ++ h.value) := isLine_append (by decide) plain
  exact ⟨isLine_append (not_mem_written (.inr rfl) named) tail, by simp⟩

theorem isLine_of_spells {headers : List PartHeader} {lines : List Bytes}
    (spelled : List.Forall₂ Spells headers lines) (plain : ∀ h ∈ headers, IsLine h.value) :
    ∀ line ∈ lines, IsLine line ∧ line ≠ [] := by
  induction spelled with
  | nil => exact List.forall_mem_nil _
  | @cons h line headers lines first _ ih =>
    rw [List.forall_mem_cons] at plain ⊢
    exact ⟨first.isLine plain.1, ih plain.2⟩

def title : PartHeader → Bytes
  | disposition _ => Utf8.encode "Content-Disposition".toList
  | length _ => Utf8.encode "Content-Length".toList
  | type _ => Utf8.encode "Content-Type".toList

def line (h : PartHeader) : Bytes := h.title ++ 58 :: h.value

theorem spells_line (h : PartHeader) : h.Spells h.line := by
  refine ⟨h.title, ?_, rfl⟩
  cases h <;> simp only [title, name] <;> decide

end PartHeader
end FormBody
