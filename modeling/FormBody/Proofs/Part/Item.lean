import FormBody.Proofs.Part.Heading

/-! What a part is to say, written as header lines. The lines hold no line break, whatever the names
are, and the heading that they give says what was written. -/
namespace FormBody

open Text

namespace Bytes

/-- Bytes that hold no line break and end none that stands in front of them. -/
structure Seamless (bytes : Bytes) : Prop where
  line : IsLine bytes
  head : bytes.head? ≠ some 10

theorem Seamless.append {a b : Bytes} (first : Seamless a) (second : Seamless b) :
    Seamless (a ++ b) := by
  refine ⟨?_, ?_⟩
  · have plain := first.line
    clear first
    induction a with
    | nil => exact second.line
    | cons x a ih =>
      have inner : IsLine a := fun inside => plain (List.infix_cons_iff.mpr (.inr inside))
      intro inside
      rcases List.infix_cons_iff.mp inside with begins | later
      · obtain ⟨rfl, next⟩ := List.cons_prefix_cons.mp begins
        cases a with
        | nil => exact second.head (List.head?_eq_some_iff.mpr ⟨_, next.choose_spec.symm⟩)
        | cons y a =>
          obtain ⟨rfl, _⟩ := List.cons_prefix_cons.mp next
          exact plain ⟨[], a, rfl⟩
      · exact ih inner later
  · cases a with
    | nil => exact second.head
    | cons x a => exact first.head

theorem Seamless.flatMap {α : Type} {f : α → Bytes} {list : List α}
    (each : ∀ x ∈ list, Seamless (f x)) : Seamless (list.flatMap f) := by
  induction list with
  | nil => exact ⟨by simp [IsLine, crlf], by simp⟩
  | cons x list ih =>
    rw [List.flatMap_cons]
    exact (each x List.mem_cons_self).append (ih fun y mem => each y (List.mem_cons_of_mem x mem))

theorem seamless_of_not_mem {bytes : Bytes} (fresh : 10 ∉ bytes) : Seamless bytes := by
  refine ⟨fun inside => fresh (inside.subset (by simp [crlf])), fun begins => fresh ?_⟩
  exact List.mem_of_mem_head? begins

end Bytes

namespace Text.Utf8

open Bytes

theorem seamless_encode {text : List Char} (fresh : '\n' ∉ text) : Seamless (encode text) :=
  seamless_of_not_mem (not_mem_encode (by decide) rfl fresh)

/-- With a backslash in front of every line feed any text fits into a line. -/
theorem seamless_encode_escape {marked : List Char} (feed : '\n' ∈ marked) (text : List Char) :
    Seamless (encode (Parameter.Quoted.escape marked text)) := by
  rw [Parameter.Quoted.escape, encode, List.flatMap_assoc]
  refine Seamless.flatMap fun c _ => ?_
  by_cases mark : c ∈ marked
  · rw [if_pos mark]
    by_cases isFeed : c = '\n'
    · subst isFeed
      exact ⟨by decide, by decide⟩
    · exact seamless_encode (by simpa using Ne.symm isFeed)
  · rw [if_neg mark]
    have noFeed : c ≠ '\n' := fun same => mark (same ▸ feed)
    exact seamless_encode (by simpa using Ne.symm noFeed)

end Text.Utf8

namespace Parameter

open Utf8

theorem seamless_encode_render {p : Parameter} (key : '\n' ∉ p.key) :
    Bytes.Seamless (encode p.render) := by
  have split : p.render =
      ("; ".toList ++ (p.key ++ ['=', '"'])) ++ (Quoted.escape marks p.value ++ ['"']) := by
    simp [render]
  have front : '\n' ∉ "; ".toList ++ (p.key ++ ['=', '"']) := by simpa using key
  rw [split, encode_append, encode_append (Quoted.escape marks p.value)]
  exact (seamless_encode front).append
    ((seamless_encode_escape (by decide) p.value).append (seamless_encode (by decide)))

end Parameter

namespace Disposition

open Utf8

theorem seamless_encode_write (d : Disposition) : Bytes.Seamless (encode d.write) := by
  rw [write, encode_append]
  refine (seamless_encode (by decide)).append ?_
  rw [encode, List.flatMap_assoc]
  refine Bytes.Seamless.flatMap fun p mem => Parameter.seamless_encode_render ?_
  simp only [parameters, List.mem_append, Option.mem_toList, Option.map_eq_some_iff] at mem
  rcases mem with ⟨name, _, rfl⟩ | ⟨fileName, _, rfl⟩
  · change '\n' ∉ nameKey
    decide
  · change '\n' ∉ fileNameKey
    decide

end Disposition

/-- What a part is to say: its names, if it gives any, the length that it declares, whether it
declares binary data, and its content. -/
structure Item extends Disposition where
  length : Option UInt64
  octetStream : Bool
  content : Bytes
  deriving DecidableEq, Repr

namespace Item

open Utf8

def spaced (text : List Char) : Bytes := encode (' ' :: text)

def dispositionHeader (item : Item) : Option PartHeader :=
  if item.toDisposition = .empty then none else some (.disposition (spaced item.write))

def lengthHeader (item : Item) : Option PartHeader :=
  item.length.map fun n => .length (spaced (Nat.toDigits 10 n.toNat))

def typeHeader (item : Item) : Option PartHeader :=
  if item.octetStream then some (.type (spaced "application/octet-stream".toList)) else none

def headers (item : Item) : List PartHeader :=
  item.dispositionHeader.toList ++ (item.lengthHeader.toList ++ item.typeHeader.toList)

theorem mem_headers {item : Item} {h : PartHeader} : h ∈ item.headers ↔
    item.dispositionHeader = some h ∨ item.lengthHeader = some h ∨ item.typeHeader = some h := by
  simp only [headers, List.mem_append, Option.mem_toList]

theorem eq_of_dispositionHeader {item : Item} {h : PartHeader}
    (given : item.dispositionHeader = some h) : h = .disposition (spaced item.write) := by
  unfold dispositionHeader at given
  split at given
  · cases given
  · exact (Option.some.inj given).symm

theorem exists_of_lengthHeader {item : Item} {h : PartHeader} (given : item.lengthHeader = some h) :
    ∃ n : UInt64, h = .length (spaced (Nat.toDigits 10 n.toNat)) := by
  obtain ⟨n, _, rfl⟩ := Option.map_eq_some_iff.mp given
  exact ⟨n, rfl⟩

theorem eq_of_typeHeader {item : Item} {h : PartHeader} (given : item.typeHeader = some h) :
    h = .type (spaced "application/octet-stream".toList) := by
  unfold typeHeader at given
  split at given
  · exact (Option.some.inj given).symm
  · cases given

theorem eq_or_name_ne {item : Item} {a b : PartHeader} (first : a ∈ item.headers)
    (second : b ∈ item.headers) : a = b ∨ a.name ≠ b.name := by
  have kind {h : PartHeader} (given : h ∈ item.headers) :
      (item.dispositionHeader = some h ∧ h.name = PartHeader.dispositionName) ∨
        (item.lengthHeader = some h ∧ h.name = PartHeader.lengthName) ∨
        (item.typeHeader = some h ∧ h.name = PartHeader.typeName) := by
    rcases mem_headers.mp given with given | given | given
    · exact .inl ⟨given, by rw [eq_of_dispositionHeader given]; rfl⟩
    · obtain ⟨n, rfl⟩ := exists_of_lengthHeader given
      exact .inr (.inl ⟨given, rfl⟩)
    · exact .inr (.inr ⟨given, by rw [eq_of_typeHeader given]; rfl⟩)
  rcases kind first with ⟨x, n⟩ | ⟨x, n⟩ | ⟨x, n⟩ <;>
    rcases kind second with ⟨y, k⟩ | ⟨y, k⟩ | ⟨y, k⟩ <;> first
      | exact .inl (Option.some.inj (x.symm.trans y))
      | exact .inr (by rw [n, k]; decide)

theorem isLine_value {item : Item} {h : PartHeader} (given : h ∈ item.headers) :
    Bytes.IsLine h.value := by
  rcases mem_headers.mp given with given | given | given
  · rw [eq_of_dispositionHeader given]
    have space : encode (' ' :: item.write) = encode [' '] ++ encode item.write :=
      encode_append [' '] item.write
    change Bytes.IsLine (encode (' ' :: item.write))
    rw [space]
    exact ((seamless_encode (by decide)).append item.seamless_encode_write).line
  · obtain ⟨n, rfl⟩ := exists_of_lengthHeader given
    refine (seamless_encode fun feed => ?_).line
    rcases List.mem_cons.mp feed with space | digit
    · exact absurd space (by decide)
    · exact absurd (Decimal.isDigit_of_mem_toDigits digit) (by decide)
  · rw [eq_of_typeHeader given]
    exact (seamless_encode (by decide)).line

theorem accepts_of_mem {policy : Policy} {item : Item} {h : PartHeader}
    (binary : policy.allowsType (spaced "application/octet-stream".toList)) (given : h ∈ item.headers) :
    policy.accepts h := by
  rcases mem_headers.mp given with given | given | given
  · rw [eq_of_dispositionHeader given]
    rfl
  · obtain ⟨n, rfl⟩ := exists_of_lengthHeader given
    rfl
  · rw [eq_of_typeHeader given]
    exact binary

def heading (item : Item) (name : String) : Heading :=
  ⟨item.name.getD name, item.fileName, if item.octetStream then some .octetStream else none,
    item.length⟩

theorem declaredLength?_spaced (n : UInt64) :
    PartHeader.declaredLength? (spaced (Nat.toDigits 10 n.toNat)) = some n := by
  have solid : ∀ c ∈ Nat.toDigits 10 n.toNat, isBlank c = false := fun c mem =>
    Decimal.isBlank_of_isDigit (Decimal.isDigit_of_mem_toDigits mem)
  have blank : trim ([' '] ++ (Nat.toDigits 10 n.toNat ++ [])) = trim (Nat.toDigits 10 n.toNat) :=
    trim_append (List.all_eq_true.mp (by decide)) _ (List.forall_mem_nil _)
  rw [List.append_nil, List.singleton_append, trim_eq_self solid] at blank
  rw [PartHeader.declaredLength?, spaced, decode?_encode, Option.bind_some, blank,
    Decimal.parse?_toDigits]

theorem ofBytes_spaced {item : Item} (proper : item.Proper) :
    Disposition.ofBytes (spaced item.write) = item.toDisposition := by
  rw [Disposition.ofBytes, spaced, decodeLossy_encode, Disposition.ofText_write proper]

theorem name_of_fieldName? {item : Item} (proper : item.Proper) {h : PartHeader}
    (given : h ∈ item.headers) {name : String} (named : h.fieldName? = some name) :
    item.name = some name := by
  rcases mem_headers.mp given with given | given | given
  · rw [eq_of_dispositionHeader given, PartHeader.fieldName?, ofBytes_spaced proper] at named
    exact named
  · obtain ⟨n, rfl⟩ := exists_of_lengthHeader given
    cases named
  · rw [eq_of_typeHeader given] at named
    cases named

theorem foldl_apply_headers {item : Item} (proper : item.Proper) (name : String) :
    item.headers.foldl Heading.apply (.ofName name) = item.heading name := by
  have disposition : item.dispositionHeader.toList.foldl Heading.apply (.ofName name) =
      ⟨item.name.getD name, item.fileName, none, none⟩ := by
    unfold dispositionHeader
    split
    · next nothing =>
      have noName : item.name = none := congrArg Disposition.name nothing
      have noFileName : item.fileName = none := congrArg Disposition.fileName nothing
      rw [noName, noFileName]
      rfl
    · change (Heading.ofName name).noteDisposition (.ofBytes (spaced item.write)) = _
      rw [ofBytes_spaced proper]
      rfl
  have length (h : Heading) (unset : h.contentLength = none) :
      item.lengthHeader.toList.foldl Heading.apply h = { h with contentLength := item.length } := by
    unfold lengthHeader
    cases item.length with
    | none => cases h; cases unset; rfl
    | some n =>
      change { h with contentLength := PartHeader.declaredLength? (spaced _) } = _
      rw [declaredLength?_spaced]
  have type (h : Heading) (unset : h.contentType = none) :
      item.typeHeader.toList.foldl Heading.apply h =
        { h with contentType := if item.octetStream then some .octetStream else none } := by
    unfold typeHeader
    cases item.octetStream with
    | false => cases h; cases unset; rfl
    | true => rfl
  rw [headers, List.foldl_append, List.foldl_append, disposition, length _ rfl, type _ rfl]
  rfl

end Item
end FormBody
