import FormBody.Proofs.Form
import FormBody.Proofs.Framing.Refinement
import FormBody.Proofs.Framing.Writing
import FormBody.Proofs.Part.Item

/-! Bodies that say what a list of items says. Whatever is left open to the writer, the form that the
decoder gives is the one that the items describe. -/
namespace FormBody

open Bytes Text

namespace Item

def field (item : Item) (name : String) (index : Nat) : Field :=
  { name, fileName := item.fileName,
    contentType := if item.octetStream then some .octetStream else none,
    contentLength := item.length, index, content := item.content }

/-- The fields of items behind a part that leaves them a name. -/
def fields (name : String) (index : Nat) : List Item → List Field
  | [] => []
  | item :: rest =>
    item.field (item.name.getD name) index :: fields (item.name.getD name) (index + 1) rest

/-- The name of an item in a list: its own, or that of the nearest item in front that has one. -/
def nameAt (inherited : String) (items : List Item) (i : Nat) : String :=
  ((items.take (i + 1)).reverse.findSome? (·.name)).getD inherited

theorem getElem?_fields (name : String) (index : Nat) (items : List Item) (i : Nat) :
    (fields name index items)[i]? =
      items[i]?.map fun item => item.field (nameAt name items i) (index + i) := by
  induction items generalizing name index i with
  | nil => rfl
  | cons item rest ih =>
    cases i with
    | zero =>
      have own : nameAt name (item :: rest) 0 = item.name.getD name := by
        cases given : item.name <;> simp [nameAt, given]
      rw [own]
      rfl
    | succ i =>
      have inherited : nameAt name (item :: rest) (i + 1) = nameAt (item.name.getD name) rest i := by
        unfold nameAt
        rw [List.take_succ_cons, List.reverse_cons, List.findSome?_append, List.findSome?_singleton]
        cases (rest.take (i + 1)).reverse.findSome? (·.name) <;> rfl
      have next : (fields name index (item :: rest))[i + 1]? =
          (fields (item.name.getD name) (index + 1) rest)[i]? := rfl
      have shift : index + 1 + i = index + (i + 1) := by omega
      rw [next, ih, List.getElem?_cons_succ, inherited, shift]

theorem exists_name_fields {name inherited : String} {items : List Item} :
    (∃ field ∈ fields inherited 0 items, field.name = name) ↔
      ∃ i < items.length, nameAt inherited items i = name := by
  constructor
  · rintro ⟨field, mem, rfl⟩
    obtain ⟨i, found⟩ := List.mem_iff_getElem?.mp mem
    rw [getElem?_fields] at found
    obtain ⟨item, here, rfl⟩ := Option.map_eq_some_iff.mp found
    exact ⟨i, (List.getElem?_eq_some_iff.mp here).1, rfl⟩
  · rintro ⟨i, inside, rfl⟩
    refine ⟨items[i].field (nameAt inherited items i) (0 + i), List.mem_of_getElem? (i := i) ?_, rfl⟩
    rw [getElem?_fields, List.getElem?_eq_getElem inside]
    rfl

theorem get?_ofFields_fields {inherited : String} {items : List Item} {i : Nat} {item : Item}
    (here : items[i]? = some item)
    (last : ∀ j, i < j → j < items.length → nameAt inherited items j ≠ nameAt inherited items i) :
    (Form.ofFields (fields inherited 0 items)).get? (nameAt inherited items i) =
      some (item.field (nameAt inherited items i) i) := by
  have found : (fields inherited 0 items)[i]? = some (item.field (nameAt inherited items i) i) := by
    rw [getElem?_fields, here, Nat.zero_add]
    rfl
  refine Form.get?_ofFields_of_getElem? found fun j later after behind => ?_
  rw [getElem?_fields] at behind
  obtain ⟨other, there, rfl⟩ := Option.map_eq_some_iff.mp behind
  exact last j after (List.getElem?_eq_some_iff.mp there).1

end Item

/-- An item and what is left open to the writer: the padding of the line that opens the part, and
the spelling and the order of the header lines. -/
structure WrittenItem where
  item : Item
  padding : Bytes
  lines : List Bytes
  deriving DecidableEq, Repr

namespace WrittenItem

structure Proper (m : Markers) (w : WrittenItem) : Prop where
  item : w.item.Proper
  content : ¬ crlf ++ m.delimiter <:+: crlf ++ w.item.content
  padding : IsLine w.padding
  opens : ¬ dashes <+: w.padding
  spelled : ∃ headers : List PartHeader, headers.Perm w.item.headers ∧
    List.Forall₂ PartHeader.Spells headers w.lines

def toSection (w : WrittenItem) : Section := ⟨w.padding, ⟨w.lines, w.item.content⟩⟩

def encode (m : Markers) (preamble : List Bytes) (parts : List WrittenItem) (epilogue : Bytes) :
    Bytes :=
  Framing.encode m preamble (parts.map toSection) epilogue

variable {m : Markers} {w : WrittenItem} {policy : Policy}

/-- The header lines in order, each with its usual name, and nothing behind the delimiter. -/
def plain (item : Item) : WrittenItem := ⟨item, [], item.headers.map PartHeader.line⟩

theorem proper_plain {m : Markers} {item : Item} (proper : item.Proper)
    (apart : ¬ crlf ++ m.delimiter <:+: crlf ++ item.content) : (plain item).Proper m where
  item := proper
  content := apart
  padding := by change IsLine []; decide
  opens := by change ¬ dashes <+: []; decide
  spelled := by
    refine ⟨item.headers, .refl _, ?_⟩
    rw [plain, List.forall₂_map_right_iff, List.forall₂_same]
    exact fun h _ => h.spells_line

theorem Proper.toSection (proper : w.Proper m) : w.toSection.Proper m where
  padding := proper.padding
  opens := proper.opens
  content := proper.content
  lines := by
    obtain ⟨headers, order, spelled⟩ := proper.spelled
    exact PartHeader.isLine_of_spells spelled fun h given => Item.isLine_value (order.subset given)

theorem proper_toSection {parts : List WrittenItem} (written : ∀ w ∈ parts, w.Proper m) :
    ∀ s ∈ parts.map toSection, s.Proper m := by
  intro s mem
  obtain ⟨w, here, rfl⟩ := List.mem_map.mp mem
  exact (written w here).toSection

/-- Whatever the order of its lines, a part says what its item says. -/
theorem result_noteLines (proper : w.Proper m)
    (binary : policy.allowsType (Item.spaced "application/octet-stream".toList)) (name : String) :
    (Heading.noteLines policy (.ofName name) w.lines).result = .ok (w.item.heading name) := by
  obtain ⟨headers, order, spelled⟩ := proper.spelled
  have accepted : ∀ h ∈ headers, policy.accepts h := fun h given =>
    Item.accepts_of_mem binary (order.subset given)
  have distinct : ∀ a ∈ headers, ∀ b ∈ headers, a = b ∨ a.name ≠ b.name := fun a first b second =>
    Item.eq_or_name_ne (order.subset first) (order.subset second)
  rw [Heading.result_noteLines_eq_ok_iff, PartHeader.filterMap_ofLine? spelled]
  refine ⟨accepted, ?_⟩
  rw [Heading.foldl_apply_perm _ order distinct, Item.foldl_apply_headers proper.item]

theorem fields_frames {parts : List WrittenItem} (proper : ∀ w ∈ parts, w.Proper m)
    (binary : policy.allowsType (Item.spaced "application/octet-stream".toList))
    (anyName : policy.allowedNames = none) (noLimits : ∀ name, policy.sizes.limitFor name = noLimit)
    (fits : ∀ w ∈ parts, w.item.content.length ≤ noLimit.toNat) (name : String) (index : Nat) :
    Frame.fields policy name index (parts.map (·.toSection.frame)) =
      .ok (Item.fields name index (parts.map item)) := by
  induction parts generalizing name index with
  | nil => rfl
  | cons w parts ih =>
    have noted := result_noteLines (proper w List.mem_cons_self) binary name
    have first : Frame.field policy name index w.toSection.frame =
        .ok (w.item.field (w.item.name.getD name) index) := by
      change (Heading.noteLines policy (.ofName name) w.lines).result.bind _ = _
      rw [noted]
      exact Heading.field_of_unrestricted _ index anyName noLimits (fits w List.mem_cons_self)
    rw [List.map_cons, Frame.fields, first]
    change (Frame.fields policy (w.item.name.getD name) (index + 1) _).map _ = _
    rw [ih (fun w mem => proper w (List.mem_cons_of_mem _ mem))
      (fun w mem => fits w (List.mem_cons_of_mem _ mem))]
    rfl

theorem ofBytes_encode (proper : m.Proper) (plain : 13 ∉ m.delimiter) {preamble : List Bytes}
    (skipped : ∀ line ∈ preamble, IsLine line ∧ ¬ m.delimiter <+: line) {parts : List WrittenItem}
    (written : ∀ w ∈ parts, w.Proper m) (epilogue : Bytes) :
    Framing.ofBytes m (encode m preamble parts epilogue) =
      ⟨parts.map (·.toSection.frame), .closed⟩ := by
  rw [encode, Framing.ofBytes_encode proper plain skipped (proper_toSection written), List.map_map]
  rfl

end WrittenItem

theorem Policy.allowsType_withTerminator (required : Bool) :
    (withTerminator required).allowsType (Item.spaced "application/octet-stream".toList) := by
  change lenient.allowsType _
  decide

namespace Decoder

open WrittenItem

theorem result_decode_encode {boundary : String} (required : Bool) (plain : '\r' ∉ boundary.toList)
    {preamble : List Bytes} {parts : List WrittenItem} (epilogue : Bytes)
    (skipped : ∀ line ∈ preamble, IsLine line ∧ ¬ (Markers.ofBoundary boundary).delimiter <+: line)
    (written : ∀ w ∈ parts, w.Proper (.ofBoundary boundary))
    (fits : (encode (.ofBoundary boundary) preamble parts epilogue).length ≤ noLimit.toNat) :
    ((Decoder.mk boundary (.withTerminator required)).decode
        (encode (.ofBoundary boundary) preamble parts epilogue)).result =
      .ok (.ofFields (Item.fields "" 0 (parts.map item))) := by
  have proper := Markers.proper_ofBoundary boundary
  have framing := ofBytes_encode proper (Markers.delimiter_fresh plain) skipped written epilogue
  have small : ∀ w ∈ parts, w.item.content.length ≤ noLimit.toNat := by
    intro w mem
    have inside : w.toSection.frame ∈ (Framing.ofBytes (.ofBoundary boundary)
        (encode (.ofBoundary boundary) preamble parts epilogue)).frames := by
      rw [framing]
      exact List.mem_map_of_mem mem
    exact Nat.le_trans (Framing.length_content_le inside) fits
  have fields : Frame.fields (.withTerminator required) "" 0 (parts.map (·.toSection.frame)) =
      .ok (Item.fields "" 0 (parts.map item)) :=
    fields_frames written (Policy.allowsType_withTerminator required) rfl (fun _ => rfl) small "" 0
  have nonempty : encode (.ofBoundary boundary) preamble parts epilogue ≠ [] :=
    Framing.encode_ne_nil proper _ _ _
  rw [result_decode _ nonempty fits]
  change (Framing.ofBytes (.ofBoundary boundary) _).form (.withTerminator required) = _
  rw [framing, Framing.form]
  change (Frame.fields _ "" 0 (parts.map _)).bind _ = _
  rw [fields]
  cases required <;> rfl

/-- What was written is read back, as long as it is within the limit of a policy that sets none. The
names of the form are those that the items have or inherit, and under each stands the field of the
last item of that name. -/
theorem decode_encode (boundary : String) (required : Bool) (preamble : List Bytes)
    (parts : List WrittenItem) (epilogue : Bytes) (plain : '\r' ∉ boundary.toList)
    (skipped : ∀ line ∈ preamble, IsLine line ∧ ¬ (Markers.ofBoundary boundary).delimiter <+: line)
    (written : ∀ w ∈ parts, w.Proper (.ofBoundary boundary))
    (fits : (encode (.ofBoundary boundary) preamble parts epilogue).length ≤ noLimit.toNat) :
    let items := parts.map item
    ∃ form,
      ((Decoder.mk boundary (.withTerminator required)).decode
          (encode (.ofBoundary boundary) preamble parts epilogue)).result = .ok form ∧
        (∀ name, form.contains name ↔ ∃ i < items.length, Item.nameAt "" items i = name) ∧
        ∀ i item, items[i]? = some item →
          (∀ j, i < j → j < items.length → Item.nameAt "" items j ≠ Item.nameAt "" items i) →
          form.get? (Item.nameAt "" items i) = some (item.field (Item.nameAt "" items i) i) := by
  intro items
  refine ⟨_, result_decode_encode required plain epilogue skipped written fits, ?_, ?_⟩
  · intro name
    rw [Form.contains_ofFields]
    exact Item.exists_name_fields
  · intro i item here last
    exact Item.get?_ofFields_fields here last

/-- A part whose name needs an escape, its header lines respelled and swapped, and a part that
inherits the name. -/
def respelledParts : List WrittenItem :=
  [⟨⟨⟨some "a\"", none⟩, none, true, [49, 13, 10]⟩, [32],
      [Utf8.encode "content-type: application/octet-stream".toList,
        Utf8.encode "CONTENT-Disposition: form-data; name=\"a\\\"\"".toList]⟩,
    .plain ⟨⟨none, some "f"⟩, some 7, false, []⟩]

theorem proper_respelledParts : ∀ w ∈ respelledParts, w.Proper (.ofBoundary "X") := by
  rw [respelledParts, List.forall_mem_cons, List.forall_mem_cons]
  refine ⟨⟨⟨by decide, by decide⟩, by decide, by decide, by decide, ?_⟩,
    proper_plain ⟨by decide, by decide⟩ (by decide), List.forall_mem_nil _⟩
  refine ⟨_, .swap _ _ _, .cons ⟨Utf8.encode "content-type".toList, by decide, by decide⟩ ?_⟩
  exact .cons ⟨Utf8.encode "CONTENT-Disposition".toList, by decide, by decide⟩ .nil

theorem decode_encode_respelledParts :
    ∃ form,
      ((Decoder.mk "X" (.withTerminator true)).decode
          (encode (.ofBoundary "X") [[112]] respelledParts [10])).result = .ok form ∧
        form.get? "a\"" = some ⟨"a\"", some "f", none, some 7, 1, []⟩ := by
  obtain ⟨form, decoded, _, found⟩ := decode_encode "X" true [[112]] respelledParts [10] (by decide)
    (by decide) proper_respelledParts (by decide +kernel)
  exact ⟨form, decoded, found 1 _ rfl fun j after before => absurd before (Nat.not_lt.mpr after)⟩

end Decoder
end FormBody
