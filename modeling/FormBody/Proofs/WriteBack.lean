import FormBody.Proofs.RoundTrip

/-! Forms written back. What a run captures can be told apart again when it is written: no content
holds a delimiter, no file name is empty, and the empty name stands in front of all others. So every
form that was decoded, from whatever body, is decoded again from its own encoding. -/
namespace FormBody

open Bytes Text

/-- What holds of the fields that a run captures, in their order. -/
structure Captured (m : Markers) (fields : List Field) : Prop where
  ordered : fields.Pairwise fun a b => a.index < b.index
  named : fields.Pairwise fun a b => b.name = "" → a.name = ""
  filed : ∀ field ∈ fields, field.fileName ≠ some ""
  apart : ∀ field ∈ fields, ¬ crlf ++ m.delimiter <:+: crlf ++ field.content

theorem Captured.nil (m : Markers) : Captured m [] :=
  ⟨.nil, .nil, List.forall_mem_nil _, List.forall_mem_nil _⟩

theorem Captured.sublist {m : Markers} {some all : List Field} (captured : Captured m all)
    (kept : some.Sublist all) : Captured m some where
  ordered := captured.ordered.sublist kept
  named := captured.named.sublist kept
  filed field mem := captured.filed field (kept.subset mem)
  apart field mem := captured.apart field (kept.subset mem)

/-- What the parts of a framing give is captured in order, and the empty name only as long as it is
inherited. -/
theorem Frame.captured_of_fields {m : Markers} {policy : Policy} {frames : List Frame}
    (apart : ∀ frame ∈ frames, ¬ crlf ++ m.delimiter <:+: crlf ++ frame.content) {name : String}
    {index : Nat} {found : List Field} (read : fields policy name index frames = .ok found) :
    Captured m found ∧ (∀ field ∈ found, index ≤ field.index) ∧
      ∀ field ∈ found, field.name = "" → name = "" := by
  induction frames generalizing name index found with
  | nil =>
    cases read
    exact ⟨.nil m, List.forall_mem_nil _, List.forall_mem_nil _⟩
  | cons frame frames ih =>
    obtain ⟨field, others, first, rest, rfl⟩ := exists_of_fields_cons read
    rw [List.forall_mem_cons] at apart
    obtain ⟨captured, later, inherited⟩ := ih apart.2 rest
    have here := index_of_field first
    refine ⟨⟨?_, ?_, ?_, ?_⟩, ?_, ?_⟩
    · refine List.pairwise_cons.mpr ⟨fun other mem => ?_, captured.ordered⟩
      have := later other mem
      omega
    · exact List.pairwise_cons.mpr ⟨inherited, captured.named⟩
    · exact List.forall_mem_cons.mpr ⟨fileName_of_field first, captured.filed⟩
    · refine List.forall_mem_cons.mpr ⟨?_, captured.apart⟩
      rw [content_of_field first]
      exact apart.1
    · refine List.forall_mem_cons.mpr ⟨Nat.le_of_eq here.symm, fun other mem => ?_⟩
      have := later other mem
      omega
    · refine List.forall_mem_cons.mpr ⟨name_of_field first, fun other mem empty => ?_⟩
      exact name_of_field first (inherited other mem empty)

theorem Decoder.captured_of_accepted {d : Decoder} {body : Bytes} {form : Form}
    (accepted : (d.decode body).result = .ok form) : Captured d.markers form.fields := by
  by_cases nonempty : body = []
  · subst nonempty
    cases accepted
    exact .nil d.markers
  · rw [result_decode d nonempty (fits_of_accepted nonempty accepted)] at accepted
    obtain ⟨fields, read, rfl, _⟩ := Framing.exists_of_form accepted
    have delimited := (Markers.proper_ofBoundary d.boundary).delimiter_ne_nil
    obtain ⟨captured, _⟩ :=
      Frame.captured_of_fields (fun frame mem => Framing.content_apart delimited mem) read
    exact captured.sublist (Form.sublist_ofFields fields)

/-- What a part must say to give the field again, its content type aside. -/
def Field.item (field : Field) : Item :=
  { name := if field.name = "" then none else some field.name, fileName := field.fileName,
    length := field.contentLength, octetStream := false, content := field.content }

theorem Field.proper_item {field : Field} (filed : field.fileName ≠ some "") :
    field.item.Proper := by
  refine ⟨?_, filed⟩
  simp only [item]
  split
  · exact nofun
  · next named => exact fun same => named (Option.some.inj same)

theorem Item.fields_map_item {fields : List Field} {name : String} (index : Nat)
    (named : fields.Pairwise fun a b => b.name = "" → a.name = "")
    (first : ∀ field ∈ fields, field.name = "" → name = "") :
    Item.fields name index (fields.map Field.item) =
      fields.mapIdx fun i field => { field with contentType := none, index := index + i } := by
  induction fields generalizing name index with
  | nil => rfl
  | cons field fields ih =>
    rw [List.pairwise_cons] at named
    have kept : field.item.name.getD name = field.name := by
      by_cases empty : field.name = ""
      · simp [Field.item, empty, first field List.mem_cons_self empty]
      · simp [Field.item, empty]
    have shift : (fun i (field : Field) => { field with contentType := none, index := index + 1 + i }) =
        fun i field => { field with contentType := none, index := index + (i + 1) } := by
      funext i field
      rw [Nat.add_right_comm, Nat.add_assoc]
    rw [List.map_cons, Item.fields, kept, ih (index + 1) named.2 named.1, shift, List.mapIdx_cons]
    rfl

namespace Form

/-- The fields in the order of their parts. -/
def byIndex (form : Form) : List Field := form.fields.mergeSort fun a b => decide (a.index ≤ b.index)

/-- The number of fields whose part stands in front of that of the given one. -/
def rank (form : Form) (field : Field) : Nat :=
  form.fields.countP fun other => decide (other.index < field.index)

/-- A body with one part for each field, in the order of their parts. -/
def encode (m : Markers) (form : Form) : Bytes :=
  WrittenItem.encode m [] (form.byIndex.map fun field => .plain field.item) []

theorem byIndex_of_captured {m : Markers} {form : Form} (captured : Captured m form.fields) :
    form.byIndex = form.fields := by
  refine List.mergeSort_of_pairwise (captured.ordered.imp fun less => ?_)
  exact decide_eq_true (Nat.le_of_lt less)

theorem countP_index {fields : List Field} (ordered : fields.Pairwise fun a b => a.index < b.index)
    {i : Nat} {field : Field} (here : fields[i]? = some field) :
    fields.countP (fun other => decide (other.index < field.index)) = i := by
  induction fields generalizing i with
  | nil => simp at here
  | cons first fields ih =>
    obtain ⟨before, ordered⟩ := List.pairwise_cons.mp ordered
    cases i with
    | zero =>
      obtain rfl : first = field := Option.some.inj here
      rw [List.countP_eq_zero]
      intro other mem
      have notBefore : ¬ other.index < first.index := by
        rcases List.mem_cons.mp mem with rfl | later
        · exact Nat.lt_irrefl _
        · exact Nat.lt_asymm (before other later)
      simpa using notBefore
    | succ i =>
      rw [List.getElem?_cons_succ] at here
      have less := before field (List.mem_of_getElem? here)
      rw [List.countP_cons_of_pos (by simpa using less), ih ordered here]

def renumbered (form : Form) : List Field :=
  form.fields.mapIdx fun i field => { field with contentType := none, index := i }

theorem names_renumbered (form : Form) :
    form.renumbered.map Field.name = form.fields.map Field.name := by
  apply List.ext_getElem?
  intro i
  rw [renumbered, List.getElem?_map, List.getElem?_mapIdx, List.getElem?_map, Option.map_map]
  rfl

theorem fields_items {m : Markers} {form : Form} (captured : Captured m form.fields) :
    Item.fields "" 0 (form.fields.map Field.item) = form.renumbered := by
  rw [Item.fields_map_item 0 captured.named fun _ _ _ => rfl, renumbered]
  simp only [Nat.zero_add]

theorem fields_ofFields_renumbered (form : Form) : (ofFields form.renumbered).fields = form.renumbered := by
  apply fields_ofFields_of_nodup
  rw [names_renumbered]
  exact form.distinct

end Form

/-- Every form that was decoded is decoded again from its own encoding. The body need not have been
well formed, and the policy is any; the encoding is read without limits but with its terminator
required. -/
theorem Decoder.decode_encode_form {d : Decoder} {body : Bytes} {form : Form}
    (plain : '\r' ∉ d.boundary.toList) (accepted : (d.decode body).result = .ok form)
    (fits : (form.encode d.markers).length ≤ noLimit.toNat) :
    ∃ again,
      ((Decoder.mk d.boundary (.withTerminator true)).decode (form.encode d.markers)).result =
          .ok again ∧
        (∀ name, again.contains name = form.contains name) ∧
        ∀ name field, form.get? name = some field →
          again.get? name = some { field with contentType := none, index := form.rank field } := by
  have captured := captured_of_accepted accepted
  have written : ∀ w ∈ form.byIndex.map fun field => WrittenItem.plain field.item,
      w.Proper (.ofBoundary d.boundary) := by
    rw [Form.byIndex_of_captured captured, List.forall_mem_map]
    intro field mem
    have proper := Field.proper_item (captured.filed field mem)
    exact WrittenItem.proper_plain proper (captured.apart field mem)
  have items : (form.byIndex.map fun field => WrittenItem.plain field.item).map WrittenItem.item =
      form.fields.map Field.item := by
    rw [Form.byIndex_of_captured captured, List.map_map]
    rfl
  have decoded := result_decode_encode true plain [] (List.forall_mem_nil _) written fits
  rw [items, Form.fields_items captured] at decoded
  refine ⟨_, decoded, ?_, ?_⟩
  · intro name
    rw [Bool.eq_iff_iff, Form.contains_iff, Form.contains_iff, Form.fields_ofFields_renumbered,
      Form.names_renumbered]
  · intro name field found
    obtain ⟨mem, rfl⟩ := Form.get?_eq_some_iff.mp found
    obtain ⟨i, here⟩ := List.mem_iff_getElem?.mp mem
    rw [Form.rank, Form.countP_index captured.ordered here]
    refine Form.get?_eq_some_iff.mpr ⟨?_, rfl⟩
    rw [Form.fields_ofFields_renumbered]
    apply List.mem_of_getElem? (i := i)
    rw [Form.renumbered, List.getElem?_mapIdx, here]
    rfl

/-- A part without a name, one that is replaced, and the one of the same name that replaces it. -/
def replacingParts : Bytes := Utf8.encode
  ("--X\r\nContent-Length: 1\r\n\r\n0\r\n--X\r\nContent-Disposition: form-data; name=a\r\n\r\n1\r\n" ++
    "--X\r\nContent-Disposition: form-data; name=a; filename=f\r\n\r\n2").toList

theorem Decoder.decode_encode_form_replacingParts :
    ∃ form again,
      ((Decoder.mk "X" .lenient).decode replacingParts).result = .ok form ∧
        form.get? "a" = some ⟨"a", some "f", none, none, 2, [50]⟩ ∧
        ((Decoder.mk "X" (.withTerminator true)).decode
          (form.encode (.ofBoundary "X"))).result = .ok again ∧
        again.get? "" = some ⟨"", none, none, some 1, 0, [48]⟩ ∧
        again.get? "a" = some ⟨"a", some "f", none, none, 1, [50]⟩ := by
  let unnamed : Field := ⟨"", none, none, some 1, 0, [48]⟩
  let last : Field := ⟨"a", some "f", none, none, 2, [50]⟩
  have accepted : ((Decoder.mk "X" .lenient).decode replacingParts).result =
      .ok (.ofFields [unnamed, last]) := by decide +kernel
  have ordered : (Form.ofFields [unnamed, last]).byIndex = [unnamed, last] :=
    List.mergeSort_of_pairwise (by decide)
  have fits : ((Form.ofFields [unnamed, last]).encode (.ofBoundary "X")).length ≤ noLimit.toNat := by
    rw [Form.encode, ordered]
    decide +kernel
  obtain ⟨again, decoded, _, found⟩ := decode_encode_form (by decide) accepted fits
  exact ⟨_, again, accepted, rfl, decoded, found "" unnamed rfl, found "a" last rfl⟩

end FormBody
