import FormBody.Form
import Mathlib.Data.List.Dedup

/-! Forms put together from fields in order. Under each name stands the last field of that name, and
the fields that are left keep their order. -/
namespace FormBody.Form

variable {form : Form} {fields : List Field}

theorem get?_erase_self (form : Form) (name : String) : (form.erase name).get? name = none := by
  rw [get?, List.find?_eq_none]
  intro field mem here
  have other := (List.mem_filter.mp mem).2
  exact bne_iff_ne.mp other (beq_iff_eq.mp here)

theorem get?_erase_of_ne (form : Form) {erased name : String} (other : erased ≠ name) :
    (form.erase erased).get? name = form.get? name := by
  change (form.fields.filter (·.name != erased)).find? (·.name == name) = _
  rw [List.find?_filter, get?]
  congr 1
  funext field
  by_cases here : field.name = name
  · simp [here, other.symm]
  · simp [here]

theorem get?_insert (form : Form) (field : Field) (name : String) :
    (form.insert field).get? name = if field.name = name then some field else form.get? name := by
  have split : (form.insert field).get? name =
      ((form.erase field.name).get? name).or ([field].find? (·.name == name)) := List.find?_append
  rw [split]
  split
  · next here =>
    rw [← here, get?_erase_self]
    simp
  · next other =>
    rw [get?_erase_of_ne form other]
    simp [other]

theorem get?_foldl_insert (form : Form) (fields : List Field) (name : String) :
    (fields.foldl insert form).get? name =
      (fields.reverse.find? (·.name == name)).or (form.get? name) := by
  induction fields generalizing form with
  | nil => rfl
  | cons field rest ih =>
    rw [List.foldl_cons, ih, get?_insert, List.reverse_cons, List.find?_append, Option.or_assoc]
    congr 1
    by_cases here : field.name = name
    · simp [here]
    · simp [here]

/-- The last field of a name counts. -/
theorem get?_ofFields (fields : List Field) (name : String) :
    (ofFields fields).get? name = fields.reverse.find? (·.name == name) := by
  rw [ofFields, get?_foldl_insert]
  exact Option.or_none

theorem get?_ofFields_of_last {front back : List Field} {field : Field}
    (last : ∀ later ∈ back, later.name ≠ field.name) :
    (ofFields (front ++ field :: back)).get? field.name = some field := by
  have none : back.reverse.find? (·.name == field.name) = none := by
    rw [List.find?_eq_none]
    intro later mem same
    exact last later (List.mem_reverse.mp mem) (beq_iff_eq.mp same)
  rw [get?_ofFields, List.reverse_append, List.reverse_cons, List.append_assoc, List.find?_append,
    none]
  simp

theorem get?_ofFields_of_getElem? {i : Nat} {field : Field} (here : fields[i]? = some field)
    (last : ∀ j later, i < j → fields[j]? = some later → later.name ≠ field.name) :
    (ofFields fields).get? field.name = some field := by
  obtain ⟨inside, rfl⟩ := List.getElem?_eq_some_iff.mp here
  have split : fields = fields.take i ++ fields[i] :: fields.drop (i + 1) := by
    rw [← List.drop_eq_getElem_cons, List.take_append_drop]
  have behind : ∀ later ∈ fields.drop (i + 1), later.name ≠ fields[i].name := by
    intro later mem
    obtain ⟨k, found⟩ := List.mem_iff_getElem?.mp mem
    rw [List.getElem?_drop] at found
    exact last (i + 1 + k) later (by omega) found
  have found : (ofFields (fields.take i ++ fields[i] :: fields.drop (i + 1))).get? fields[i].name =
      some fields[i] := get?_ofFields_of_last behind
  rwa [← split] at found

theorem contains_iff {form : Form} {name : String} :
    form.contains name ↔ name ∈ form.fields.map Field.name := by
  rw [contains, get?, List.find?_isSome, List.mem_map]
  simp

theorem contains_ofFields {name : String} :
    (ofFields fields).contains name ↔ ∃ field ∈ fields, field.name = name := by
  rw [contains, get?_ofFields, List.find?_isSome]
  simp

theorem get?_eq_some_iff {form : Form} {name : String} {field : Field} :
    form.get? name = some field ↔ field ∈ form.fields ∧ field.name = name := by
  constructor
  · intro found
    exact ⟨List.mem_of_find?_eq_some found, by simpa using List.find?_some found⟩
  · rintro ⟨mem, rfl⟩
    cases found : form.get? field.name with
    | none =>
      have other := List.find?_eq_none.mp found field mem
      simp at other
    | some same =>
      have inside := List.mem_of_find?_eq_some found
      have named : same.name = field.name := by simpa using List.find?_some found
      rw [List.inj_on_of_nodup_map form.distinct inside mem named]

/-- What is left of the fields keeps their order. -/
theorem sublist_ofFields (fields : List Field) : (ofFields fields).fields.Sublist fields := by
  suffices general : ∀ form : Form, (fields.foldl insert form).fields.Sublist (form.fields ++ fields) from
    general empty
  induction fields with
  | nil => exact fun form => by simp
  | cons field rest ih =>
    intro form
    have kept : (form.insert field).fields.Sublist (form.fields ++ [field]) :=
      List.filter_sublist.append_right [field]
    rw [List.foldl_cons, List.append_cons]
    exact (ih (form.insert field)).trans (kept.append_right rest)

theorem map_fields_ofFields {change : Field → Field} (named : ∀ field, (change field).name = field.name)
    (fields : List Field) : (ofFields fields).fields.map change = (ofFields (fields.map change)).fields := by
  suffices general : ∀ a b : Form, a.fields.map change = b.fields →
      (fields.foldl insert a).fields.map change = ((fields.map change).foldl insert b).fields from
    general empty empty rfl
  induction fields with
  | nil => exact fun a b same => same
  | cons field rest ih =>
    intro a b same
    refine ih _ _ ?_
    change (a.fields.filter (·.name != field.name) ++ [field]).map change =
      b.fields.filter (·.name != (change field).name) ++ [change field]
    rw [List.map_append, ← same, List.filter_map, named]
    simp only [Function.comp_def, named, List.map_cons, List.map_nil]

/-- Among fields in the order of their indices the last one of a name is the one with the greatest
index. -/
theorem get?_ofFields_eq_some_iff (ordered : fields.Pairwise fun a b => a.index < b.index) {name : String}
    {field : Field} : (ofFields fields).get? name = some field ↔
      field ∈ fields ∧ field.name = name ∧
        ∀ other ∈ fields, other.name = name → other.index ≤ field.index := by
  constructor
  · intro found
    rw [get?_ofFields, List.find?_eq_some_iff_append] at found
    obtain ⟨named, later, earlier, split, others⟩ := found
    obtain rfl : fields = earlier.reverse ++ field :: later.reverse := by
      rw [← List.reverse_reverse fields, split]
      simp
    refine ⟨by simp, beq_iff_eq.mp named, fun other mem same => ?_⟩
    rcases List.mem_append.mp mem with before | here
    · exact Nat.le_of_lt ((List.pairwise_append.mp ordered).2.2 other before field List.mem_cons_self)
    · rcases List.mem_cons.mp here with rfl | behind
      · exact Nat.le_refl _
      · have unnamed := others other (List.mem_reverse.mp behind)
        simp [same] at unnamed
  · rintro ⟨mem, rfl, greatest⟩
    obtain ⟨front, back, rfl⟩ := List.append_of_mem mem
    refine get?_ofFields_of_last fun later behind same => ?_
    have above := (List.pairwise_cons.mp (List.pairwise_append.mp ordered).2.1).1 later behind
    have below := greatest later (by simp [behind]) same
    omega

theorem size_ofFields (fields : List Field) :
    (ofFields fields).size = (fields.map Field.name).dedup.length := by
  have same : ((ofFields fields).fields.map Field.name).Perm (fields.map Field.name).dedup := by
    rw [List.perm_ext_iff_of_nodup (ofFields fields).distinct (List.nodup_dedup _)]
    intro name
    rw [← contains_iff, contains_ofFields, List.mem_dedup, List.mem_map]
  rw [size, ← same.length_eq, List.length_map]

theorem fields_ofFields_of_nodup (distinct : (fields.map Field.name).Nodup) :
    (ofFields fields).fields = fields := by
  suffices general : ∀ form : Form, ((form.fields ++ fields).map Field.name).Nodup →
      (fields.foldl insert form).fields = form.fields ++ fields from general empty distinct
  clear distinct
  induction fields with
  | nil => exact fun form _ => by simp
  | cons field rest ih =>
    intro form distinct
    have fresh : (form.insert field).fields = form.fields ++ [field] := by
      change form.fields.filter (·.name != field.name) ++ [field] = _
      rw [List.filter_eq_self.mpr]
      intro f mem
      rw [bne_iff_ne]
      intro same
      rw [List.map_append, List.map_cons] at distinct
      have apart := (List.nodup_append.mp distinct).2.2
      exact apart f.name (List.mem_map_of_mem mem) field.name List.mem_cons_self same
    have next : ((form.insert field).fields ++ rest).map Field.name |>.Nodup := by
      rw [fresh, ← List.append_cons]
      exact distinct
    rw [List.foldl_cons, ih _ next, fresh, ← List.append_cons]

end FormBody.Form
