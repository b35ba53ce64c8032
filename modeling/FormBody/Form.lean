import FormBody.Bytes
import FormBody.MediaType

/-!
Decoded forms: one field for each name, in the order in which the parts that gave them stood in the
body. A later part replaces an earlier one of its name.
-/
namespace FormBody

structure Field where
  name : String
  fileName : Option String
  contentType : Option MediaType
  /-- The length that the part declared, whatever its content. -/
  contentLength : Option UInt64
  /-- The number of parts in front of this one. -/
  index : Nat
  content : Bytes
  deriving DecidableEq, Repr

/-- Equality that ignores letter case in the media type. -/
def Field.same (a b : Field) : Bool :=
  a.name == b.name && a.fileName == b.fileName && a.contentLength == b.contentLength &&
    a.index == b.index && a.content == b.content &&
    match a.contentType, b.contentType with
    | some s, some t => s.same t
    | none, none => true
    | _, _ => false

structure Form where
  fields : List Field
  distinct : (fields.map Field.name).Nodup
  deriving DecidableEq

namespace Form

def empty : Form := ⟨[], List.nodup_nil⟩

def erase (form : Form) (name : String) : Form :=
  ⟨form.fields.filter (·.name != name), form.distinct.sublist (List.filter_sublist.map _)⟩

/-- Puts a field in the place of the one with its name, behind all others. -/
def insert (form : Form) (field : Field) : Form where
  fields := (form.erase field.name).fields ++ [field]
  distinct := by
    rw [List.map_append, List.nodup_append]
    refine ⟨(form.erase field.name).distinct, by simp, ?_⟩
    simp only [erase, List.mem_map, List.mem_filter, List.map_cons, List.map_nil,
      List.mem_singleton]
    rintro _ ⟨x, ⟨_, other⟩, rfl⟩ _ rfl
    simpa using other

def ofFields (fields : List Field) : Form := fields.foldl insert empty

def size (form : Form) : Nat := form.fields.length

def isEmpty (form : Form) : Bool := form.fields.isEmpty

def get? (form : Form) (name : String) : Option Field := form.fields.find? (·.name == name)

def contains (form : Form) (name : String) : Bool := (form.get? name).isSome

def sorted (form : Form) : List Field :=
  form.fields.mergeSort fun a b => decide (a.name ≤ b.name)

/-- Two forms are the same if they have the same names, and the same field under each. -/
def same (a b : Form) : Bool :=
  a.size == b.size && (a.sorted.zip b.sorted).all fun (x, y) => x.same y

end Form
end FormBody
