import FormBody.Bytes
import FormBody.MediaType
import FormBody.Text.Utf8

/-!
What a decoder accepts: limits on the size of the body and of each field, the field names and the
content types allowed, and whether the closing marker must be there.
-/
namespace FormBody

def noLimit : UInt64 := 18446744073709551615

structure SizeLimits where
  wholeBody : UInt64
  perField : UInt64
  /-- Limits for fields of certain names, at most one for a name. -/
  overrides : List (String × UInt64)
  deriving DecidableEq, Repr

namespace SizeLimits

def unlimited : SizeLimits := ⟨noLimit, noLimit, []⟩

/-- Sets the limit for one name; the last setting for a name counts. -/
def setFor (name : String) (limit : UInt64) (limits : SizeLimits) : SizeLimits :=
  { limits with overrides := (name, limit) :: limits.overrides.filter (·.1 != name) }

def limitFor (limits : SizeLimits) (name : String) : UInt64 :=
  (limits.overrides.lookup name).getD limits.perField

theorem eq_limitFor_iff {limits : SizeLimits} {name : String} {limit : UInt64} :
    limit = limits.limitFor name ↔ limits.overrides.lookup name = some limit ∨
      limits.overrides.lookup name = none ∧ limit = limits.perField := by
  rw [limitFor]
  cases limits.overrides.lookup name <;> simp [eq_comm]

theorem lookup_filter_ne {name other : String} (different : other ≠ name) (overrides : List (String × UInt64)) :
    (overrides.filter (·.1 != name)).lookup other = overrides.lookup other := by
  induction overrides with
  | nil => rfl
  | cons entry rest ih =>
    by_cases replaced : entry.1 = name
    · have passed : (other == entry.1) = false := by simp [replaced, different]
      rw [List.filter_cons_of_neg (by simp [replaced]), ih, List.lookup_cons, passed]
    · rw [List.filter_cons_of_pos (by simp [replaced]), List.lookup_cons, List.lookup_cons, ih]

theorem limitFor_setFor (name other : String) (limit : UInt64) (limits : SizeLimits) :
    (limits.setFor name limit).limitFor other = if other = name then limit else limits.limitFor other := by
  rw [limitFor, setFor, List.lookup_cons]
  by_cases same : other = name
  · simp [same]
  · have passed : (other == name) = false := beq_eq_false_iff_ne.mpr same
    simp only [passed, if_neg same, limitFor, lookup_filter_ne same]

end SizeLimits

structure Policy where
  sizes : SizeLimits
  /-- Absent if every name is allowed. -/
  allowedNames : Option (List String)
  allowedTypes : List MediaType
  terminatorRequired : Bool
  deriving DecidableEq, Repr

namespace Policy

def lenient : Policy := ⟨.unlimited, none, [.octetStream], false⟩

def allowsName (policy : Policy) (name : String) : Bool :=
  match policy.allowedNames with
  | some names => names.contains name
  | none => true

theorem allowsName_iff {policy : Policy} {name : String} :
    policy.allowsName name ↔ ∀ names ∈ policy.allowedNames, name ∈ names := by
  rw [allowsName]
  cases policy.allowedNames <;> simp

theorem allowsName_eq_false_iff {policy : Policy} {name : String} :
    policy.allowsName name = false ↔ ∃ names ∈ policy.allowedNames, name ∉ names := by
  rw [allowsName]
  cases policy.allowedNames <;> simp

/-- A declared content type passes if the essence of an allowed one occurs in it, letter case
aside. -/
def allowsType (policy : Policy) (declared : Bytes) : Bool :=
  policy.allowedTypes.any fun allowed =>
    Bytes.containsIgnoreCase declared (Text.Utf8.encode allowed.essence.toList)

end Policy
end FormBody
