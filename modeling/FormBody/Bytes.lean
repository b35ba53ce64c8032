import FormBody.Search

/-!
Byte strings: the line break that structures a body, and comparison that ignores ASCII case.
-/
namespace FormBody

abbrev Bytes := List UInt8

namespace Bytes

def crlf : Bytes := [13, 10]

@[simp] theorem length_crlf : crlf.length = 2 := rfl

def lowerByte (b : UInt8) : UInt8 :=
  if 65 ≤ b && b ≤ 90 then b + 32 else b

def lower (bytes : Bytes) : Bytes := bytes.map lowerByte

@[simp] theorem length_lower (bytes : Bytes) : (lower bytes).length = bytes.length := by
  simp [lower]

def eqIgnoreCase (a b : Bytes) : Bool := lower a == lower b

def containsIgnoreCase (haystack needle : Bytes) : Bool :=
  (index? (lower needle) (lower haystack)).isSome

end Bytes
end FormBody
