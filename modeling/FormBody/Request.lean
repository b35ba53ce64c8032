import FormBody.Boundary
import FormBody.Text.Token

/-!
The headers of a request, as far as they tell how its body is to be decoded.
-/
namespace FormBody

namespace Request

def maxNameLength : Nat := 65535

def isName (name : Bytes) : Bool :=
  !name.isEmpty && name.length ≤ maxNameLength &&
    name.all fun b => Text.isToken (Char.ofNat b.toNat)

def isVisible (b : UInt8) : Bool := 32 ≤ b && b < 127

def isValue (value : Bytes) : Bool := value.all fun b => b == 9 || (32 ≤ b && b != 127)

/-- A header with its name in lower case. -/
structure Header where
  name : Bytes
  value : Bytes
  deriving DecidableEq, Repr

def Header.make? (name value : Bytes) : Option Header :=
  if isName name && isValue value then some ⟨Bytes.lower name, value⟩ else none

def contentType : Bytes := Text.Utf8.encode "content-type".toList

def visibleText? (value : Bytes) : Option (List Char) :=
  if value.all fun b => b == 9 || isVisible b then some (value.map fun b => Char.ofNat b.toNat)
  else none

/-- The boundary that the first content type among the headers declares. It must be a multipart
form from its first character on. -/
def boundary (headers : List Header) : Except DecodeError String :=
  match headers.find? (·.name == contentType) with
  | none => .error .notMultipart
  | some header =>
    match visibleText? header.value with
    | none => .error (.undecodableContentType "failed to convert header to a str")
    | some text =>
      let start := text.take Boundary.multipartFormData.length
      if Text.eqIgnoreCase start Boundary.multipartFormData then Boundary.ofContentType text
      else .error .notMultipart

end Request
end FormBody
