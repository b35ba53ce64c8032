import FormBody.Bytes
import FormBody.Error
import FormBody.Part.Disposition

/-!
The boundary of a body: where a request declares it, and the markers that it gives.
-/
namespace FormBody

/-- The byte strings that stand at the start of a line between parts and behind the last one. -/
structure Markers where
  delimiter : Bytes
  terminator : Bytes
  deriving DecidableEq, Repr

def Markers.ofBoundary (boundary : String) : Markers :=
  let dashes := Text.Utf8.encode ['-', '-']
  let delimiter := dashes ++ Text.Utf8.encode boundary.toList
  ⟨delimiter, delimiter ++ dashes⟩

namespace Boundary

def multipartFormData : List Char := "multipart/form-data".toList

def boundaryKey : List Char := "boundary".toList

/-- The boundary in the parameters behind the first `form-data` of a content type. -/
def ofContentType (contentType : List Char) : Except DecodeError String :=
  match index? Disposition.formData (Text.lower contentType) with
  | none => .error .notMultipart
  | some i =>
    let (_, list) := Parameter.split (contentType.drop i)
    match Parameter.find? boundaryKey (Parameter.entries list) with
    | none => .error .noBoundary
    | some boundary => .ok (String.ofList boundary)

end Boundary
end FormBody
