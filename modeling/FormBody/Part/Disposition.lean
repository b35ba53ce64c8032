import FormBody.Bytes
import FormBody.Parameter.Basic
import FormBody.Text.Utf8

/-!
The value of a `Content-Disposition` header: which field a part belongs to, and the name of the
file that it holds.
-/
namespace FormBody

structure Disposition where
  name : Option String
  fileName : Option String
  deriving DecidableEq, Repr

namespace Disposition

open Text

def formData : List Char := "form-data".toList

def nameKey : List Char := "name".toList

def fileNameKey : List Char := "filename".toList

def empty : Disposition := ⟨none, none⟩

/-- Takes note of a parameter; what is known already stays. -/
def note (d : Disposition) (p : Parameter) : Disposition :=
  if d.name.isNone && eqIgnoreCase p.key nameKey then
    { d with name := some (String.ofList p.value) }
  else if d.fileName.isNone && eqIgnoreCase p.key fileNameKey then
    { d with fileName := some (String.ofList p.value) }
  else d

/-- Only form data names a field or a file, and a parameter without a value counts for nothing. -/
def ofText (value : List Char) : Disposition :=
  let (token, list) := Parameter.split value
  if eqIgnoreCase token formData then
    ((Parameter.entries list).filter (!·.value.isEmpty)).foldl note empty
  else empty

def ofBytes (value : Bytes) : Disposition := ofText (Utf8.decodeLossy value)

end Disposition
end FormBody
