import FormBody.Error
import FormBody.Form
import FormBody.Json.Reader
import FormBody.Text.Charset

/-!
The content of a field, read as text or as JSON.
-/
namespace FormBody.Field

open Text

/-- The charset for a field's content: the one that its content type names, and `fallback` only if
it names none. A label that is not known means UTF-8. -/
def charset (field : Field) (fallback : String) : Charset :=
  let declared := field.contentType.bind (·.parameter? "charset")
  (Charset.ofLabel? (declared.getD fallback).toList).getD .utf8

def textOr (field : Field) (fallback : String) : String :=
  String.ofList ((field.charset fallback).decode field.content)

def text (field : Field) : String := field.textOr "utf-8"

def json (field : Field) : Except DecodeError Json.Value :=
  match Json.ofBytes? field.content with
  | some value => .ok value
  | none => .error (.invalidJson "the content is not a JSON text")

end FormBody.Field
