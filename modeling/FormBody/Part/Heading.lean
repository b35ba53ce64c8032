import FormBody.Event
import FormBody.Part.Disposition
import FormBody.Part.Header
import FormBody.Policy

/-!
What the header lines of a part have said about it. The field name outlives the part: a part that
gives none belongs to the field of the part before it.
-/
namespace FormBody

structure Heading where
  name : String
  fileName : Option String
  contentType : Option MediaType
  contentLength : Option UInt64
  deriving DecidableEq, Repr

namespace Heading

open Text

/-- The heading of a part about which only an inherited field name is known. -/
def ofName (name : String) : Heading := ⟨name, none, none, none⟩

def renew (h : Heading) : Heading := ofName h.name

/-- A disposition gives the name if it has one, and the file name in any case. -/
def noteDisposition (h : Heading) (d : Disposition) : Heading :=
  { h with name := d.name.getD h.name, fileName := d.fileName }

def mediaType? (value : Bytes) : Option MediaType :=
  (Utf8.decode? value).bind fun text => MediaType.parse? (trim text)

def note (policy : Policy) (h : Heading) : PartHeader → Logged Heading
  | .disposition value =>
    let d := Disposition.ofBytes value
    ⟨d.name.toList.map .fieldName, .ok (h.noteDisposition d)⟩
  | .length value =>
    let length := PartHeader.declaredLength? value
    ⟨[.declaredLength length], .ok { h with contentLength := length }⟩
  | .type value =>
    if policy.allowsType value then ⟨[], .ok { h with contentType := mediaType? value }⟩
    else
      let contentType := String.ofList (trim (Utf8.decodeLossy value))
      ⟨[.disallowedContentType contentType], .error (.disallowedContentType h.name contentType)⟩

def noteLine (policy : Policy) (h : Heading) (line : Bytes) : Logged Heading :=
  match PartHeader.ofLine? line with
  | some header => note policy h header
  | none => ⟨[], .ok h⟩

/-- Takes note of the lines in order, up to the first that is rejected. -/
def noteLines (policy : Policy) : Heading → List Bytes → Logged Heading
  | h, [] => ⟨[], .ok h⟩
  | h, line :: rest => (noteLine policy h line).andThen fun next => noteLines policy next rest

end Heading
end FormBody
