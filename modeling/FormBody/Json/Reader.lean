import FormBody.Json.Token
import FormBody.Text.Utf8

/-!
Reading JSON. The tokens are taken one after the other by a machine that keeps the containers which
are still open, innermost first; a text is accepted if the machine ends with one complete value.
-/
namespace FormBody.Json

/-- A container that is open because a value inside it is being read. Its contents so far stand
latest first. -/
inductive Frame where
  | array (items : List Value)
  | object (members : List (String × Value)) (key : String)

/-- What may come next. -/
inductive Expected where
  | value
  | firstItem
  | firstKey
  | key (members : List (String × Value))
  | colon (members : List (String × Value)) (key : String)
  | itemEnd (items : List Value)
  | memberEnd (members : List (String × Value))
  | nothing (value : Value)

structure Reader where
  frames : List Frame
  expected : Expected

namespace Reader

def initial : Reader := ⟨[], .value⟩

def maxDepth : Nat := 127

def complete (frames : List Frame) (value : Value) : Reader :=
  match frames with
  | [] => ⟨[], .nothing value⟩
  | .array items :: outer => ⟨outer, .itemEnd (value :: items)⟩
  | .object members key :: outer => ⟨outer, .memberEnd ((key, value) :: members)⟩

def begin? (frames : List Frame) : Token → Option Reader
  | .scalar value => some (complete frames value)
  | .string value => some (complete frames (.string value))
  | .openArray => if frames.length < maxDepth then some ⟨frames, .firstItem⟩ else none
  | .openObject => if frames.length < maxDepth then some ⟨frames, .firstKey⟩ else none
  | _ => none

def take? (r : Reader) (token : Token) : Option Reader :=
  match r.expected, token with
  | .value, token => begin? r.frames token
  | .firstItem, .closeArray => some (complete r.frames (.array []))
  | .firstItem, token => begin? (.array [] :: r.frames) token
  | .firstKey, .closeObject => some (complete r.frames (.ofMembers []))
  | .firstKey, .string key => some ⟨r.frames, .colon [] key⟩
  | .key members, .string key => some ⟨r.frames, .colon members key⟩
  | .colon members key, .colon => some ⟨.object members key :: r.frames, .value⟩
  | .itemEnd items, .comma => some ⟨.array items :: r.frames, .value⟩
  | .itemEnd items, .closeArray => some (complete r.frames (.array items.reverse))
  | .memberEnd members, .comma => some ⟨r.frames, .key members⟩
  | .memberEnd members, .closeObject => some (complete r.frames (.ofMembers members.reverse))
  | _, _ => none

def result? (r : Reader) : Option Value :=
  match r.expected with
  | .nothing value => some value
  | _ => none

end Reader

def parse? (text : List Char) : Option Value :=
  (Token.list? text).bind fun tokens =>
    (tokens.foldlM Reader.take? .initial).bind Reader.result?

def ofBytes? (bytes : Bytes) : Option Value := (Text.Utf8.decode? bytes).bind parse?

end FormBody.Json
