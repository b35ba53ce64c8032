import FormBody.Error

/-!
What a decoder reports while it works, and results that carry such a report.
-/
namespace FormBody

inductive Event where
  | bodySize (size : Nat)
  | endOfBody
  | bodyExhausted
  | endOfHeaders
  | fieldName (name : String)
  | declaredLength (length : Option UInt64)
  | disallowedContentType (contentType : String)
  | captured (fieldName : String) (size : Nat) (more : Bool)
  | rejected (error : DecodeError)
  deriving DecidableEq, Repr

namespace Event

inductive Level where
  | trace
  | debug
  | warn
  deriving DecidableEq, Repr

def level : Event → Level
  | .declaredLength _ | .captured .. => .debug
  | .rejected _ => .warn
  | _ => .trace

def message : Event → String
  | .bodySize size => "total size of incoming body: " ++ size.repr ++ " bytes"
  | .endOfBody => "end of multipart body"
  | .bodyExhausted => "body exhausted before the closing boundary"
  | .endOfHeaders => "end of field headers"
  | .fieldName name => "field name: " ++ name
  | .declaredLength (some length) =>
    "declared content length: Some(" ++ length.toNat.repr ++ ")"
  | .declaredLength none => "declared content length: None"
  | .disallowedContentType contentType => "disallowed content type: " ++ contentType
  | .captured name size more =>
    "captured field '" ++ name ++ "': " ++ size.repr ++ " bytes, more = " ++
      (if more then "true" else "false")
  | .rejected error => "rejecting multipart body: " ++ error.message

end Event

/-- A result and what was reported on the way to it. -/
structure Logged (α : Type) where
  events : List Event
  result : Except DecodeError α

namespace Logged

variable {α β : Type}

/-- Goes on with a success; an error stops all further work. -/
def andThen (first : Logged α) (next : α → Logged β) : Logged β :=
  match first.result with
  | .ok a =>
    let rest := next a
    ⟨first.events ++ rest.events, rest.result⟩
  | .error e => ⟨first.events, .error e⟩

theorem result_andThen (first : Logged α) (next : α → Logged β) :
    (first.andThen next).result = first.result.bind fun a => (next a).result := by
  unfold andThen
  split <;> simp [*, Except.bind]

end Logged
end FormBody
