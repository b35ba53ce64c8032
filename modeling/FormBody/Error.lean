/-!
Why a body, or a request for it, is rejected, and the one message for each cause.
-/
namespace FormBody

inductive DecodeError where
  | notMultipart
  | noBoundary
  | undecodableContentType (reason : String)
  | disallowedContentType (fieldName contentType : String)
  | unknownField (fieldName : String)
  | fieldTooLarge (limit : UInt64) (fieldName : String)
  | bodyTooLarge (limit : UInt64)
  | incompleteBody
  | readFailed (reason : String)
  | invalidJson (reason : String)
  deriving DecidableEq, Repr

namespace DecodeError

def message : DecodeError → String
  | .notMultipart => "Content-Type is not multipart/form-data"
  | .noBoundary => "multipart boundary not found in Content-Type"
  | .undecodableContentType reason => "failed to decode Content-Type header value: " ++ reason
  | .disallowedContentType fieldName contentType =>
    "field '" ++ fieldName ++ "' declared a disallowed content type: " ++ contentType
  | .unknownField fieldName => "unknown field received: " ++ fieldName
  | .fieldTooLarge limit fieldName =>
    "field '" ++ fieldName ++ "' exceeded the maximum size limit: " ++ limit.toNat.repr ++ " bytes"
  | .bodyTooLarge limit =>
    "stream size exceeded the maximum limit: " ++ limit.toNat.repr ++ " bytes"
  | .incompleteBody => "incomplete multipart stream"
  | .readFailed reason => "stream read failed: " ++ reason
  | .invalidJson reason => "failed to decode field data as JSON: " ++ reason

def same (a b : DecodeError) : Bool := a.message == b.message

end DecodeError
end FormBody
