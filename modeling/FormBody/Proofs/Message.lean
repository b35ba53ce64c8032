import FormBody.Decoder.Basic
import FormBody.Proofs.Text

/-! What the message of an error tells. The words that a message opens with give its cause away, but for the
two causes that put the name of a field in quotes at once: there the words behind the quotes do. Where no
apostrophe stands in such a name the quotes are found again, and the error can be told from its message. -/
namespace FormBody.DecodeError

/-- The name of a field that the message puts in quotes. -/
def quotedName? : DecodeError → Option String
  | .disallowedContentType name _ | .fieldTooLarge _ name => some name
  | _ => none

/-- What a message can open with. -/
inductive Opening where
  | notMultipart
  | noBoundary
  | undecodableContentType
  | quotedField
  | unknownField
  | bodyTooLarge
  | incompleteBody
  | readFailed
  | invalidJson
  deriving DecidableEq, Repr

namespace Opening

def all : List Opening :=
  [.notMultipart, .noBoundary, .undecodableContentType, .quotedField, .unknownField, .bodyTooLarge,
    .incompleteBody, .readFailed, .invalidJson]

theorem mem_all (o : Opening) : o ∈ all := by cases o <;> decide

def words : Opening → String
  | .notMultipart => "Content-Type is not multipart/form-data"
  | .noBoundary => "multipart boundary not found in Content-Type"
  | .undecodableContentType => "failed to decode Content-Type header value: "
  | .quotedField => "field '"
  | .unknownField => "unknown field received: "
  | .bodyTooLarge => "stream size exceeded the maximum limit: "
  | .incompleteBody => "incomplete multipart stream"
  | .readFailed => "stream read failed: "
  | .invalidJson => "failed to decode field data as JSON: "

/-- No opening begins another one. -/
theorem eq_of_begins {a b : Opening} (h : a.words.toList <+: b.words.toList) : a = b := by
  have apart : ∀ a ∈ all, ∀ b ∈ all, a.words.toList <+: b.words.toList → a = b := by decide
  exact apart a a.mem_all b b.mem_all h

/-- A text that opens with such words does so in one way only. -/
theorem eq_of_append {a b : Opening} {s t : String} (h : a.words ++ s = b.words ++ t) : a = b ∧ s = t := by
  have same : a.words.toList ++ s.toList = b.words.toList ++ t.toList := by
    rw [← String.toList_append, h, String.toList_append]
  have begins : b.words.toList <+: a.words.toList ++ s.toList := same ▸ List.prefix_append _ _
  obtain rfl : a = b := by
    rcases List.prefix_or_prefix_of_prefix (List.prefix_append _ _) begins with front | front
    · exact eq_of_begins front
    · exact (eq_of_begins front).symm
  exact ⟨rfl, (String.append_right_inj _).mp h⟩

end Opening

def opening : DecodeError → Opening
  | .notMultipart => .notMultipart
  | .noBoundary => .noBoundary
  | .undecodableContentType _ => .undecodableContentType
  | .disallowedContentType .. | .fieldTooLarge .. => .quotedField
  | .unknownField _ => .unknownField
  | .bodyTooLarge _ => .bodyTooLarge
  | .incompleteBody => .incompleteBody
  | .readFailed _ => .readFailed
  | .invalidJson _ => .invalidJson

def limitText (limit : UInt64) : String := limit.toNat.repr ++ " bytes"

theorem eq_of_limitText {m n : UInt64} (h : limitText m = limitText n) : m = n := by
  have digits : Nat.toDigits 10 m.toNat = Nat.toDigits 10 n.toNat :=
    String.ofList_inj.mp ((String.append_left_inj _).mp h)
  rw [← UInt64.toNat_inj, ← Text.Decimal.ofDigits_toDigits m.toNat, digits,
    Text.Decimal.ofDigits_toDigits]

def detail : DecodeError → String
  | .notMultipart | .noBoundary | .incompleteBody => ""
  | .undecodableContentType reason | .readFailed reason | .invalidJson reason => reason
  | .disallowedContentType name contentType =>
    name ++ ("'" ++ (" declared a disallowed content type: " ++ contentType))
  | .unknownField name => name
  | .fieldTooLarge limit name => name ++ ("'" ++ (" exceeded the maximum size limit: " ++ limitText limit))
  | .bodyTooLarge limit => limitText limit

theorem message_eq (e : DecodeError) : e.message = e.opening.words ++ e.detail := by
  cases e with
  | notMultipart | noBoundary | incompleteBody => exact String.append_empty.symm
  | undecodableContentType | readFailed | invalidJson | unknownField => rfl
  | bodyTooLarge => exact String.append_assoc
  | disallowedContentType name contentType =>
    change "field '" ++ name ++ ("'" ++ " declared a disallowed content type: ") ++ contentType = _
    rw [String.append_assoc, String.append_assoc, String.append_assoc]
    rfl
  | fieldTooLarge limit name =>
    change "field '" ++ name ++ ("'" ++ " exceeded the maximum size limit: ") ++ limit.toNat.repr ++ _ = _
    rw [String.append_assoc, String.append_assoc, String.append_assoc, String.append_assoc]
    rfl

/-- A name in which no apostrophe stands ends in front of the first one. -/
theorem eq_of_quoted {m n s t : String} (first : '\'' ∉ m.toList) (second : '\'' ∉ n.toList)
    (h : m ++ ("'" ++ s) = n ++ ("'" ++ t)) : m = n ∧ s = t := by
  have cut (name rest : String) (free : '\'' ∉ name.toList) :
      (name.toList ++ '\'' :: rest.toList).takeWhile (· != '\'') = name.toList ∧
        (name.toList ++ '\'' :: rest.toList).dropWhile (· != '\'') = '\'' :: rest.toList := by
    refine Text.takeWhile_append_stop (fun c mem => ?_) (by simp)
    exact bne_iff_ne.mpr fun same => free (same ▸ mem)
  have same : m.toList ++ '\'' :: s.toList = n.toList ++ '\'' :: t.toList := by
    simpa using congrArg String.toList h
  obtain ⟨front, back⟩ := cut m s first
  obtain ⟨otherFront, otherBack⟩ := cut n t second
  rw [same] at front back
  exact ⟨String.toList_inj.mp (front.symm.trans otherFront),
    String.toList_inj.mp (List.tail_eq_of_cons_eq (back.symm.trans otherBack))⟩

theorem declared_ne_exceeded (s t : String) :
    " declared a disallowed content type: " ++ s ≠ " exceeded the maximum size limit: " ++ t := by
  intro same
  simpa using congrArg (·.toList.take 2) same

theorem eq_of_message {a b : DecodeError} (first : ∀ name ∈ a.quotedName?, '\'' ∉ name.toList)
    (second : ∀ name ∈ b.quotedName?, '\'' ∉ name.toList) (h : a.message = b.message) : a = b := by
  rw [message_eq, message_eq] at h
  obtain ⟨opening, detail⟩ := Opening.eq_of_append h
  -- Of all pairs of causes only those are left whose messages open with the same words.
  cases a <;> cases b <;> cases opening
  case notMultipart.notMultipart | noBoundary.noBoundary | incompleteBody.incompleteBody => rfl
  case undecodableContentType.undecodableContentType => exact congrArg _ detail
  case readFailed.readFailed => exact congrArg _ detail
  case invalidJson.invalidJson => exact congrArg _ detail
  case unknownField.unknownField => exact congrArg _ detail
  case bodyTooLarge.bodyTooLarge => exact congrArg _ (eq_of_limitText detail)
  case disallowedContentType.disallowedContentType name contentType other otherType =>
    obtain ⟨rfl, rest⟩ := eq_of_quoted (first name rfl) (second other rfl) detail
    rw [(String.append_right_inj _).mp rest]
  case fieldTooLarge.fieldTooLarge limit name otherLimit other =>
    obtain ⟨rfl, rest⟩ := eq_of_quoted (first name rfl) (second other rfl) detail
    rw [eq_of_limitText ((String.append_right_inj _).mp rest)]
  case disallowedContentType.fieldTooLarge name contentType limit other =>
    obtain ⟨-, rest⟩ := eq_of_quoted (first name rfl) (second other rfl) detail
    exact absurd rest (declared_ne_exceeded _ _)
  case fieldTooLarge.disallowedContentType limit name other contentType =>
    obtain ⟨-, rest⟩ := eq_of_quoted (first name rfl) (second other rfl) detail
    exact absurd rest.symm (declared_ne_exceeded _ _)

/-- Errors that are compared by their messages are compared by cause and details, as long as no apostrophe
stands in a name that a message puts in quotes. All else may be any text: content types, reasons, and the
name of an unknown field. When the results of two decoders on two bodies are compared, no rejection is taken
for another one. -/
theorem same_iff_eq {a b : DecodeError} (first : ∀ name ∈ a.quotedName?, '\'' ∉ name.toList)
    (second : ∀ name ∈ b.quotedName?, '\'' ∉ name.toList) :
    (a.same b ↔ a = b) ∧
    ∀ (c d : Decoder) (x y : Bytes), (c.decode x).result = .error a → (d.decode y).result = .error b →
      (Decoder.sameResult (c.decode x).result (d.decode y).result ↔ a = b) := by
  have compared : a.same b ↔ a = b := by
    rw [same, beq_iff_eq]
    exact ⟨eq_of_message first second, congrArg message⟩
  refine ⟨compared, fun c d x y rejected refused => ?_⟩
  rw [rejected, refused]
  exact compared

def twoBytes : Bytes := Text.Utf8.encode "--X\r\nContent-Disposition: form-data; name=a\r\n\r\n22".toList

def limitedTo (limit : UInt64) : Decoder :=
  ⟨"X", { Policy.lenient with sizes := SizeLimits.unlimited.setFor "a" limit }⟩

theorem same_iff_eq_twoBytes :
    '\'' ∉ "a".toList ∧
      ((limitedTo 0).decode twoBytes).result = .error (.fieldTooLarge 0 "a") ∧
      ((limitedTo 1).decode twoBytes).result = .error (.fieldTooLarge 1 "a") ∧
      Decoder.sameResult ((limitedTo 0).decode twoBytes).result ((limitedTo 1).decode twoBytes).result =
        false := by
  have plain : '\'' ∉ "a".toList := by decide
  have empty : ((limitedTo 0).decode twoBytes).result = .error (.fieldTooLarge 0 "a") := by decide +kernel
  have single : ((limitedTo 1).decode twoBytes).result = .error (.fieldTooLarge 1 "a") := by decide +kernel
  obtain ⟨_, results⟩ := same_iff_eq (a := .fieldTooLarge 0 "a") (b := .fieldTooLarge 1 "a")
    (by decide) (by decide)
  refine ⟨plain, empty, single, Bool.eq_false_iff.mpr fun same => ?_⟩
  exact absurd ((results _ _ _ _ empty single).mp same) (by decide)

/-- Where an apostrophe may stand in a name, its end cannot be found again. -/
example : (disallowedContentType "a" "b' declared a disallowed content type: c").same
    (disallowedContentType "a' declared a disallowed content type: b" "c") := by decide

end FormBody.DecodeError
