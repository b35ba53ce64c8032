import FormBody.Json.Number
import FormBody.Json.Quoted

/-!
The tokens of a JSON text. Blanks between them mean nothing, and where two tokens may stand side by
side is left to the grammar.
-/
namespace FormBody.Json

inductive Token where
  | scalar (value : Value)
  | string (value : String)
  | openArray
  | closeArray
  | openObject
  | closeObject
  | comma
  | colon

namespace Token

def isBlank (c : Char) : Bool := c == ' ' || c == '\t' || c == '\n' || c == '\r'

def mark? : Char → Option Token
  | '[' => some openArray
  | ']' => some closeArray
  | '\x7b' => some openObject
  | '\x7d' => some closeObject
  | ',' => some comma
  | ':' => some colon
  | _ => none

def words : List (List Char × Value) :=
  [("true".toList, .bool true), ("false".toList, .bool false), ("null".toList, .null)]

def readWord? (text : List Char) : Option (Token × List Char) :=
  (words.find? fun entry => entry.1.isPrefixOf text).map fun (word, value) =>
    (scalar value, text.drop word.length)

def readNumber? (text : List Char) : Option (Token × List Char) :=
  (Numeral.read? text).bind fun (numeral, rest) =>
    numeral.toValue?.map fun value => (scalar value, rest)

def read? (c : Char) (rest : List Char) : Option (Token × List Char) :=
  match mark? c with
  | some token => some (token, rest)
  | none =>
    if c == '"' then (Quoted.read? rest).map fun (value, tail) => (string value, tail)
    else if c.isAlpha then readWord? (c :: rest)
    else readNumber? (c :: rest)

theorem length_of_readWord? {text rest : List Char} {token : Token}
    (h : readWord? text = some (token, rest)) : rest.length < text.length := by
  obtain ⟨⟨word, value⟩, found, he⟩ := Option.map_eq_some_iff.mp h
  cases he
  have start : word.isPrefixOf text = true := by simpa using List.find?_some found
  have fits := (List.isPrefixOf_iff_prefix.mp start).length_le
  have long : 0 < word.length := by
    have := List.mem_of_find?_eq_some found
    simp only [words, List.mem_cons, Prod.mk.injEq, List.not_mem_nil, or_false] at this
    rcases this with ⟨rfl, _⟩ | ⟨rfl, _⟩ | ⟨rfl, _⟩ <;> decide
  simp only [List.length_drop]
  omega

theorem length_of_read? {c : Char} {rest tail : List Char} {token : Token}
    (h : read? c rest = some (token, tail)) : tail.length < rest.length + 1 := by
  unfold read? at h
  split at h
  · cases h; omega
  · split at h
    · obtain ⟨⟨value, after⟩, hq, he⟩ := Option.map_eq_some_iff.mp h
      cases he
      have := Quoted.length_of_read? hq
      omega
    · split at h
      · exact length_of_readWord? h
      · obtain ⟨⟨numeral, after⟩, hn, h⟩ := Option.bind_eq_some_iff.mp h
        obtain ⟨value, _, he⟩ := Option.map_eq_some_iff.mp h
        cases he
        exact Numeral.length_of_read? hn

/-- All tokens of a text, if it is made of tokens only. -/
def list? : List Char → Option (List Token)
  | [] => some []
  | c :: rest =>
    if isBlank c then list? rest
    else
      match _ : read? c rest with
      | some (token, tail) => (list? tail).map (token :: ·)
      | none => none
termination_by text => text.length
decreasing_by
  · simp
  · exact length_of_read? ‹_›

end Token
end FormBody.Json
