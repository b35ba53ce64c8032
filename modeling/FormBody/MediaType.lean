import FormBody.Search
import FormBody.Text.Case
import FormBody.Text.Token

/-!
Media types such as `text/plain; charset=utf-8`. The essence is the type and the subtype. Letter
case carries no meaning in it, in the names of parameters and in the value of a charset, and these
are kept in lower case; all else is kept as written.
-/
namespace FormBody

structure MediaType where
  essence : String
  /-- Names and values, the values without their quotes. -/
  parameters : List (String × String)
  /-- What follows the essence in the text; empty if there are no parameters. -/
  tail : String
  deriving DecidableEq, Repr

namespace MediaType

open Text

def octetStream : MediaType := ⟨"application/octet-stream", [], ""⟩

def text (m : MediaType) : String := m.essence ++ m.tail

/-- The value of the first parameter with this name, which is given in lower case. -/
def parameter? (m : MediaType) (name : String) : Option String := m.parameters.lookup name

/-- Equality up to ASCII letter case of two types of which at least one has no parameters. -/
def same (a b : MediaType) : Bool := eqIgnoreCase a.text.toList b.text.toList

/-- What stands behind a value: nothing, or a semicolon and more text. -/
def continue? : List Char → Option (Option (List Char))
  | [] => some none
  | ';' :: rest => some (some rest)
  | _ => none

/-- A parameter's value: alone, and as it is written. -/
structure WrittenValue where
  value : List Char
  written : List Char

/-- Reads a parameter's value and what follows it. A quoted value ends at the next quote that is
not its first character, and has no escapes. A bare value is a token; it may be empty only at the
end of the text. -/
def readValue? : List Char → Option (WrittenValue × Option (List Char))
  | ['"'] => none
  | '"' :: c :: tail =>
    let value := c :: tail.takeWhile (· != '"')
    match tail.dropWhile (· != '"') with
    | '"' :: rest =>
      if value.any isControl then none
      else (continue? (rest.dropWhile (· == ' '))).map fun next =>
        (⟨value, '"' :: value ++ '"' :: rest.takeWhile (· == ' ')⟩, next)
    | _ => none
  | text =>
    let value := text.takeWhile isToken
    match continue? (text.dropWhile isToken) with
    | some none => some (⟨value, value⟩, none)
    | some (some rest) => if value.isEmpty then none else some (⟨value, value⟩, some rest)
    | none => none

theorem length_dropWhile_lt_of_eq_cons {p : Char → Bool} {text rest : List Char} {c : Char}
    (h : text.dropWhile p = c :: rest) : rest.length < text.length := by
  have shorter := length_dropWhile_le p text
  simp only [h, List.length_cons] at shorter
  omega

theorem length_of_continue? {text rest : List Char}
    (h : continue? text = some (some rest)) : rest.length < text.length := by
  unfold continue? at h
  split at h
  · cases h
  · cases h; simp
  · cases h

theorem length_of_readValue? {text rest : List Char} {value : WrittenValue}
    (h : readValue? text = some (value, some rest)) : rest.length < text.length := by
  unfold readValue? at h
  split at h
  · cases h
  · next c tail =>
    dsimp only at h
    split at h
    · next after quote =>
      split at h
      · cases h
      · obtain ⟨next, hn, he⟩ := Option.map_eq_some_iff.mp h
        cases he
        have first := length_dropWhile_lt_of_eq_cons quote
        have second := length_of_continue? hn
        have third := length_dropWhile_le (· == ' ') after
        simp only [List.length_cons]
        omega
    · cases h
  · dsimp only at h
    split at h
    · cases h
    · next rest' hn =>
      split at h
      · cases h
      · cases h
        have first := length_of_continue? hn
        have second := length_dropWhile_le isToken text
        omega
    · cases h

def charsetName : List Char := "charset".toList

/-- Reads the parameters behind a semicolon, together with their text in its kept form. Behind
the last semicolon there may be nothing but spaces. -/
def readParameters? (text : List Char) : Option (List (String × String) × List Char) :=
  let spaces := text.takeWhile (· == ' ')
  let body := text.dropWhile (· == ' ')
  if body.isEmpty then some ([], spaces)
  else
    let name := lower (body.takeWhile isToken)
    match _ : body.dropWhile isToken with
    | '=' :: rest =>
      if name.isEmpty then none
      else
        match _ : readValue? rest with
        | none => none
        | some (⟨value, writtenValue⟩, next) =>
          let keep := if name == charsetName then lower else id
          let parameter := (String.ofList name, String.ofList (keep value))
          let written := spaces ++ name ++ '=' :: keep writtenValue
          match next with
          | none => some ([parameter], written)
          | some more =>
            (readParameters? more).map fun (others, tail) =>
              (parameter :: others, written ++ ';' :: tail)
    | _ => none
termination_by text.length
decreasing_by
  have first : body.length ≤ text.length := length_dropWhile_le _ _
  have second := length_dropWhile_lt_of_eq_cons ‹_›
  have third := length_of_readValue? ‹_›
  omega

def parse? (text : List Char) : Option MediaType :=
  let type := text.takeWhile isToken
  match text.dropWhile isToken with
  | '/' :: rest =>
    if type.isEmpty then none
    else
      let subtype := rest.takeWhile isToken
      let essence := String.ofList (lower (type ++ '/' :: subtype))
      match rest.dropWhile isToken with
      | [] => some ⟨essence, [], ""⟩
      | ';' :: more =>
        if subtype.isEmpty then none
        else (readParameters? more).map fun (parameters, tail) =>
          ⟨essence, parameters, if parameters.isEmpty then "" else String.ofList (';' :: tail)⟩
      | _ => none
  | _ => none

end MediaType
end FormBody
