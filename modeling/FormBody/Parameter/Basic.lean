import FormBody.Parameter.Quoted
import FormBody.Search
import FormBody.Text.Blank
import FormBody.Text.Case

/-!
Parameter lists such as `form-data; name="field"; filename="a.bin"`: a leading token, then entries
that are separated by semicolons. An entry is a key alone or a key and a value, the value bare or
quoted. Malformed lists are read without complaint; an entry without a key is passed over.
-/
namespace FormBody

structure Parameter where
  key : List Char
  value : List Char
  deriving DecidableEq, Repr

namespace Parameter

open Text

/-- The leading token of a header value, and the text of the list behind it. -/
def split (value : List Char) : List Char × List Char :=
  (trim (value.takeWhile (· != ';')), (value.dropWhile (· != ';')).drop 1)

def isSeparator (c : Char) : Bool := c == ';' || isAsciiBlank c

def endsKey (c : Char) : Bool := c == '=' || c == ';'

/-- Reads the value behind an `=`. A bare value ends at the next semicolon; behind the closing
quote of a quoted one the next entry begins at once. -/
def readValue (text : List Char) : List Char × List Char :=
  match trimLeft text with
  | '"' :: quoted => Quoted.read quoted
  | bare => (trimRight (bare.takeWhile (· != ';')), bare.dropWhile (· != ';'))

/-- Reads the entry at the start of the text. A key without an `=` has the empty value. -/
def readEntry (text : List Char) : Parameter × List Char :=
  let key := trim (text.takeWhile (!endsKey ·))
  match text.dropWhile (!endsKey ·) with
  | '=' :: rest =>
    let (value, rest) := readValue rest
    (⟨key, value⟩, rest)
  | rest => (⟨key, []⟩, rest)

theorem length_readValue_le (text : List Char) : (readValue text).2.length ≤ text.length := by
  have trimmed := length_dropWhile_le isBlank text
  unfold readValue
  split
  · next quoted h =>
    have := Quoted.length_read_le quoted
    simp only [trimLeft] at h
    simp only [h, List.length_cons] at trimmed
    omega
  · next bare _ =>
    exact Nat.le_trans (length_dropWhile_le _ _) trimmed

theorem length_readEntry_lt {c : Char} {rest : List Char} (start : c ≠ ';') :
    (readEntry (c :: rest)).2.length < (c :: rest).length := by
  unfold readEntry
  by_cases equals : c = '='
  · subst equals
    have := length_readValue_le rest
    simp only [List.dropWhile, endsKey, beq_self_eq_true, Bool.true_or, Bool.not_true,
      List.length_cons]
    omega
  · have key : endsKey c = false := by simp [endsKey, start, equals]
    have dropped := length_dropWhile_le (!endsKey ·) rest
    simp only [List.dropWhile, key, Bool.not_false, List.length_cons]
    split
    · next tail h =>
      have := length_readValue_le tail
      simp only [h, List.length_cons] at dropped
      dsimp only
      omega
    · dsimp only
      omega

theorem length_readEntry_lt_of_dropWhile {text rest : List Char} {c : Char}
    (skipped : text.dropWhile isSeparator = c :: rest) :
    (readEntry (c :: rest)).2.length < text.length := by
  have start : c ≠ ';' := by
    rintro rfl
    have kept := List.head?_dropWhile_not isSeparator text
    simp [skipped, isSeparator] at kept
  have shorter := length_dropWhile_le isSeparator text
  rw [skipped] at shorter
  exact Nat.lt_of_lt_of_le (length_readEntry_lt start) shorter

/-- The entries of a list in order, those without a key left out. -/
def entries (text : List Char) : List Parameter :=
  match _ : text.dropWhile isSeparator with
  | [] => []
  | c :: rest =>
    let entry := readEntry (c :: rest)
    if entry.1.key.isEmpty then entries entry.2 else entry.1 :: entries entry.2
termination_by text.length
decreasing_by all_goals exact length_readEntry_lt_of_dropWhile ‹_›

/-- The value of the first entry with this key, letter case aside, that has a value at all. -/
def find? (key : List Char) (parameters : List Parameter) : Option (List Char) :=
  ((parameters.filter fun p => eqIgnoreCase p.key key).map (·.value)).find? (!·.isEmpty)

end Parameter
end FormBody
