import FormBody.Json.Value
import FormBody.Search
import FormBody.Text.Decimal

/-!
JSON numbers. One without fraction and exponent is an integer if it fits into 64 bits, signed if it
is negative and unsigned if not. Every other number, minus zero among them, is the nearest double;
one that is too large for a finite double is refused.
-/
namespace FormBody.Json

structure Numeral where
  negative : Bool
  whole : List Char
  fraction : Option (List Char)
  /-- The sign and the digits of the exponent. -/
  exponent : Option (Bool × List Char)

namespace Numeral

def digits? (text : List Char) : Option (List Char × List Char) :=
  let digits := text.takeWhile Char.isDigit
  if digits.isEmpty then none else some (digits, text.dropWhile Char.isDigit)

/-- The part in front of the point has no leading zero. -/
def readWhole? (text : List Char) : Option (List Char × List Char) :=
  match text with
  | '0' :: rest => some (['0'], rest)
  | _ => digits? text

def readFraction? : List Char → Option (Option (List Char) × List Char)
  | '.' :: rest => (digits? rest).map fun (digits, rest) => (some digits, rest)
  | text => some (none, text)

def readExponentSign : List Char → Bool × List Char
  | '-' :: rest => (true, rest)
  | '+' :: rest => (false, rest)
  | text => (false, text)

def readExponent? : List Char → Option (Option (Bool × List Char) × List Char)
  | [] => some (none, [])
  | c :: rest =>
    if c == 'e' || c == 'E' then
      (digits? (readExponentSign rest).2).map fun (digits, tail) =>
        (some ((readExponentSign rest).1, digits), tail)
    else some (none, c :: rest)

def readSign : List Char → Bool × List Char
  | '-' :: rest => (true, rest)
  | text => (false, text)

def read? (text : List Char) : Option (Numeral × List Char) :=
  (readWhole? (readSign text).2).bind fun (whole, rest) =>
    (readFraction? rest).bind fun (fraction, rest) =>
      (readExponent? rest).map fun (exponent, rest) =>
        (⟨(readSign text).1, whole, fraction, exponent⟩, rest)

theorem length_of_digits? {text digits rest : List Char}
    (h : digits? text = some (digits, rest)) : rest.length < text.length := by
  unfold digits? at h
  dsimp only at h
  split at h
  · cases h
  · next some_digit =>
    cases h
    cases text with
    | nil => simp at some_digit
    | cons c rest =>
      by_cases digit : c.isDigit
      · simp only [List.dropWhile_cons, digit, if_true, List.length_cons]
        exact Nat.lt_succ_of_le (length_dropWhile_le _ _)
      · simp [digit] at some_digit

theorem length_of_readWhole? {text whole rest : List Char}
    (h : readWhole? text = some (whole, rest)) : rest.length < text.length := by
  unfold readWhole? at h
  split at h
  · cases h; simp
  · exact length_of_digits? h

theorem length_of_readFraction? {text rest : List Char} {fraction : Option (List Char)}
    (h : readFraction? text = some (fraction, rest)) : rest.length ≤ text.length := by
  unfold readFraction? at h
  split at h
  · obtain ⟨⟨digits, tail⟩, hd, he⟩ := Option.map_eq_some_iff.mp h
    cases he
    have := length_of_digits? hd
    simp only [List.length_cons]
    omega
  · cases h; exact Nat.le_refl _

theorem length_readSign_le (text : List Char) : (readSign text).2.length ≤ text.length := by
  unfold readSign
  split <;> simp

theorem length_readExponentSign_le (text : List Char) :
    (readExponentSign text).2.length ≤ text.length := by
  unfold readExponentSign
  split <;> simp

theorem length_of_readExponent? {text rest : List Char} {exponent : Option (Bool × List Char)}
    (h : readExponent? text = some (exponent, rest)) : rest.length ≤ text.length := by
  unfold readExponent? at h
  split at h
  · cases h; exact Nat.le_refl _
  · next c tail =>
    split at h
    · obtain ⟨⟨digits, last⟩, hd, he⟩ := Option.map_eq_some_iff.mp h
      cases he
      have := length_of_digits? hd
      have := length_readExponentSign_le tail
      simp only [List.length_cons]
      omega
    · cases h; exact Nat.le_refl _

theorem length_of_read? {text rest : List Char} {n : Numeral}
    (h : read? text = some (n, rest)) : rest.length < text.length := by
  obtain ⟨⟨whole, r₁⟩, h₁, h⟩ := Option.bind_eq_some_iff.mp h
  obtain ⟨⟨fraction, r₂⟩, h₂, h⟩ := Option.bind_eq_some_iff.mp h
  obtain ⟨⟨exponent, r₃⟩, h₃, h⟩ := Option.map_eq_some_iff.mp h
  cases h
  have := length_readSign_le text
  have := length_of_readWhole? h₁
  have := length_of_readFraction? h₂
  have := length_of_readExponent? h₃
  omega

/-- The digits without the point and without leading zeros. -/
def significant (n : Numeral) : List Char :=
  (n.whole ++ n.fraction.getD []).dropWhile (· == '0')

/-- The largest exponent that is told apart from larger ones. -/
def maxExponent : Nat := 2147483648

/-- The power of ten that belongs to the last digit. -/
def scale (n : Numeral) : Int :=
  let exponent : Int := match n.exponent with
    | some (true, digits) => -Text.Decimal.upTo maxExponent digits
    | some (false, digits) => Text.Decimal.upTo maxExponent digits
    | none => 0
  exponent - (n.fraction.getD []).length

/-- More digits than any number halfway between two doubles has. -/
def maxDigits : Nat := 800

/-- Digits that lead to the same double. Of those that are too many it matters only whether they
are all zeros; if not, a single one stands for them. -/
def abridge (digits : List Char) : List Char :=
  let kept := digits.take maxDigits
  if (digits.drop maxDigits).all (· == '0') then kept else kept ++ ['1']

/-- The nearest double to the number without its sign. Beyond the powers of ten that matter the
result is settled without computing them. -/
def magnitude (n : Numeral) : Option Float :=
  let size : Int := n.significant.length + n.scale
  if n.significant.isEmpty || size < -400 then some 0
  else if 400 < size then none
  else
    let digits := abridge n.significant
    let scale := size - digits.length
    let value := Float.ofScientific (Text.Decimal.ofDigits digits) (scale < 0) scale.natAbs
    if value.isFinite then some value else none

/-- The number as a 64-bit integer, unsigned without a minus sign and signed with one. -/
def integer? (n : Numeral) : Option Int :=
  let value := Text.Decimal.upTo UInt64.size n.whole
  if n.fraction.isSome || n.exponent.isSome then none
  else if n.negative then
    if 0 < value && value ≤ UInt64.size / 2 then some (-value) else none
  else if value < UInt64.size then some value
  else none

def toValue? (n : Numeral) : Option Value :=
  match n.integer? with
  | some value => some (.integer value)
  | none => n.magnitude.map fun size => .float (if n.negative then -size else size)

end Numeral
end FormBody.Json
