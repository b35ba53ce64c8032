import FormBody.Text.Blank
import FormBody.Text.Decimal
import FormBody.Text.Utf8
import Mathlib.Data.List.TakeWhile

/-! Text as it is written: blanks around a word are trimmed off, a number is read back from its
decimal digits, and a byte of ASCII occurs in encoded text only where its character stands. -/
namespace FormBody.Text

theorem takeWhile_append_stop {α : Type} {p : α → Bool} {front back : List α} (passes : ∀ x ∈ front, p x)
    (stop : ∀ x ∈ back.head?, p x = false) :
    (front ++ back).takeWhile p = front ∧ (front ++ back).dropWhile p = back := by
  rw [List.takeWhile_append_of_pos passes, List.dropWhile_append_of_pos passes]
  cases back with
  | nil => simp
  | cons x rest => simp [stop x rfl]

variable {front back : List Char}

theorem trimLeft_append (leading : ∀ c ∈ front, isBlank c) (text : List Char) :
    trimLeft (front ++ text) = trimLeft text :=
  List.dropWhile_append_of_pos leading

theorem trimRight_append (text : List Char) (trailing : ∀ c ∈ back, isBlank c) :
    trimRight (text ++ back) = trimRight text := by
  rw [trimRight, List.reverse_append, List.dropWhile_append_of_pos, trimRight]
  exact fun c mem => trailing c (List.mem_reverse.mp mem)

theorem trim_append (leading : ∀ c ∈ front, isBlank c) (text : List Char)
    (trailing : ∀ c ∈ back, isBlank c) : trim (front ++ (text ++ back)) = trim text := by
  rw [trim, trimLeft_append leading, trim]
  unfold trimLeft
  rw [List.dropWhile_append]
  split
  · next nothing =>
    have blank : back.dropWhile isBlank = [] := List.dropWhile_eq_nil_iff.mpr trailing
    rw [List.isEmpty_iff.mp nothing, blank]
  · exact trimRight_append _ trailing

theorem trimLeft_eq_self {text : List Char} (solid : ∀ c ∈ text.head?, isBlank c = false) :
    trimLeft text = text := by
  cases text with
  | nil => rfl
  | cons c rest => rw [trimLeft, List.dropWhile_cons, solid c rfl]; rfl

theorem trim_eq_self {text : List Char} (solid : ∀ c ∈ text, isBlank c = false) : trim text = text := by
  have left : trimLeft text = text := trimLeft_eq_self fun c head => solid c (List.mem_of_mem_head? head)
  have right : trimLeft text.reverse = text.reverse :=
    trimLeft_eq_self fun c head => solid c (List.mem_reverse.mp (List.mem_of_mem_head? head))
  rw [trim, left, trimRight, ← trimLeft, right, List.reverse_reverse]

theorem isBlank_head_of_trim {c : Char} {rest : List Char} (h : trim (c :: rest) = c :: rest) :
    isBlank c = false := by
  refine Bool.eq_false_iff.mpr fun blank => ?_
  have shorter : (trim (c :: rest)).length ≤ rest.length := by
    rw [trim, trimLeft, List.dropWhile_cons, if_pos blank, trimRight, List.length_reverse]
    calc ((rest.dropWhile isBlank).reverse.dropWhile isBlank).length
        ≤ (rest.dropWhile isBlank).reverse.length := (List.dropWhile_sublist _).length_le
      _ = (rest.dropWhile isBlank).length := List.length_reverse
      _ ≤ rest.length := (List.dropWhile_sublist _).length_le
  rw [h, List.length_cons] at shorter
  omega

namespace Decimal

theorem ofDigits_toDigits (n : Nat) : ofDigits (Nat.toDigits 10 n) = n := by
  have read : Nat.ofDigitChars 10 (Nat.toDigits 10 n) 0 = n :=
    Nat.ofDigitChars_toDigits (by decide) (by decide)
  rwa [Nat.ofDigitChars_eq_foldl] at read

theorem isDigit_of_mem_toDigits {n : Nat} {c : Char} (h : c ∈ Nat.toDigits 10 n) : c.isDigit :=
  Nat.isDigit_of_mem_toDigits (by decide) (by decide) h

theorem isBlank_of_isDigit {c : Char} (h : c.isDigit) : isBlank c = false := by
  have range : 48 ≤ c.toNat ∧ c.toNat ≤ 57 := by
    simpa [Char.isDigit, UInt32.le_iff_toNat_le] using h
  simp only [isBlank]
  generalize c.toNat = n at range
  simp only [Bool.or_eq_false_iff, Bool.and_eq_false_iff, decide_eq_false_iff_not, beq_eq_false_iff_ne]
  omega

theorem parse?_toDigits (n : UInt64) : parse? (Nat.toDigits 10 n.toNat) = some n := by
  have unsigned : ∀ rest, Nat.toDigits 10 n.toNat ≠ '+' :: rest := by
    intro rest same
    have digit : '+'.isDigit := isDigit_of_mem_toDigits (same ▸ List.mem_cons_self)
    exact absurd digit (by decide)
  have nonempty : (Nat.toDigits 10 n.toNat).isEmpty = false := by
    simp [List.isEmpty_eq_false_iff, Nat.toDigits_ne_nil]
  have digits : (Nat.toDigits 10 n.toNat).all Char.isDigit := by
    rw [List.all_eq_true]
    exact fun c mem => isDigit_of_mem_toDigits mem
  have small : upTo UInt64.size (Nat.toDigits 10 n.toNat) = n.toNat := by
    rw [upTo_eq, ofDigits_toDigits, Nat.min_eq_right (Nat.le_of_lt n.toNat_lt)]
  unfold parse?
  split
  · next rest same => exact absurd same (unsigned rest)
  · dsimp only
    rw [nonempty, digits, small, if_neg (by decide), if_pos n.toNat_lt, UInt64.ofNat_toNat]

theorem upTo_size_eq_some_iff {digits : List Char} {n : UInt64} :
    (if upTo UInt64.size digits < UInt64.size then some (UInt64.ofNat (upTo UInt64.size digits))
      else none) = some n ↔ ofDigits digits = n.toNat := by
  rw [upTo_eq]
  split
  · next small =>
    have value : min UInt64.size (ofDigits digits) = ofDigits digits := by omega
    rw [value] at small ⊢
    rw [Option.some.injEq, ← UInt64.toNat_inj, UInt64.toNat_ofNat_of_lt' small]
  · next large =>
    have bounded : n.toNat < UInt64.size := n.toNat_lt
    simp only [reduceCtorEq, false_iff]
    omega

/-- What is read are the numbers below 2^64 that digits denote, with or without a plus sign. -/
theorem parse?_eq_some_iff {text : List Char} {n : UInt64} : parse? text = some n ↔
    ∃ digits, (text = digits ∨ text = '+' :: digits) ∧ digits ≠ [] ∧ (∀ c ∈ digits, c.isDigit) ∧
      ofDigits digits = n.toNat := by
  have read (digits : List Char) : ((if digits.isEmpty || !digits.all Char.isDigit then none
      else
        let m := upTo UInt64.size digits
        if m < UInt64.size then some (UInt64.ofNat m) else none) = some n) ↔
      digits ≠ [] ∧ (∀ c ∈ digits, c.isDigit) ∧ ofDigits digits = n.toNat := by
    rw [← List.all_eq_true, ← upTo_size_eq_some_iff]
    by_cases nonempty : digits = []
    · simp [nonempty]
    · by_cases digit : digits.all Char.isDigit
      · simp [nonempty, digit]
      · simp [digit]
  unfold parse?
  split
  · next rest =>
    refine (read rest).trans ⟨fun h => ⟨rest, .inr rfl, h⟩, ?_⟩
    rintro ⟨digits, rfl | same, nonempty, digit, value⟩
    · exact absurd (digit '+' List.mem_cons_self) (by decide)
    · obtain rfl := List.tail_eq_of_cons_eq same
      exact ⟨nonempty, digit, value⟩
  · next unsigned =>
    refine (read text).trans ⟨fun h => ⟨text, .inl rfl, h⟩, ?_⟩
    rintro ⟨digits, rfl | rfl, h⟩
    · exact h
    · exact absurd rfl (unsigned digits)

end Decimal

namespace Utf8

theorem toNat_of_mem_encodeChar {c : Char} {b : UInt8} (ascii : b < 128) (h : b ∈ encodeChar c) :
    c.toNat = b.toNat := by
  have range := char_range c
  have small : b.toNat < 128 := UInt8.lt_iff_toNat_lt.mp ascii
  have high (n : Nat) (above : 128 ≤ n) (byte : n < 256) : b ≠ UInt8.ofNat n := by
    rintro rfl
    rw [toNat_byte byte] at small
    omega
  simp only [encodeChar] at h
  generalize c.toNat = n at *
  split at h
  · rw [List.mem_singleton.mp h, toNat_byte (by omega)]
  · split at h
    · simp only [List.mem_cons, List.not_mem_nil, or_false] at h
      rcases h with h | h <;> exact absurd h (high _ (by omega) (by omega))
    · split at h
      · simp only [List.mem_cons, List.not_mem_nil, or_false] at h
        rcases h with h | h | h <;> exact absurd h (high _ (by omega) (by omega))
      · simp only [List.mem_cons, List.not_mem_nil, or_false] at h
        rcases h with h | h | h | h <;> exact absurd h (high _ (by omega) (by omega))

theorem not_mem_encode {c : Char} {text : List Char} {b : UInt8} (ascii : b < 128)
    (same : c.toNat = b.toNat) (h : c ∉ text) : b ∉ encode text := by
  intro mem
  obtain ⟨d, inside, byte⟩ := List.mem_flatMap.mp mem
  obtain rfl : d = c := Char.toNat_inj.mp ((toNat_of_mem_encodeChar ascii byte).trans same.symm)
  exact h inside

theorem encode_append (a b : List Char) : encode (a ++ b) = encode a ++ encode b :=
  List.flatMap_append

end Utf8
end FormBody.Text
