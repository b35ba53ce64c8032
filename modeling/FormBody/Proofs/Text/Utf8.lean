import FormBody.Text.Utf8

/-! Strict decoding of UTF-8 inverts encoding. Every character that a scan settles on stands in the bytes
in the one form that encoding gives it, so that the bytes of a text are those that encode it. -/
namespace FormBody.Text.Utf8

theorem toNat_ofNat_of_valid {n : Nat} (valid : n < 0xD800 ∨ 0xDFFF < n ∧ n < 0x110000) :
    (Char.ofNat n).toNat = n := by
  rw [Char.ofNat, dif_pos valid]
  rfl

theorem encodeChar_one {n : Nat} (small : n < 0x80) : encodeChar (Char.ofNat n) = [UInt8.ofNat n] := by
  simp only [encodeChar, toNat_ofNat_of_valid (n := n) (by omega), if_pos small]

theorem encodeChar_two {q r : Nat} (long : 2 ≤ q) (lead : q < 32) (last : r < 64) :
    encodeChar (Char.ofNat (q * 64 + r)) = [UInt8.ofNat (0xC0 + q), UInt8.ofNat (0x80 + r)] := by
  simp only [encodeChar, toNat_ofNat_of_valid (n := q * 64 + r) (by omega)]
  rw [if_neg (by omega), if_pos (by omega), show (q * 64 + r) / 64 = q by omega,
    show (q * 64 + r) % 64 = r by omega]

theorem encodeChar_three {q r s : Nat} (lead : q < 16) (second : r < 64) (last : s < 64)
    (long : q = 0 → 32 ≤ r) (scalar : q = 13 → r < 32) :
    encodeChar (Char.ofNat ((q * 64 + r) * 64 + s)) =
      [UInt8.ofNat (0xE0 + q), UInt8.ofNat (0x80 + r), UInt8.ofNat (0x80 + s)] := by
  simp only [encodeChar, toNat_ofNat_of_valid (n := (q * 64 + r) * 64 + s) (by omega)]
  rw [if_neg (by omega), if_neg (by omega), if_pos (by omega),
    show ((q * 64 + r) * 64 + s) / 4096 = q by omega,
    show ((q * 64 + r) * 64 + s) / 64 % 64 = r by omega,
    show ((q * 64 + r) * 64 + s) % 64 = s by omega]

theorem encodeChar_four {q r s t : Nat} (lead : q ≤ 4) (second : r < 64) (third : s < 64)
    (last : t < 64) (long : q = 0 → 16 ≤ r) (bounded : q = 4 → r < 16) :
    encodeChar (Char.ofNat (((q * 64 + r) * 64 + s) * 64 + t)) =
      [UInt8.ofNat (0xF0 + q), UInt8.ofNat (0x80 + r), UInt8.ofNat (0x80 + s), UInt8.ofNat (0x80 + t)] := by
  simp only [encodeChar, toNat_ofNat_of_valid (n := ((q * 64 + r) * 64 + s) * 64 + t) (by omega)]
  rw [if_neg (by omega), if_neg (by omega), if_neg (by omega),
    show (((q * 64 + r) * 64 + s) * 64 + t) / 262144 = q by omega,
    show (((q * 64 + r) * 64 + s) * 64 + t) / 4096 % 64 = r by omega,
    show (((q * 64 + r) * 64 + s) * 64 + t) / 64 % 64 = s by omega,
    show (((q * 64 + r) * 64 + s) * 64 + t) % 64 = t by omega]

theorem lead?_cases {b : Nat} {pending : Pending} (h : lead? b = some pending) :
    (∃ q, 2 ≤ q ∧ q < 32 ∧ b = 0xC0 + q ∧ pending = ⟨q, 1, 0x80, 0xBF⟩) ∨
    (∃ q low high, q < 16 ∧ b = 0xE0 + q ∧ pending = ⟨q, 2, low, high⟩ ∧ 0x80 ≤ low ∧ high ≤ 0xBF ∧
      (q = 0 → 0xA0 ≤ low) ∧ (q = 13 → high ≤ 0x9F)) ∨
    ∃ q low high, q ≤ 4 ∧ b = 0xF0 + q ∧ pending = ⟨q, 3, low, high⟩ ∧ 0x80 ≤ low ∧ high ≤ 0xBF ∧
      (q = 0 → 0x90 ≤ low) ∧ (q = 4 → high ≤ 0x8F) := by
  unfold lead? at h
  split at h
  · exact .inl ⟨b - 0xC0, by omega, by omega, by omega, (Option.some.inj h).symm⟩
  · right
    split at h
    · exact .inl ⟨0, 0xA0, 0xBF, by omega, by omega, (Option.some.inj h).symm, by simp⟩
    · split at h
      · exact .inl ⟨13, 0x80, 0x9F, by omega, by omega, (Option.some.inj h).symm, by simp⟩
      · split at h
        · exact .inl ⟨b - 0xE0, 0x80, 0xBF, by omega, by omega, (Option.some.inj h).symm, by omega⟩
        · right
          split at h
          · exact ⟨0, 0x90, 0xBF, by omega, by omega, (Option.some.inj h).symm, by simp⟩
          · split at h
            · exact ⟨b - 0xF0, 0x80, 0xBF, by omega, by omega, (Option.some.inj h).symm, by omega⟩
            · split at h
              · exact ⟨4, 0x80, 0x8F, by omega, by omega, (Option.some.inj h).symm, by simp⟩
              · cases h

variable {bytes : Bytes} {c : Char} {items : List (Option Char)} {bits low high : Nat}

/-- Where a character is pending and is settled on next, a byte in range follows. -/
theorem exists_of_scanFrom_some {more : Nat} (start : 0x80 ≤ low) (stop : high ≤ 0xBF)
    (h : scanFrom (some ⟨bits, more, low, high⟩) bytes = some c :: items) :
    ∃ n rest, bytes = UInt8.ofNat (0x80 + n) :: rest ∧ n < 64 ∧ low ≤ 0x80 + n ∧ 0x80 + n ≤ high := by
  cases bytes with
  | nil => simp [scanFrom] at h
  | cons b rest =>
    rw [scanFrom_cons, feed] at h
    split at h
    · next range =>
      dsimp only at range
      have byte : 0x80 + (b.toNat - 0x80) = b.toNat := by omega
      exact ⟨b.toNat - 0x80, rest, by rw [byte, UInt8.ofNat_toNat], by omega, by omega, by omega⟩
    · simp at h

theorem exists_of_scanFrom_continue {more : Nat} (start : 0x80 ≤ low) (stop : high ≤ 0xBF)
    (h : scanFrom (some ⟨bits, more + 2, low, high⟩) bytes = some c :: items) :
    ∃ n rest, bytes = UInt8.ofNat (0x80 + n) :: rest ∧ n < 64 ∧ low ≤ 0x80 + n ∧ 0x80 + n ≤ high ∧
      scanFrom (some ⟨bits * 64 + n, more + 1, 0x80, 0xBF⟩) rest = some c :: items := by
  obtain ⟨n, rest, rfl, small, above, below⟩ := exists_of_scanFrom_some start stop h
  rw [scanFrom_continue rest small above below] at h
  exact ⟨n, rest, rfl, small, above, below, h⟩

theorem exists_of_scanFrom_last (start : 0x80 ≤ low) (stop : high ≤ 0xBF)
    (h : scanFrom (some ⟨bits, 1, low, high⟩) bytes = some c :: items) :
    ∃ n rest, bytes = UInt8.ofNat (0x80 + n) :: rest ∧ n < 64 ∧ low ≤ 0x80 + n ∧ 0x80 + n ≤ high ∧
      c = Char.ofNat (bits * 64 + n) ∧ scanFrom none rest = items := by
  obtain ⟨n, rest, rfl, small, above, below⟩ := exists_of_scanFrom_some start stop h
  rw [scanFrom_last rest small above below] at h
  obtain ⟨rfl, rfl⟩ : Char.ofNat (bits * 64 + n) = c ∧ scanFrom none rest = items := by simpa using h
  exact ⟨n, rest, rfl, small, above, below, rfl, rfl⟩

/-- A scan that begins with a character has read the bytes of that character. -/
theorem exists_of_scanFrom (h : scanFrom none bytes = some c :: items) :
    ∃ rest, bytes = encodeChar c ++ rest ∧ scanFrom none rest = items := by
  cases bytes with
  | nil => cases h
  | cons b bytes =>
    have value : UInt8.ofNat b.toNat = b := UInt8.ofNat_toNat
    rw [scanFrom_cons, feed, start] at h
    split at h
    · next small =>
      obtain ⟨rfl, rfl⟩ : Char.ofNat b.toNat = c ∧ scanFrom none bytes = items := by simpa using h
      exact ⟨bytes, by rw [encodeChar_one small, value]; rfl, rfl⟩
    · split at h
      · next pending lead =>
        rw [List.nil_append] at h
        rcases lead?_cases lead with ⟨q, long, bound, first, rfl⟩ |
          ⟨q, low, high, bound, first, rfl, above, below, long, scalar⟩ |
          ⟨q, low, high, bound, first, rfl, above, below, long, bounded⟩
        · obtain ⟨r, rest, rfl, last, _, _, rfl, later⟩ := exists_of_scanFrom_last (by omega) (by omega) h
          refine ⟨rest, ?_, later⟩
          rw [encodeChar_two long bound last, ← first, value]
          rfl
        · obtain ⟨r, rest, rfl, second, _, _, h⟩ := exists_of_scanFrom_continue above below h
          obtain ⟨s, rest, rfl, last, _, _, rfl, later⟩ :=
            exists_of_scanFrom_last (by omega) (by omega) h
          refine ⟨rest, ?_, later⟩
          rw [encodeChar_three bound second last (by omega) (by omega), ← first, value]
          rfl
        · obtain ⟨r, rest, rfl, second, _, _, h⟩ := exists_of_scanFrom_continue above below h
          obtain ⟨s, rest, rfl, third, _, _, h⟩ := exists_of_scanFrom_continue (by omega) (by omega) h
          obtain ⟨t, rest, rfl, last, _, _, rfl, later⟩ :=
            exists_of_scanFrom_last (by omega) (by omega) h
          refine ⟨rest, ?_, later⟩
          rw [encodeChar_four bound second third last (by omega) (by omega), ← first, value]
          rfl
      · simp at h

theorem scanFrom_some_ne_nil (pending : Pending) (bytes : Bytes) : scanFrom (some pending) bytes ≠ [] := by
  induction bytes generalizing pending with
  | nil => simp [scanFrom]
  | cons b rest ih =>
    rw [scanFrom_cons, feed]
    split
    · split
      · simp
      · exact ih _
    · simp

theorem eq_nil_of_scan (h : scan bytes = []) : bytes = [] := by
  cases bytes with
  | nil => rfl
  | cons b rest =>
    rw [scan, scanFrom_cons, feed, start] at h
    split at h
    · simp at h
    · split at h
      · exact absurd h (scanFrom_some_ne_nil _ rest)
      · simp at h

theorem eq_encode_of_scan {text : List Char} (h : scan bytes = text.map some) : bytes = encode text := by
  induction text generalizing bytes with
  | nil => exact eq_nil_of_scan h
  | cons c text ih =>
    obtain ⟨rest, rfl, later⟩ := exists_of_scanFrom h
    rw [ih later, encode, encode, List.flatMap_cons]

/-- Well-formed bytes are those that encode a text, and it is that text which they are read as. -/
theorem decode?_eq_some_iff {text : List Char} : decode? bytes = some text ↔ bytes = encode text := by
  constructor
  · intro h
    have faultless (items : List (Option Char)) (settled : items.all Option.isSome) :
        items = (items.filterMap id).map some := by
      induction items with
      | nil => rfl
      | cons item items ih =>
        rw [List.all_cons, Bool.and_eq_true] at settled
        obtain ⟨c, rfl⟩ := Option.isSome_iff_exists.mp settled.1
        exact congrArg (some c :: ·) (ih settled.2)
    rw [decode?] at h
    split at h
    · next settled =>
      obtain rfl := Option.some.inj h
      exact eq_encode_of_scan (faultless _ settled)
    · cases h
  · rintro rfl
    exact decode?_encode text

end FormBody.Text.Utf8
