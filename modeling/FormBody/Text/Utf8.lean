import FormBody.Bytes

/-!
UTF-8. Decoding first scans the bytes into characters and faults: every maximal sequence of bytes
that begins a character but does not complete one is a single fault, and so is every byte that
begins none. A strict reading accepts only a scan without faults, a lenient one puts U+FFFD in
the place of each. Text that was encoded is read back by both.
-/
namespace FormBody.Text

def replacement : Char := '\uFFFD'

namespace Utf8

def encodeChar (c : Char) : Bytes :=
  let n := c.toNat
  if n < 0x80 then [UInt8.ofNat n]
  else if n < 0x800 then [UInt8.ofNat (0xC0 + n / 64), UInt8.ofNat (0x80 + n % 64)]
  else if n < 0x10000 then
    [UInt8.ofNat (0xE0 + n / 4096), UInt8.ofNat (0x80 + n / 64 % 64), UInt8.ofNat (0x80 + n % 64)]
  else
    [UInt8.ofNat (0xF0 + n / 262144), UInt8.ofNat (0x80 + n / 4096 % 64),
      UInt8.ofNat (0x80 + n / 64 % 64), UInt8.ofNat (0x80 + n % 64)]

def encode (text : List Char) : Bytes := text.flatMap encodeChar

/-- A character that has begun: its bits so far, the number of bytes it still needs, and the least
and the greatest value of the next one. -/
structure Pending where
  bits : Nat
  more : Nat
  low : Nat
  high : Nat
  deriving DecidableEq, Repr

/-- What a lead byte asks for. The narrower ranges after `E0`, `ED`, `F0` and `F4` leave out the
overlong forms, the surrogates and the values above U+10FFFF. -/
def lead? (b : Nat) : Option Pending :=
  if 0xC2 ≤ b ∧ b ≤ 0xDF then some ⟨b - 0xC0, 1, 0x80, 0xBF⟩
  else if b = 0xE0 then some ⟨0, 2, 0xA0, 0xBF⟩
  else if b = 0xED then some ⟨0xD, 2, 0x80, 0x9F⟩
  else if 0xE1 ≤ b ∧ b ≤ 0xEF then some ⟨b - 0xE0, 2, 0x80, 0xBF⟩
  else if b = 0xF0 then some ⟨0, 3, 0x90, 0xBF⟩
  else if 0xF1 ≤ b ∧ b ≤ 0xF3 then some ⟨b - 0xF0, 3, 0x80, 0xBF⟩
  else if b = 0xF4 then some ⟨4, 3, 0x80, 0x8F⟩
  else none

/-- A byte where no character is pending: what it settles, and what is pending after it. -/
def start (b : Nat) : List (Option Char) × Option Pending :=
  if b < 0x80 then ([some (Char.ofNat b)], none)
  else match lead? b with
    | some pending => ([], some pending)
    | none => ([none], none)

def feed : Option Pending → Nat → List (Option Char) × Option Pending
  | none, b => start b
  | some pending, b =>
    if pending.low ≤ b ∧ b ≤ pending.high then
      let bits := pending.bits * 64 + (b - 0x80)
      if pending.more ≤ 1 then ([some (Char.ofNat bits)], none)
      else ([], some ⟨bits, pending.more - 1, 0x80, 0xBF⟩)
    else
      let (settled, next) := start b
      (none :: settled, next)

def scanFrom : Option Pending → Bytes → List (Option Char)
  | none, [] => []
  | some _, [] => [none]
  | pending, b :: rest =>
    let (settled, next) := feed pending b.toNat
    settled ++ scanFrom next rest

/-- The characters of the bytes in order, with `none` for each fault. -/
def scan (bytes : Bytes) : List (Option Char) := scanFrom none bytes

def decode? (bytes : Bytes) : Option (List Char) :=
  let items := scan bytes
  if items.all Option.isSome then some (items.filterMap id) else none

/-- The text of any bytes, with U+FFFD for each fault. -/
def decodeLossy (bytes : Bytes) : List Char := (scan bytes).map (·.getD replacement)

theorem scanFrom_cons (pending : Option Pending) (b : UInt8) (rest : Bytes) :
    scanFrom pending (b :: rest) =
      (feed pending b.toNat).1 ++ scanFrom (feed pending b.toNat).2 rest := by
  cases pending <;> rfl

theorem toNat_byte {n : Nat} (h : n < 256) : (UInt8.ofNat n).toNat = n := by
  simpa using Nat.mod_eq_of_lt h

theorem char_range (c : Char) : c.toNat < 0xD800 ∨ 0xDFFF < c.toNat ∧ c.toNat < 0x110000 :=
  c.valid

theorem scanFrom_lead {b : Nat} {pending : Pending} (rest : Bytes) (byte : b < 256)
    (high : 0x80 ≤ b) (lead : lead? b = some pending) :
    scanFrom none (UInt8.ofNat b :: rest) = scanFrom (some pending) rest := by
  rw [scanFrom_cons, toNat_byte byte]
  simp only [feed, start, if_neg (show ¬ b < 0x80 by omega), lead, List.nil_append]

theorem scanFrom_continue {bits more low high n : Nat} (rest : Bytes) (small : n < 64)
    (above : low ≤ 0x80 + n) (below : 0x80 + n ≤ high) :
    scanFrom (some ⟨bits, more + 2, low, high⟩) (UInt8.ofNat (0x80 + n) :: rest) =
      scanFrom (some ⟨bits * 64 + n, more + 1, 0x80, 0xBF⟩) rest := by
  rw [scanFrom_cons, toNat_byte (by omega)]
  simp only [feed, if_pos (And.intro above below), Nat.add_sub_cancel_left,
    if_neg (show ¬ more + 2 ≤ 1 by omega), List.nil_append]
  rfl

theorem scanFrom_last {bits low high n : Nat} (rest : Bytes) (small : n < 64)
    (above : low ≤ 0x80 + n) (below : 0x80 + n ≤ high) :
    scanFrom (some ⟨bits, 1, low, high⟩) (UInt8.ofNat (0x80 + n) :: rest) =
      some (Char.ofNat (bits * 64 + n)) :: scanFrom none rest := by
  rw [scanFrom_cons, toNat_byte (by omega)]
  simp only [feed, if_pos (And.intro above below), Nat.add_sub_cancel_left, Nat.le_refl, if_true,
    List.cons_append, List.nil_append]

/-- The range that a lead byte of three asks for admits the second byte of every character. -/
theorem lead_three {q r : Nat} (lead : q < 16) (second : r < 64)
    (long : q = 0 → 32 ≤ r) (scalar : q = 13 → r < 32) :
    ∃ low high, lead? (0xE0 + q) = some ⟨q, 2, low, high⟩ ∧
      low ≤ 0x80 + r ∧ 0x80 + r ≤ high := by
  by_cases first : q = 0
  · subst first
    exact ⟨0xA0, 0xBF, rfl, by omega, by omega⟩
  · by_cases surrogates : q = 13
    · subst surrogates
      exact ⟨0x80, 0x9F, rfl, by omega, by omega⟩
    · refine ⟨0x80, 0xBF, ?_, by omega, by omega⟩
      rw [lead?, if_neg (by omega), if_neg (by omega), if_neg (by omega), if_pos (by omega),
        Nat.add_sub_cancel_left]

theorem lead_four {q r : Nat} (lead : q ≤ 4) (second : r < 64)
    (long : q = 0 → 16 ≤ r) (bounded : q = 4 → r < 16) :
    ∃ low high, lead? (0xF0 + q) = some ⟨q, 3, low, high⟩ ∧
      low ≤ 0x80 + r ∧ 0x80 + r ≤ high := by
  by_cases first : q = 0
  · subst first
    exact ⟨0x90, 0xBF, rfl, by omega, by omega⟩
  · by_cases last : q = 4
    · subst last
      exact ⟨0x80, 0x8F, rfl, by omega, by omega⟩
    · refine ⟨0x80, 0xBF, ?_, by omega, by omega⟩
      rw [lead?, if_neg (by omega), if_neg (by omega), if_neg (by omega), if_neg (by omega),
        if_neg (by omega), if_pos (by omega), Nat.add_sub_cancel_left]

/-- The bytes of a character are scanned as that character, whatever follows. -/
theorem scanFrom_encodeChar (c : Char) (rest : Bytes) :
    scanFrom none (encodeChar c ++ rest) = some c :: scanFrom none rest := by
  have range := char_range c
  have back : Char.ofNat c.toNat = c := Char.ofNat_toNat c
  unfold encodeChar
  dsimp only
  generalize c.toNat = n at *
  -- One case for each number of bytes.
  split
  · next h =>
    simp only [List.cons_append, List.nil_append, scanFrom_cons,
      toNat_byte (show n < 256 by omega), feed, start, if_pos h, back]
  · split
    · have lead : lead? (0xC0 + n / 64) = some ⟨n / 64, 1, 0x80, 0xBF⟩ := by
        rw [lead?, if_pos (by omega), Nat.add_sub_cancel_left]
      rw [List.cons_append, scanFrom_lead _ (by omega) (by omega) lead, List.cons_append,
        scanFrom_last _ (by omega) (by omega) (by omega), Nat.div_add_mod', back, List.nil_append]
    · split
      · obtain ⟨low, high, lead, above, below⟩ :=
          lead_three (q := n / 4096) (r := n / 64 % 64) (by omega) (by omega) (by omega) (by omega)
        rw [List.cons_append, scanFrom_lead _ (by omega) (by omega) lead, List.cons_append,
          scanFrom_continue _ (by omega) above below, List.cons_append,
          scanFrom_last _ (by omega) (by omega) (by omega),
          show (n / 4096 * 64 + n / 64 % 64) * 64 + n % 64 = n by omega, back, List.nil_append]
      · obtain ⟨low, high, lead, above, below⟩ :=
          lead_four (q := n / 262144) (r := n / 4096 % 64) (by omega) (by omega) (by omega)
            (by omega)
        rw [List.cons_append, scanFrom_lead _ (by omega) (by omega) lead, List.cons_append,
          scanFrom_continue _ (by omega) above below, List.cons_append,
          scanFrom_continue _ (by omega) (by omega) (by omega), List.cons_append,
          scanFrom_last _ (by omega) (by omega) (by omega),
          show ((n / 262144 * 64 + n / 4096 % 64) * 64 + n / 64 % 64) * 64 + n % 64 = n by omega,
          back, List.nil_append]

theorem scan_encode (text : List Char) : scan (encode text) = text.map some := by
  induction text with
  | nil => rfl
  | cons c rest ih =>
    rw [scan, encode, List.flatMap_cons, scanFrom_encodeChar]
    exact congrArg (some c :: ·) ih

theorem decode?_encode (text : List Char) : decode? (encode text) = some text := by
  simp [decode?, scan_encode, List.filterMap_map]

theorem decodeLossy_encode (text : List Char) : decodeLossy (encode text) = text := by
  simp [decodeLossy, scan_encode, Function.comp_def]

end Utf8
end FormBody.Text
