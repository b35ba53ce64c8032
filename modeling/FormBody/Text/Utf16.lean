import FormBody.Text.Utf8

/-!
UTF-16 in either byte order, read leniently: every surrogate without its partner becomes U+FFFD,
and so does whatever is incomplete at the end, be it a lone byte, a leading surrogate, or both.
-/
namespace FormBody.Text.Utf16

inductive ByteOrder where
  | little
  | big
  deriving DecidableEq, Repr

def ByteOrder.unit : ByteOrder → UInt8 → UInt8 → Nat
  | .little, a, b => b.toNat * 256 + a.toNat
  | .big, a, b => a.toNat * 256 + b.toNat

def isLeading (unit : Nat) : Bool := 0xD800 ≤ unit && unit ≤ 0xDBFF

def isTrailing (unit : Nat) : Bool := 0xDC00 ≤ unit && unit ≤ 0xDFFF

def combine (leading trailing : Nat) : Char :=
  Char.ofNat (0x10000 + (leading - 0xD800) * 0x400 + (trailing - 0xDC00))

/-- A unit where no leading surrogate is pending: the characters it settles, and the leading
surrogate pending after it. -/
def start (unit : Nat) : List Char × Option Nat :=
  if isLeading unit then ([], some unit)
  else if isTrailing unit then ([replacement], none)
  else ([Char.ofNat unit], none)

def feed : Option Nat → Nat → List Char × Option Nat
  | none, unit => start unit
  | some leading, unit =>
    if isTrailing unit then ([combine leading unit], none)
    else
      let (settled, next) := start unit
      (replacement :: settled, next)

def decodeFrom (order : ByteOrder) : Option Nat → Bytes → List Char
  | none, [] => []
  | some _, [] => [replacement]
  | _, [_] => [replacement]
  | pending, a :: b :: rest =>
    let (settled, next) := feed pending (order.unit a b)
    settled ++ decodeFrom order next rest

def decode (order : ByteOrder) (bytes : Bytes) : List Char := decodeFrom order none bytes

end FormBody.Text.Utf16
