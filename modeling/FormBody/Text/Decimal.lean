/-!
Decimal numbers. Where only small numbers matter a long run of digits is not evaluated in full:
counting stops at a bound.
-/
namespace FormBody.Text.Decimal

def digitValue (c : Char) : Nat := c.toNat - '0'.toNat

def ofDigits (digits : List Char) : Nat := digits.foldl (fun n c => 10 * n + digitValue c) 0

/-- The number that the digits denote, or `bound` if that is less. -/
def upTo (bound : Nat) (digits : List Char) : Nat :=
  digits.foldl (fun n c => min bound (10 * n + digitValue c)) 0

theorem upTo_eq (bound : Nat) (digits : List Char) :
    upTo bound digits = min bound (ofDigits digits) := by
  suffices general : ∀ n,
      digits.foldl (fun n c => min bound (10 * n + digitValue c)) (min bound n) =
        min bound (digits.foldl (fun n c => 10 * n + digitValue c) n) by
    simpa [upTo, ofDigits] using general 0
  induction digits with
  | nil => intro n; rfl
  | cons c rest ih =>
    intro n
    rw [List.foldl_cons, List.foldl_cons, ← ih]
    congr 1
    omega

/-- One optional plus sign, then at least one digit; leading zeros do no harm. The number must fit
into 64 bits. -/
def parse? (text : List Char) : Option UInt64 :=
  let digits := match text with
    | '+' :: rest => rest
    | _ => text
  if digits.isEmpty || !digits.all Char.isDigit then none
  else
    let n := upTo UInt64.size digits
    if n < UInt64.size then some (UInt64.ofNat n) else none

end FormBody.Text.Decimal
