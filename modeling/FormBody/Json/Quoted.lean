import FormBody.Text.Utf16

/-!
JSON strings: what a backslash stands for, and where a string ends.
-/
namespace FormBody.Json.Quoted

open Text

def hexValue? (c : Char) : Option Nat :=
  let n := c.toNat
  if '0' ≤ c && c ≤ '9' then some (n - '0'.toNat)
  else if 'a' ≤ c && c ≤ 'f' then some (n - 'a'.toNat + 10)
  else if 'A' ≤ c && c ≤ 'F' then some (n - 'A'.toNat + 10)
  else none

def unit? (a b c d : Char) : Option Nat := do
  let a ← hexValue? a
  let b ← hexValue? b
  let c ← hexValue? c
  let d ← hexValue? d
  return ((a * 16 + b) * 16 + c) * 16 + d

def simpleEscape? : Char → Option Char
  | '"' => some '"'
  | '\\' => some '\\'
  | '/' => some '/'
  | 'b' => some '\x08'
  | 'f' => some '\x0c'
  | 'n' => some '\n'
  | 'r' => some '\r'
  | 't' => some '\t'
  | _ => none

/-- Where reading stands inside a string. -/
inductive Mode where
  | plain
  | escaped
  /-- Behind a backslash and `u`, with the digits so far; a leading surrogate may wait for its
  partner. -/
  | unit (leading : Option Nat) (digits : List Char)
  /-- Behind a leading surrogate, and behind the backslash after it. -/
  | half (leading : Nat)
  | halfEscaped (leading : Nat)

def settleUnit? (leading : Option Nat) (unit : Nat) : Option (List Char × Mode) :=
  match leading with
  | none =>
    if Utf16.isLeading unit then some ([], .half unit)
    else if Utf16.isTrailing unit then none
    else some ([Char.ofNat unit], .plain)
  | some leading =>
    if Utf16.isTrailing unit then some ([Utf16.combine leading unit], .plain) else none

/-- One character that does not end the string. -/
def feed? : Mode → Char → Option (List Char × Mode)
  | .plain, c =>
    if c == '\\' then some ([], .escaped)
    else if c.toNat < 32 then none
    else some ([c], .plain)
  | .escaped, c =>
    if c == 'u' then some ([], .unit none [])
    else (simpleEscape? c).map fun plain => ([plain], .plain)
  | .unit leading [a, b, c], d => (unit? a b c d).bind (settleUnit? leading)
  | .unit leading digits, c => some ([], .unit leading (digits ++ [c]))
  | .half leading, c => if c == '\\' then some ([], .halfEscaped leading) else none
  | .halfEscaped leading, c => if c == 'u' then some ([], .unit (some leading) []) else none

/-- Reads on in this mode; `kept` is the value so far, latest character first. -/
def readFrom? (kept : List Char) : Mode → List Char → Option (String × List Char)
  | .plain, '"' :: rest => some (String.ofList kept.reverse, rest)
  | mode, c :: rest =>
    match feed? mode c with
    | some (settled, next) => readFrom? (settled.reverse ++ kept) next rest
    | none => none
  | _, [] => none

def read? (text : List Char) : Option (String × List Char) := readFrom? [] .plain text

theorem length_of_readFrom? {kept : List Char} {mode : Mode} {text rest : List Char}
    {value : String} (h : readFrom? kept mode text = some (value, rest)) :
    rest.length < text.length := by
  fun_induction readFrom? kept mode text with
  | case1 => cases h; simp
  | case2 _ _ _ _ _ _ _ _ ih => have := ih h; simp only [List.length_cons]; omega
  | case3 => cases h
  | case4 => cases h

theorem length_of_read? {text rest : List Char} {value : String}
    (h : read? text = some (value, rest)) : rest.length < text.length :=
  length_of_readFrom? h

end FormBody.Json.Quoted
