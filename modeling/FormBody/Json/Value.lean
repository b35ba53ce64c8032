/-!
JSON values, and their canonical text: no blanks, keys in order, and floating point numbers by
their bits.
-/
namespace FormBody.Json

inductive Value where
  | null
  | bool (value : Bool)
  | integer (value : Int)
  | float (value : Float)
  | string (value : String)
  | array (items : List Value)
  /-- Members with distinct keys, in the order of their keys. -/
  | object (members : List (String × Value))

/-- Gives the members of an object the form that `Value.object` asks for. Of two members with the
same key the later one counts. -/
def Value.ofMembers (members : List (String × Value)) : Value :=
  let latest := members.foldl
    (fun kept (key, value) => (key, value) :: kept.filter (·.1 != key)) []
  .object (latest.mergeSort fun a b => decide (a.1 ≤ b.1))

def hexDigits : Nat → Nat → List Char
  | 0, _ => []
  | count + 1, value => hexDigits count (value / 16) ++ [Nat.digitChar (value % 16)]

def escape (c : Char) : List Char :=
  if c == '"' then ['\\', '"']
  else if c == '\\' then ['\\', '\\']
  else if c == '\x08' then ['\\', 'b']
  else if c == '\x0c' then ['\\', 'f']
  else if c == '\n' then ['\\', 'n']
  else if c == '\r' then ['\\', 'r']
  else if c == '\t' then ['\\', 't']
  else if c.toNat < 32 then '\\' :: 'u' :: hexDigits 4 c.toNat
  else [c]

def quote (text : String) : String := "\"" ++ String.ofList (text.toList.flatMap escape) ++ "\""

mutual

def Value.canonical : Value → String
  | .null => "null"
  | .bool true => "true"
  | .bool false => "false"
  | .integer value => value.repr
  | .float value => "f64:" ++ String.ofList (hexDigits 16 value.toBits.toNat)
  | .string value => quote value
  | .array items => "[" ++ ",".intercalate (canonicalItems items) ++ "]"
  | .object members => "\x7b" ++ ",".intercalate (canonicalMembers members) ++ "\x7d"

def canonicalItems : List Value → List String
  | [] => []
  | item :: rest => item.canonical :: canonicalItems rest

def canonicalMembers : List (String × Value) → List String
  | [] => []
  | (key, value) :: rest => (quote key ++ ":" ++ value.canonical) :: canonicalMembers rest

end

end FormBody.Json
