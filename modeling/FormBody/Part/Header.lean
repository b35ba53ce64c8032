import FormBody.Bytes
import FormBody.Text.Blank
import FormBody.Text.Decimal
import FormBody.Text.Utf8

/-!
Header lines of a part. Three headers are understood; a line of any other kind is no header here.
-/
namespace FormBody

/-- A header by its kind, with the bytes behind the colon. -/
inductive PartHeader where
  | disposition (value : Bytes)
  | length (value : Bytes)
  | type (value : Bytes)
  deriving DecidableEq, Repr

namespace PartHeader

open Text

def dispositionName : Bytes := Utf8.encode "content-disposition".toList

def lengthName : Bytes := Utf8.encode "content-length".toList

def typeName : Bytes := Utf8.encode "content-type".toList

/-- What stands behind the colon of a line that starts with this header name, letter case
aside. -/
def value? (line name : Bytes) : Option Bytes :=
  match line.drop name.length with
  | 58 :: value => if Bytes.eqIgnoreCase (line.take name.length) name then some value else none
  | _ => none

def ofLine? (line : Bytes) : Option PartHeader :=
  (value? line dispositionName).map disposition
    <|> (value? line lengthName).map length
    <|> (value? line typeName).map type

def declaredLength? (value : Bytes) : Option UInt64 :=
  (Utf8.decode? value).bind fun text => Decimal.parse? (trim text)

end PartHeader
end FormBody
