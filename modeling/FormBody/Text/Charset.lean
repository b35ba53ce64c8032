import FormBody.Text.Blank
import FormBody.Text.Case
import FormBody.Text.CodePage
import FormBody.Text.Utf16
import FormBody.Text.Utf8

/-!
Charsets by label, and the decoding of content into text. A byte order mark at the start of the
content decides over any label.
-/
namespace FormBody.Text

inductive Charset where
  | utf8
  | utf16 (order : Utf16.ByteOrder)
  | codePage (page : CodePage)
  /-- Encodings that are not decoded for safety: any content is a single U+FFFD. -/
  | refused
  deriving DecidableEq, Repr

namespace Charset

def labels : List (Charset × List String) := [
  (.utf8,
    ["utf8", "utf-8", "unicode20utf8", "unicode11utf8", "x-unicode20utf8", "unicode-1-1-utf-8"]),
  (.utf16 .little,
    ["ucs-2", "utf-16", "unicode", "utf-16le", "csunicode", "unicodefeff", "iso-10646-ucs-2"]),
  (.utf16 .big,
    ["utf-16be", "unicodefffe"]),
  (.codePage .windows1252,
    ["l1", "cp819", "ascii", "latin1", "cp1252", "ibm819", "iso88591", "x-cp1252", "us-ascii",
     "iso8859-1", "iso-ir-100", "iso-8859-1", "iso_8859-1", "csisolatin1", "windows-1252",
     "ansi_x3.4-1968", "iso_8859-1:1987"]),
  (.codePage .latin2,
    ["l2", "latin2", "iso88592", "iso8859-2", "iso-ir-101", "iso-8859-2", "iso_8859-2",
     "csisolatin2", "iso_8859-2:1987"]),
  (.codePage .windows1251,
    ["cp1251", "x-cp1251", "windows-1251"]),
  (.codePage .koi8r,
    ["koi", "koi8", "koi8-r", "koi8_r", "cskoi8r"]),
  (.codePage .userDefined,
    ["x-user-defined"]),
  (.refused,
    ["hz-gb-2312", "iso-2022-cn", "iso-2022-kr", "csiso2022kr", "replacement", "iso-2022-cn-ext"])]

/-- The charset with this label. ASCII blanks around it and its letter case do not matter. -/
def ofLabel? (label : List Char) : Option Charset :=
  let trimmed := ((label.dropWhile isAsciiBlank).reverse.dropWhile isAsciiBlank).reverse
  let name := String.ofList (lower trimmed)
  (labels.find? fun (_, names) => names.contains name).map (·.1)

def ofMark? : Bytes → Option (Charset × Bytes)
  | 0xEF :: 0xBB :: 0xBF :: rest => some (.utf8, rest)
  | 0xFF :: 0xFE :: rest => some (.utf16 .little, rest)
  | 0xFE :: 0xFF :: rest => some (.utf16 .big, rest)
  | _ => none

def decodeUnmarked : Charset → Bytes → List Char
  | .utf8, bytes => Utf8.decodeLossy bytes
  | .utf16 order, bytes => Utf16.decode order bytes
  | .codePage page, bytes => page.decode bytes
  | .refused, bytes => if bytes.isEmpty then [] else [replacement]

def decode (charset : Charset) (bytes : Bytes) : List Char :=
  match ofMark? bytes with
  | some (marked, rest) => marked.decodeUnmarked rest
  | none => charset.decodeUnmarked bytes

end Charset
end FormBody.Text
