import FormBody.Text.Utf8

/-!
Charsets of one byte per character. The lower half of each is ASCII; the upper half is given as
runs of consecutive code points, in the order of the bytes `80` to `FF`.
-/
namespace FormBody.Text

inductive CodePage where
  | windows1252
  | latin2
  | windows1251
  | koi8r
  | userDefined
  deriving DecidableEq, Repr

namespace CodePage

/-- First code point and length of each run. -/
def runs : CodePage → List (Nat × Nat)
  | .windows1252 => [
    (0x20AC, 1), (0x0081, 1), (0x201A, 1), (0x0192, 1), (0x201E, 1), (0x2026, 1), (0x2020, 2),
    (0x02C6, 1), (0x2030, 1), (0x0160, 1), (0x2039, 1), (0x0152, 1), (0x008D, 1), (0x017D, 1),
    (0x008F, 2), (0x2018, 2), (0x201C, 2), (0x2022, 1), (0x2013, 2), (0x02DC, 1), (0x2122, 1),
    (0x0161, 1), (0x203A, 1), (0x0153, 1), (0x009D, 1), (0x017E, 1), (0x0178, 1), (0x00A0, 96)]
  | .latin2 => [
    (0x0080, 33), (0x0104, 1), (0x02D8, 1), (0x0141, 1), (0x00A4, 1), (0x013D, 1), (0x015A, 1),
    (0x00A7, 2), (0x0160, 1), (0x015E, 1), (0x0164, 1), (0x0179, 1), (0x00AD, 1), (0x017D, 1),
    (0x017B, 1), (0x00B0, 1), (0x0105, 1), (0x02DB, 1), (0x0142, 1), (0x00B4, 1), (0x013E, 1),
    (0x015B, 1), (0x02C7, 1), (0x00B8, 1), (0x0161, 1), (0x015F, 1), (0x0165, 1), (0x017A, 1),
    (0x02DD, 1), (0x017E, 1), (0x017C, 1), (0x0154, 1), (0x00C1, 2), (0x0102, 1), (0x00C4, 1),
    (0x0139, 1), (0x0106, 1), (0x00C7, 1), (0x010C, 1), (0x00C9, 1), (0x0118, 1), (0x00CB, 1),
    (0x011A, 1), (0x00CD, 2), (0x010E, 1), (0x0110, 1), (0x0143, 1), (0x0147, 1), (0x00D3, 2),
    (0x0150, 1), (0x00D6, 2), (0x0158, 1), (0x016E, 1), (0x00DA, 1), (0x0170, 1), (0x00DC, 2),
    (0x0162, 1), (0x00DF, 1), (0x0155, 1), (0x00E1, 2), (0x0103, 1), (0x00E4, 1), (0x013A, 1),
    (0x0107, 1), (0x00E7, 1), (0x010D, 1), (0x00E9, 1), (0x0119, 1), (0x00EB, 1), (0x011B, 1),
    (0x00ED, 2), (0x010F, 1), (0x0111, 1), (0x0144, 1), (0x0148, 1), (0x00F3, 2), (0x0151, 1),
    (0x00F6, 2), (0x0159, 1), (0x016F, 1), (0x00FA, 1), (0x0171, 1), (0x00FC, 2), (0x0163, 1),
    (0x02D9, 1)]
  | .windows1251 => [
    (0x0402, 2), (0x201A, 1), (0x0453, 1), (0x201E, 1), (0x2026, 1), (0x2020, 2), (0x20AC, 1),
    (0x2030, 1), (0x0409, 1), (0x2039, 1), (0x040A, 1), (0x040C, 1), (0x040B, 1), (0x040F, 1),
    (0x0452, 1), (0x2018, 2), (0x201C, 2), (0x2022, 1), (0x2013, 2), (0x0098, 1), (0x2122, 1),
    (0x0459, 1), (0x203A, 1), (0x045A, 1), (0x045C, 1), (0x045B, 1), (0x045F, 1), (0x00A0, 1),
    (0x040E, 1), (0x045E, 1), (0x0408, 1), (0x00A4, 1), (0x0490, 1), (0x00A6, 2), (0x0401, 1),
    (0x00A9, 1), (0x0404, 1), (0x00AB, 4), (0x0407, 1), (0x00B0, 2), (0x0406, 1), (0x0456, 1),
    (0x0491, 1), (0x00B5, 3), (0x0451, 1), (0x2116, 1), (0x0454, 1), (0x00BB, 1), (0x0458, 1),
    (0x0405, 1), (0x0455, 1), (0x0457, 1), (0x0410, 64)]
  | .koi8r => [
    (0x2500, 1), (0x2502, 1), (0x250C, 1), (0x2510, 1), (0x2514, 1), (0x2518, 1), (0x251C, 1),
    (0x2524, 1), (0x252C, 1), (0x2534, 1), (0x253C, 1), (0x2580, 1), (0x2584, 1), (0x2588, 1),
    (0x258C, 1), (0x2590, 4), (0x2320, 1), (0x25A0, 1), (0x2219, 2), (0x2248, 1), (0x2264, 2),
    (0x00A0, 1), (0x2321, 1), (0x00B0, 1), (0x00B2, 1), (0x00B7, 1), (0x00F7, 1), (0x2550, 3),
    (0x0451, 1), (0x2553, 15), (0x0401, 1), (0x2562, 11), (0x00A9, 1), (0x044E, 1), (0x0430, 2),
    (0x0446, 1), (0x0434, 2), (0x0444, 1), (0x0433, 1), (0x0445, 1), (0x0438, 8), (0x044F, 1),
    (0x0440, 4), (0x0436, 1), (0x0432, 1), (0x044C, 1), (0x044B, 1), (0x0437, 1), (0x0448, 1),
    (0x044D, 1), (0x0449, 1), (0x0447, 1), (0x044A, 1), (0x042E, 1), (0x0410, 2), (0x0426, 1),
    (0x0414, 2), (0x0424, 1), (0x0413, 1), (0x0425, 1), (0x0418, 8), (0x042F, 1), (0x0420, 4),
    (0x0416, 1), (0x0412, 1), (0x042C, 1), (0x042B, 1), (0x0417, 1), (0x0428, 1), (0x042D, 1),
    (0x0429, 1), (0x0427, 1), (0x042A, 1)]
  | .userDefined => [
    (0xF780, 128)]

def upperHalf (page : CodePage) : Array Char :=
  (page.runs.flatMap fun (first, length) =>
    (List.range length).map fun i => Char.ofNat (first + i)).toArray

def decode (page : CodePage) (bytes : Bytes) : List Char :=
  let upper := page.upperHalf
  bytes.map fun b =>
    if b < 0x80 then Char.ofNat b.toNat else upper.getD (b.toNat - 0x80) replacement

end CodePage
end FormBody.Text
