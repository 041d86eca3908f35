/-! # Percent-encoding

A percent sign with two hexadecimal digits stands for one byte; any other percent sign, and every
other byte, stands for itself. In a form a plus sign stands for a blank.
-/

namespace Ephemera.Text

/-- The value of an ASCII hexadecimal digit. -/
def hexByte? (b : UInt8) : Option UInt8 :=
  if 0x30 ≤ b ∧ b ≤ 0x39 then some (b - 0x30)
  else if 0x41 ≤ b ∧ b ≤ 0x46 then some (b - 0x41 + 10)
  else if 0x61 ≤ b ∧ b ≤ 0x66 then some (b - 0x61 + 10)
  else none

/-- The bytes that percent-encoded bytes stand for, after those that were decoded before, which are
given the last one first. -/
def percentDecodeOnto (before : List UInt8) : List UInt8 → List UInt8
  | [] => before.reverse
  | 0x25 :: high :: low :: rest =>
    match hexByte? high, hexByte? low with
    | some h, some l => percentDecodeOnto ((h * 16 + l) :: before) rest
    | _, _ => percentDecodeOnto (0x25 :: before) (high :: low :: rest)
  | b :: rest => percentDecodeOnto (b :: before) rest

/-- The bytes that percent-encoded bytes stand for. -/
def percentDecode (bytes : List UInt8) : List UInt8 :=
  percentDecodeOnto [] bytes

/-- The text that bytes encode in UTF-8, if they do. -/
def ofUtf8? (bytes : List UInt8) : Option String :=
  String.fromUTF8? ⟨bytes.toArray⟩

/-- The bytes of a text in UTF-8. -/
def utf8 (text : String) : List UInt8 :=
  text.toUTF8.toList

/-- The text that a percent-encoded text stands for, if that is a text. -/
def percentDecode? (text : String) : Option String :=
  ofUtf8? (percentDecode (utf8 text))

/-- The text that a name or value of a form stands for, if that is a text. -/
def formDecode? (text : List Char) : Option String :=
  percentDecode? (String.ofList (text.map fun c => if c = '+' then ' ' else c))

end Ephemera.Text
