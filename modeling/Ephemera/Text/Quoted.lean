import Ephemera.Text.ExtendingMark
import Ephemera.Text.Unprintable

/-! # Quoted text

A text between double quotes that can be read off a screen: quotes and backslashes are written as
escapes, and so is every character that does not show by itself, because it is unprintable or a
mark that extends the one before it. All others stand for themselves.
-/

namespace Ephemera.Text

/-- A lower-case hexadecimal numeral without leading zeros. -/
def hexNumeral (n : Nat) : List Char :=
  Nat.toDigits 16 n

/-- The escape that gives a character by its code point. -/
def codeEscape (c : Char) : List Char :=
  ['\\', 'u', '\x7b'] ++ hexNumeral c.toNat ++ ['\x7d']

/-- What stands for one character between the quotes. -/
def escape (c : Char) : List Char :=
  match c with
  | '"' => ['\\', '"']
  | '\\' => ['\\', '\\']
  | '\n' => ['\\', 'n']
  | '\r' => ['\\', 'r']
  | '\t' => ['\\', 't']
  | '\x00' => ['\\', '0']
  | c => if isPrintable c && !isExtendingMark c then [c] else codeEscape c

/-- The text between double quotes, with everything escaped that does not show by itself. -/
def quote (s : String) : String :=
  String.ofList ('"' :: s.toList.flatMap escape ++ ['"'])

end Ephemera.Text
