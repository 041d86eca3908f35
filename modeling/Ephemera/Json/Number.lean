import Ephemera.Json.Double
import Ephemera.Text.Numeral

/-! # Numbers of JSON

A number is kept as it is written: its sign, its whole digits, and the digits of its fraction and
exponent if it has them. It is an integer only if it has neither fraction nor exponent, so `1.0`
and `1e3` are none; `-0` is none either, because it is the zero of floating point.

A number past the largest double is out of range. That is decided on its value as computed in
doubles: a significand of at most 64 bits, and a power of ten to multiply it by, are rounded each,
and so is their product. Numbers very close to the largest double may therefore go either way,
depending on how they are written.
-/

namespace Ephemera.Json

/-- A number as it is written. -/
structure Number where
  negative : Bool
  /-- The digits before the point. -/
  whole : List Char
  /-- The digits after the point, if there is one. -/
  fraction : Option (List Char)
  /-- The sign and the digits of the exponent, if there is one. -/
  exponent : Option (Bool × List Char)
  deriving DecidableEq, Repr

/-- The value of digits with one more after them, given the value without it. -/
def appendDigit (value : Nat) (c : Char) : Nat :=
  value * 10 + (c.toNat - '0'.toNat)

/-- The value of decimal digits. -/
def digitsValue (cs : List Char) : Nat :=
  cs.foldl appendDigit 0

/-- Read digits after those that make up `value`, as long as the value has 64 bits. The digits that
are left over follow the value. -/
def readWord (value : Nat) : List Char → Nat × List Char
  | [] => (value, [])
  | c :: rest =>
    if appendDigit value c ≤ Text.largest 64 then readWord (appendDigit value c) rest
    else (value, c :: rest)

namespace Number

/-- The value, if the number is written as an integer of 64 bits, which has at most 19 digits. -/
def integer? (n : Number) : Option Int :=
  match n.fraction, n.exponent with
  | none, none =>
    if 19 < n.whole.length then none
    else
      let value : Int := digitsValue n.whole
      if n.negative then
        if value ≠ 0 ∧ Text.isInteger (-value) then some (-value) else none
      else if Text.isInteger value then some value else none
  | _, _ => none

/-- The value of the digits that count, which are as many from the front as fit in 64 bits, and the
digits after them. -/
def parts (n : Number) : Nat × List Char :=
  readWord 0 (n.whole ++ n.fraction.getD [])

/-- The value of the digits that count. -/
def significand (n : Number) : Nat :=
  n.parts.1

/-- The exponent as it is written. Of a longer one the first twenty digits are enough, since no text
has as many digits as they say. -/
def writtenExponent (n : Number) : Int :=
  match n.exponent with
  | none => 0
  | some (negative, ds) =>
    let value := digitsValue ((ds.dropWhile (· = '0')).take 20)
    if negative then -(value : Int) else value

/-- The power of ten that the significand is multiplied by. -/
def scale (n : Number) : Int :=
  n.writtenExponent + n.parts.2.length - (n.fraction.getD []).length

/-- Whether the magnitude, computed in doubles, is past the largest of them. Only a significand that
is multiplied can be. -/
def outOfRange (n : Number) : Bool :=
  if n.significand = 0 ∨ n.scale < 0 then false
  else if Double.maxExponent < n.scale then true
  else
    Double.overflow ≤ Double.round n.significand * Double.round (Nat.pow 10 n.scale.toNat)

end Number

end Ephemera.Json
