/-! # Decimal numerals

Whole numbers as they are written in settings and queries: an optional sign and at least one ASCII
digit, nothing else, and within the limits that the reader gives. Leading zeros are allowed.
-/

namespace Ephemera.Text

/-- The value of a decimal digit. -/
def digit? (c : Char) : Option Nat :=
  if '0' ≤ c ∧ c ≤ '9' then some (c.toNat - '0'.toNat) else none

/-- The value of a sequence of decimal digits, the empty one included. -/
def digits? (cs : List Char) : Option Nat :=
  cs.foldl (fun n c => do return (← n) * 10 + (← digit? c)) (some 0)

/-- The value of at least one decimal digit. -/
def numeral? (cs : List Char) : Option Nat :=
  if cs.isEmpty then none else digits? cs

/-- A natural number up to `limit`, with an optional plus sign. -/
def natural? (limit : Nat) (text : String) : Option Nat :=
  (match text.toList with
    | '+' :: cs => numeral? cs
    | cs => numeral? cs).filter (· ≤ limit)

/-- The largest natural number of that many bits. -/
def largest (bits : Nat) : Nat :=
  Nat.pow 2 bits - 1

/-- Whether a whole number has 64 bits. -/
def isInteger (n : Int) : Bool :=
  -(largest 63 : Int) - 1 ≤ n && n ≤ largest 63

/-- A whole number of 64 bits, with an optional sign. -/
def integer? (text : String) : Option Int :=
  (match text.toList with
    | '+' :: cs => (numeral? cs).map Int.ofNat
    | '-' :: cs => (numeral? cs).map fun n => -(n : Int)
    | cs => (numeral? cs).map Int.ofNat).filter isInteger

/-- A truth value, spelled in lower case. -/
def truth? (text : String) : Option Bool :=
  if text = "true" then some true else if text = "false" then some false else none

end Ephemera.Text
