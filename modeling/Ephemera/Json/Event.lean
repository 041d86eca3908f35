import Ephemera.Json.Number

/-! # JSON text as events

A JSON text is read from left to right into events, one for each scalar, each key, and each bracket
and brace. Where the text stops being well formed a `fault` takes the place of what follows. So
whoever reads the events meets the problems of a text in the order in which they stand in it, those
of its form and those of its content alike.

Two things are recorded rather than judged, because they do not matter in a value that nobody looks
at: a string with an unpaired surrogate has no text, and a number may be out of range.
-/

namespace Ephemera.Json

/-- One event of a JSON text. -/
inductive Event where
  | null
  | flag (holds : Bool)
  | number (n : Number)
  /-- A string; it has no text if a surrogate in it is unpaired. -/
  | text (text : Option String)
  | beginArray
  | endArray
  | beginObject
  /-- The key of a member, as a string. -/
  | key (text : Option String)
  | endObject
  /-- The text is not well formed from here on. -/
  | fault
  deriving DecidableEq, Repr

/-- The blanks between tokens. -/
def isBlank (c : Char) : Bool :=
  c = ' ' || c = '\n' || c = '\t' || c = '\r'

/-- The text without the blanks it starts with. -/
def skipBlanks (cs : List Char) : List Char :=
  cs.dropWhile isBlank

/-- What follows a word that the text starts with. -/
def dropWord? (word cs : List Char) : Option (List Char) :=
  if word.isPrefixOf cs then some (cs.drop word.length) else none

/-! ## Numbers -/

/-- At least one digit, and what follows. -/
def digits? (cs : List Char) : Option (List Char × List Char) :=
  match cs.span Char.isDigit with
  | ([], _) => none
  | split => some split

/-- The digits after a point, if there is one. -/
def fraction? (cs : List Char) : Option (Option (List Char) × List Char) :=
  match cs with
  | '.' :: rest => (digits? rest).map fun (ds, rest) => (some ds, rest)
  | cs => some (none, cs)

/-- The exponent, if there is one. -/
def exponent? (cs : List Char) : Option (Option (Bool × List Char) × List Char) :=
  match cs with
  | 'e' :: rest | 'E' :: rest =>
    let (negative, rest) :=
      match rest with
      | '+' :: rest => (false, rest)
      | '-' :: rest => (true, rest)
      | rest => (false, rest)
    (digits? rest).map fun (ds, rest) => (some (negative, ds), rest)
  | cs => some (none, cs)

/-- A number, and what follows. A zero is not followed by another digit. -/
def number? (cs : List Char) : Option (Number × List Char) := do
  let (negative, cs) :=
    match cs with
    | '-' :: rest => (true, rest)
    | cs => (false, cs)
  let (whole, cs) ← digits? cs
  if whole.head? = some '0' ∧ whole.length ≠ 1 then none
  let (fraction, cs) ← fraction? cs
  let (exponent, cs) ← exponent? cs
  return ({ negative, whole, fraction, exponent }, cs)

/-! ## Strings -/

/-- The value of a hexadecimal digit. -/
def hexDigit? (c : Char) : Option Nat :=
  if '0' ≤ c ∧ c ≤ '9' then some (c.toNat - '0'.toNat)
  else if 'a' ≤ c ∧ c ≤ 'f' then some (c.toNat - 'a'.toNat + 10)
  else if 'A' ≤ c ∧ c ≤ 'F' then some (c.toNat - 'A'.toNat + 10)
  else none

/-- The value of four hexadecimal digits. -/
def hexUnit? (a b c d : Char) : Option Nat := do
  return (((← hexDigit? a) * 16 + (← hexDigit? b)) * 16 + (← hexDigit? c)) * 16 + (← hexDigit? d)

/-- The character that a backslash and `c` stand for. -/
def shortEscape? (c : Char) : Option Char :=
  match c with
  | '"' => some '"'
  | '\\' => some '\\'
  | '/' => some '/'
  | 'b' => some '\x08'
  | 'f' => some '\x0c'
  | 'n' => some '\n'
  | 'r' => some '\r'
  | 't' => some '\t'
  | _ => none

/-- A string that is being read. -/
structure Draft where
  /-- The characters so far, the last one first. -/
  chars : List Char := []
  /-- A leading surrogate that waits for its partner. -/
  leading : Option Nat := none
  /-- Whether every surrogate so far has its partner. -/
  paired : Bool := true
  deriving DecidableEq, Repr

namespace Draft

/-- Add a character. -/
def push (d : Draft) (c : Char) : Draft :=
  { chars := c :: d.chars, paired := d.paired && d.leading.isNone }

/-- Add a 16-bit unit: a character, or one half of a surrogate pair. -/
def pushUnit (d : Draft) (unit : Nat) : Draft :=
  if 0xd800 ≤ unit ∧ unit < 0xdc00 then
    { d with leading := some unit, paired := d.paired && d.leading.isNone }
  else if 0xdc00 ≤ unit ∧ unit < 0xe000 then
    match d.leading with
    | some leading =>
      { d with
        chars := Char.ofNat (0x10000 + (leading - 0xd800) * 0x400 + (unit - 0xdc00)) :: d.chars
        leading := none }
    | none => { d with paired := false }
  else d.push (Char.ofNat unit)

/-- The finished string, unless a surrogate is unpaired. -/
def text (d : Draft) : Option String :=
  if d.paired && d.leading.isNone then some (String.ofList d.chars.reverse) else none

end Draft

/-- A string after its opening quote, and what follows its closing quote. -/
def string? (d : Draft) : List Char → Option (Option String × List Char)
  | [] => none
  | '"' :: rest => some (d.text, rest)
  | '\\' :: 'u' :: a :: b :: c :: e :: rest =>
    match hexUnit? a b c e with
    | none => none
    | some unit => string? (d.pushUnit unit) rest
  | '\\' :: c :: rest =>
    match shortEscape? c with
    | none => none
    | some c => string? (d.push c) rest
  | c :: rest => if c = '\\' ∨ c.toNat < 0x20 then none else string? (d.push c) rest

/-! ## Events -/

/-- A bracket or brace that is still open. -/
inductive Frame where
  | array
  | object
  deriving DecidableEq, Repr

/-- What may come next in a text. -/
inductive Place where
  /-- A value. -/
  | value
  /-- The first element of an array, or its end. -/
  | element
  /-- The first member of an object, or its end. -/
  | member
  /-- A further member of an object. -/
  | nextMember
  /-- The colon after a key. -/
  | colon
  /-- What follows a value: a comma or the end of what is open, or the end of the text. -/
  | after
  deriving DecidableEq, Repr

/-- A scalar, and what follows. -/
def scalar? (cs : List Char) : Option (Event × List Char) :=
  match cs with
  | '"' :: rest => (string? {} rest).map fun (t, rest) => (.text t, rest)
  | 'n' :: _ => (dropWord? ['n', 'u', 'l', 'l'] cs).map (.null, ·)
  | 't' :: _ => (dropWord? ['t', 'r', 'u', 'e'] cs).map (.flag true, ·)
  | 'f' :: _ => (dropWord? ['f', 'a', 'l', 's', 'e'] cs).map (.flag false, ·)
  | cs => (number? cs).map fun (n, rest) => (.number n, rest)

/-- One step of a reader. -/
inductive Reading where
  /-- The text goes on: the events that were read, what is open, what may come, and the rest. -/
  | more (events : List Event) (open_ : List Frame) (place : Place) (rest : List Char)
  /-- The text is complete. -/
  | complete
  /-- The text is not well formed. -/
  | broken
  deriving DecidableEq, Repr

/-- Read a key after its opening quote. -/
def keyStep (open_ : List Frame) (cs : List Char) : Reading :=
  match string? {} cs with
  | some (t, rest) => .more [.key t] open_ .colon rest
  | none => .broken

/-- Read a value. -/
def valueStep (open_ : List Frame) (cs : List Char) : Reading :=
  match cs with
  | '[' :: rest => .more [.beginArray] (.array :: open_) .element rest
  | '{' :: rest => .more [.beginObject] (.object :: open_) .member rest
  | cs =>
    match scalar? cs with
    | some (e, rest) => .more [e] open_ .after rest
    | none => .broken

/-- Read what comes next in a text that starts with no blank. -/
def step (open_ : List Frame) (place : Place) (cs : List Char) : Reading :=
  match place, open_, cs with
  | .value, _, cs => valueStep open_ cs
  | .element, _ :: outer, ']' :: rest => .more [.endArray] outer .after rest
  | .element, _, cs => valueStep open_ cs
  | .member, _ :: outer, '}' :: rest => .more [.endObject] outer .after rest
  | .member, _, '"' :: rest => keyStep open_ rest
  | .nextMember, _, '"' :: rest => keyStep open_ rest
  | .colon, _, ':' :: rest => .more [] open_ .value rest
  | .after, [], [] => .complete
  | .after, .array :: _, ',' :: rest => .more [] open_ .value rest
  | .after, .array :: outer, ']' :: rest => .more [.endArray] outer .after rest
  | .after, .object :: _, ',' :: rest => .more [] open_ .nextMember rest
  | .after, .object :: outer, '}' :: rest => .more [.endObject] outer .after rest
  | _, _, _ => .broken

/-- The events of a text, put after those that were read before it, which are given the last one
first. Every step but the last reads a character, so a text has at most one step more than it has
characters. -/
def readEvents : Nat → List Event → List Frame → Place → List Char → List Event
  | 0, before, _, _, _ => (.fault :: before).reverse
  | fuel + 1, before, open_, place, cs =>
    match step open_ place (skipBlanks cs) with
    | .more events open_ place rest => readEvents fuel (events ++ before) open_ place rest
    | .complete => before.reverse
    | .broken => (.fault :: before).reverse

/-- The events of a JSON text. -/
def events (text : String) : List Event :=
  let cs := text.toList
  readEvents (cs.length + 1) [] [] .value cs

end Ephemera.Json
