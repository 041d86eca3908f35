import Ephemera.Json.Event

/-! # Reading records from JSON events

A decoder reads a value of a known shape from the front of a list of events. It ends with the first
problem it meets: the text is malformed, or it is well formed so far and of another shape.

A record may be written as an object or as an array. In an object, members that the record does not
have are skipped, and a member may not come twice. In an array the fields come in the order of the
record; the last ones may be left out if they are optional, and there may be no more elements than
fields.
-/

namespace Ephemera.Json

universe u v

/-- Why a text was refused. -/
inductive Problem where
  /-- It is not well formed. -/
  | malformed
  /-- It is not of the shape that was asked for. -/
  | mismatch
  deriving DecidableEq, Repr

/-- A reader of a value from the front of a list of events. -/
abbrev Decoder (α : Type u) := List Event → Except Problem (α × List Event)

/-- The problem with a value of another shape. A scalar is read before it is judged, so one that is
no good in itself makes the text malformed. -/
def unexpected (es : List Event) : Problem :=
  match es with
  | [] | .fault :: _ | .text none :: _ => .malformed
  | .number n :: _ => if n.outOfRange then .malformed else .mismatch
  | _ => .mismatch

namespace Decoder

/-- A string. -/
def text : Decoder String
  | .text (some t) :: rest => .ok (t, rest)
  | es => .error (unexpected es)

/-- A truth value. -/
def flag : Decoder Bool
  | .flag b :: rest => .ok (b, rest)
  | es => .error (unexpected es)

/-- An integer of 64 bits. -/
def integer : Decoder Int
  | .number n :: rest =>
    match n.integer? with
    | some i => .ok (i, rest)
    | none => .error (unexpected (.number n :: rest))
  | es => .error (unexpected es)

/-- A value that may be `null`. -/
def optional {α : Type u} (decode : Decoder α) : Decoder (Option α)
  | .null :: rest => .ok (none, rest)
  | es => (decode es).map fun (a, rest) => (some a, rest)

/-- Skip a value, inside of `depth` brackets and braces that were opened in it. -/
def skipFrom : Nat → List Event → Except Problem (List Event)
  | _, [] | _, .fault :: _ => .error .malformed
  | depth, .beginArray :: rest | depth, .beginObject :: rest => skipFrom (depth + 1) rest
  | depth, .endArray :: rest | depth, .endObject :: rest =>
    if depth ≤ 1 then .ok rest else skipFrom (depth - 1) rest
  | 0, _ :: rest => .ok rest
  | depth, _ :: rest => skipFrom depth rest

/-- Skip a value of any shape. -/
def skip (es : List Event) : Except Problem (List Event) :=
  skipFrom 0 es

end Decoder

/-- A field of a record that is read into a `σ`. -/
structure Field (σ : Type u) where
  name : String
  /-- Read the value of the field into the record. -/
  read : σ → Decoder σ
  /-- Whether it may be left out at the end of an array. -/
  optional : Bool

/-- How a record is written. -/
structure Schema (σ : Type u) where
  /-- The record of which no field has been read. -/
  start : σ
  fields : List (Field σ)
  /-- Whether every field that an object must have has been read. -/
  complete : σ → Bool

namespace Schema

variable {σ : Type u}

/-- Read the rest of an object in which the fields `seen` have been read. -/
def readObject (schema : Schema σ) : Nat → List String → σ → Decoder σ
  | 0, _, _, _ => .error .malformed
  | fuel + 1, seen, record, es =>
    match es with
    | .endObject :: rest => if schema.complete record then .ok (record, rest) else .error .mismatch
    | .key (some name) :: rest =>
      match schema.fields.find? (·.name = name) with
      | none =>
        match Decoder.skip rest with
        | .error problem => .error problem
        | .ok rest => readObject schema fuel seen record rest
      | some field =>
        if name ∈ seen then .error .mismatch
        else
          match field.read record rest with
          | .error problem => .error problem
          | .ok (record, rest) => readObject schema fuel (name :: seen) record rest
    | _ => .error .malformed

/-- Read the rest of an array of which these fields have not been read. -/
def readArray : List (Field σ) → σ → Decoder σ
  | [], record, .endArray :: rest => .ok (record, rest)
  | [], _, _ => .error .malformed
  | field :: fields, record, .endArray :: rest =>
    if field.optional then readArray fields record (.endArray :: rest) else .error .mismatch
  | field :: fields, record, es =>
    match field.read record es with
    | .error problem => .error problem
    | .ok (record, rest) => readArray fields record rest

/-- Read a record. -/
def decode (schema : Schema σ) : Decoder σ
  | .beginObject :: rest => schema.readObject (rest.length + 1) [] schema.start rest
  | .beginArray :: rest => readArray schema.fields schema.start rest
  | es => .error (unexpected es)

/-- Read a record from the front of a text; what follows the record does not matter. -/
def decodeFront (schema : Schema σ) (text : String) : Except Problem σ :=
  (schema.decode (events text)).map (·.1)

/-- Read a text that consists of a record. -/
def decodeAll (schema : Schema σ) (text : String) : Except Problem σ :=
  match schema.decode (events text) with
  | .error problem => .error problem
  | .ok (record, []) => .ok record
  | .ok (_, _ :: _) => .error .malformed

end Schema

end Ephemera.Json
