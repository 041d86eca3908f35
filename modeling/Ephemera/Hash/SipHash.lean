/-! # SipHash

The keyed hash SipHash-c-d on sequences of bytes: a state of four words is mixed by `c` rounds for
every eight bytes of the message and by `d` rounds at the end. The last word carries the remaining
bytes and, in its top byte, the length of the message.
-/

namespace Ephemera.SipHash

/-- The state of the hash. -/
structure State where
  v0 : UInt64
  v1 : UInt64
  v2 : UInt64
  v3 : UInt64
  deriving DecidableEq, Repr

/-- Rotation to the left; `bits` is between 1 and 63. -/
def rotate (x : UInt64) (bits : UInt64) : UInt64 :=
  (x <<< bits) ||| (x >>> (64 - bits))

/-- One round. -/
def State.round (s : State) : State :=
  let v0 := s.v0 + s.v1
  let v1 := rotate s.v1 13 ^^^ v0
  let v0 := rotate v0 32
  let v2 := s.v2 + s.v3
  let v3 := rotate s.v3 16 ^^^ v2
  let v0 := v0 + v3
  let v3 := rotate v3 21 ^^^ v0
  let v2 := v2 + v1
  let v1 := rotate v1 17 ^^^ v2
  let v2 := rotate v2 32
  { v0, v1, v2, v3 }

/-- Several rounds. -/
def State.rounds (n : Nat) (s : State) : State :=
  n.repeat State.round s

/-- Mix one word of the message in with `c` rounds. -/
def State.absorb (c : Nat) (s : State) (word : UInt64) : State :=
  let s := State.rounds c { s with v3 := s.v3 ^^^ word }
  { s with v0 := s.v0 ^^^ word }

/-- The word whose bytes are given, the lowest first. -/
def word (bytes : List UInt8) : UInt64 :=
  bytes.foldr (fun b w => w <<< 8 ||| b.toUInt64) 0

/-- Absorb the message in words of eight bytes, then the rest with the length. -/
def absorbAll (c : Nat) (length : Nat) : State → List UInt8 → State
  | s, b0 :: b1 :: b2 :: b3 :: b4 :: b5 :: b6 :: b7 :: rest =>
    absorbAll c length (s.absorb c (word [b0, b1, b2, b3, b4, b5, b6, b7])) rest
  | s, rest => s.absorb c (word rest ||| UInt64.ofNat (length % 256) <<< 56)

/-- SipHash-c-d of a message under the key `(k0, k1)`. -/
def hash (c d : Nat) (k0 k1 : UInt64) (message : List UInt8) : UInt64 :=
  let start : State :=
    { v0 := k0 ^^^ 0x736f6d6570736575
      v1 := k1 ^^^ 0x646f72616e646f6d
      v2 := k0 ^^^ 0x6c7967656e657261
      v3 := k1 ^^^ 0x7465646279746573 }
  let s := absorbAll c message.length start message
  let s := State.rounds d { s with v2 := s.v2 ^^^ 0xff }
  s.v0 ^^^ s.v1 ^^^ s.v2 ^^^ s.v3

end Ephemera.SipHash
