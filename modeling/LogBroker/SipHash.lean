/-!
# SipHash-1-3

The keyed 64-bit hash SipHash with one round for each word of the message and three rounds at the
end. A message is read as little-endian 64-bit words; the last word holds the bytes that are left
over and, in its top byte, the message's length modulo 256.
-/
namespace LogBroker.SipHash

/-- The four words of internal state. -/
structure State where
  v0 : UInt64
  v1 : UInt64
  v2 : UInt64
  v3 : UInt64
  deriving DecidableEq, Repr

/-- `x` rotated to the left by `n` bits, for `n` from 1 to 63. -/
def rotateLeft (x n : UInt64) : UInt64 := (x <<< n) ||| (x >>> (64 - n))

/-- The state for the key made of the two words. -/
def init (k0 k1 : UInt64) : State where
  v0 := k0 ^^^ 0x736f6d6570736575
  v1 := k1 ^^^ 0x646f72616e646f6d
  v2 := k0 ^^^ 0x6c7967656e657261
  v3 := k1 ^^^ 0x7465646279746573

/-- One round: two half-mixes of the four words. -/
def round (s : State) : State :=
  let a0 := s.v0 + s.v1
  let a1 := rotateLeft s.v1 13 ^^^ a0
  let a2 := s.v2 + s.v3
  let a3 := rotateLeft s.v3 16 ^^^ a2
  let b0 := rotateLeft a0 32 + a3
  let b2 := a2 + a1
  { v0 := b0
    v1 := rotateLeft a1 17 ^^^ b2
    v2 := rotateLeft b2 32
    v3 := rotateLeft a3 21 ^^^ b0 }

/-- Takes in one word of the message. -/
def absorb (s : State) (word : UInt64) : State :=
  let t := round { s with v3 := s.v3 ^^^ word }
  { t with v0 := t.v0 ^^^ word }

/-- The word with the given bytes, least significant first. -/
def word (bytes : List UInt8) : UInt64 :=
  bytes.foldr (fun b acc => (acc <<< 8) ||| b.toUInt64) 0

/-- The words of a message of `length` bytes, from what is left of it. -/
def words (length : Nat) : List UInt8 → List UInt64
  | b0 :: b1 :: b2 :: b3 :: b4 :: b5 :: b6 :: b7 :: rest =>
    word [b0, b1, b2, b3, b4, b5, b6, b7] :: words length rest
  | rest => [word rest ||| (UInt64.ofNat length <<< 56)]

/-- The hash that three closing rounds make of a state. -/
def finish (s : State) : UInt64 :=
  let t := round (round (round { s with v2 := s.v2 ^^^ 0xff }))
  t.v0 ^^^ t.v1 ^^^ t.v2 ^^^ t.v3

/-- The SipHash-1-3 of a message under the key made of the two words. -/
def hash (k0 k1 : UInt64) (bytes : List UInt8) : UInt64 :=
  finish ((words bytes.length bytes).foldl absorb (init k0 k1))

end LogBroker.SipHash
