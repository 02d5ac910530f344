/-!
# UTF-8

`encode` gives the bytes of a text. Reading bytes has to deal with those that are no text. A byte is
read against what the bytes before it still ask for: how many continuation bytes are missing, and
which values the next of them may take. The ranges are those of the Unicode table of well-formed
sequences, so overlong forms, surrogates and values past `U+10FFFF` never get started.

* `decode` cuts a byte sequence into characters and ill-formed pieces. A piece is as long as
  a well-formed sequence could still have continued, so every piece is a maximal one.
* `lossy` puts one replacement character for each ill-formed piece.
* `text?` gives the text only if there is no such piece.
-/
namespace LogBroker.Text.Utf8

/-- The bytes of a text. -/
def encode (s : String) : List UInt8 := s.toList.flatMap String.utf8EncodeChar

/-- A sequence under way: the continuation bytes it still needs, the values the next of them may
take, and the bits read so far. -/
structure Pending where
  missing : Nat
  low : UInt8
  high : UInt8
  bits : Nat
  deriving DecidableEq, Repr

/-- What the first byte of a sequence asks for; `none` for a byte that starts no sequence. -/
def lead (b : UInt8) : Option Pending :=
  if b ≤ 0x7F then some ⟨0, 0x80, 0xBF, b.toNat⟩
  else if 0xC2 ≤ b ∧ b ≤ 0xDF then some ⟨1, 0x80, 0xBF, b.toNat % 32⟩
  else if b = 0xE0 then some ⟨2, 0xA0, 0xBF, 0⟩
  else if b = 0xED then some ⟨2, 0x80, 0x9F, 13⟩
  else if 0xE1 ≤ b ∧ b ≤ 0xEF then some ⟨2, 0x80, 0xBF, b.toNat % 16⟩
  else if b = 0xF0 then some ⟨3, 0x90, 0xBF, 0⟩
  else if 0xF1 ≤ b ∧ b ≤ 0xF3 then some ⟨3, 0x80, 0xBF, b.toNat % 8⟩
  else if b = 0xF4 then some ⟨3, 0x80, 0x8F, 4⟩
  else none

/-- What a byte between two sequences yields: the finished pieces, and the sequence it opens. -/
def start (b : UInt8) : List (Option Char) × Option Pending :=
  match lead b with
  | none => ([none], none)
  | some p => if p.missing = 0 then ([some (Char.ofNat p.bits)], none) else ([], some p)

/-- One byte. Where it cannot continue the sequence under way, that sequence ends as an
ill-formed piece and the byte starts afresh. -/
def step (p : Pending) (b : UInt8) : List (Option Char) × Option Pending :=
  if p.low ≤ b ∧ b ≤ p.high then
    let bits := p.bits * 64 + b.toNat % 64
    if p.missing = 1 then ([some (Char.ofNat bits)], none)
    else ([], some ⟨p.missing - 1, 0x80, 0xBF, bits⟩)
  else (none :: (start b).1, (start b).2)

/-- The pieces of the bytes that follow a sequence under way; `none` marks an ill-formed piece. -/
def decodeFrom : Option Pending → List UInt8 → List (Option Char)
  | none, [] => []
  | some _, [] => [none]
  | none, b :: rest => (start b).1 ++ decodeFrom (start b).2 rest
  | some p, b :: rest => (step p b).1 ++ decodeFrom (step p b).2 rest

/-- The characters and the ill-formed pieces (`none`) of a byte sequence, in order. -/
def decode (bytes : List UInt8) : List (Option Char) := decodeFrom none bytes

/-- The text of the bytes with `U+FFFD` in place of every ill-formed piece. -/
def lossy (bytes : List UInt8) : String :=
  String.ofList ((decode bytes).map (·.getD '\uFFFD'))

/-- The text of the bytes, if they are well-formed throughout. -/
def text? (bytes : List UInt8) : Option String :=
  ((decode bytes).mapM id).map String.ofList

end LogBroker.Text.Utf8
