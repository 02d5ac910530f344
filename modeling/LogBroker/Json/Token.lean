/-!
# The tokens of a JSON text

A JSON text is cut into tokens: the six marks, string literals, and words, which are the numbers
and the three names. Blanks separate tokens and mean nothing else.

`Token.lex` reads the tokens one character at a time (`Lexer.step`); `Token.spell` writes a token
down. A string literal is read into pieces first, characters and 16-bit units that escapes name.
Two units that form a surrogate pair are one character. Half a pair denotes no text, yet the literal
is well-formed: its token says `none`.
-/
namespace LogBroker.Json

/-- A blank of JSON: space, tab, line feed, return. -/
def isBlank (c : Char) : Bool := c = ' ' || c = '\t' || c = '\n' || c = '\r'

/-- One token. -/
inductive Token where
  | openArray | closeArray | openObject | closeObject | comma | colon
  /-- A string literal and the text it denotes, if it denotes one. -/
  | str (text : Option String)
  /-- A number or a name, as it is spelled. -/
  | word (literal : List Char)
  deriving DecidableEq, Repr

/-- The mark that a character is. -/
def mark? : Char → Option Token
  | '[' => some .openArray
  | ']' => some .closeArray
  | '\x7b' => some .openObject
  | '\x7d' => some .closeObject
  | ',' => some .comma
  | ':' => some .colon
  | _ => none

/-! ## Strings -/

/-- A part of a string literal: a character, or a 16-bit unit named by an escape. -/
inductive Piece where
  | char (c : Char)
  | unit (n : Nat)
  deriving DecidableEq, Repr

namespace Piece

/-- The first half of a surrogate pair. -/
def isHigh (n : Nat) : Bool := 0xD800 ≤ n && n ≤ 0xDBFF

/-- The second half of a surrogate pair. -/
def isLow (n : Nat) : Bool := 0xDC00 ≤ n && n ≤ 0xDFFF

/-- The character that a surrogate pair stands for. -/
def pair (high low : Nat) : Char := Char.ofNat (0x10000 + (high - 0xD800) * 0x400 + (low - 0xDC00))

/-- The text that pieces denote; `none` if half a surrogate pair stands alone. -/
def text? : List Piece → Option (List Char)
  | [] => some []
  | .char c :: rest => (text? rest).map (c :: ·)
  | .unit n :: .unit m :: rest =>
    if isHigh n && isLow m then (text? rest).map (pair n m :: ·)
    else if isHigh n || isLow n then none
    else (text? (.unit m :: rest)).map (Char.ofNat n :: ·)
  | .unit n :: rest =>
    if isHigh n || isLow n then none else (text? rest).map (Char.ofNat n :: ·)

end Piece

/-- The value of a hexadecimal digit. -/
def hexDigit? (c : Char) : Option Nat :=
  if '0' ≤ c ∧ c ≤ '9' then some (c.toNat - '0'.toNat)
  else if 'a' ≤ c ∧ c ≤ 'f' then some (c.toNat - 'a'.toNat + 10)
  else if 'A' ≤ c ∧ c ≤ 'F' then some (c.toNat - 'A'.toNat + 10)
  else none

/-- The character that a short escape stands for. -/
def shortEscape? : Char → Option Char
  | '"' => some '"'
  | '\\' => some '\\'
  | '/' => some '/'
  | 'b' => some '\x08'
  | 'f' => some '\x0c'
  | 'n' => some '\n'
  | 'r' => some '\r'
  | 't' => some '\t'
  | _ => none

/-! ## Reading -/

/-- What the reader is in the middle of. Parts read so far are kept last first. -/
inductive Mode where
  | between
  | word (read : List Char)
  | string (read : List Piece)
  /-- After a backslash. -/
  | escape (read : List Piece)
  /-- Inside a unit escape: digits to come after the next one, and the value so far. -/
  | unit (read : List Piece) (more value : Nat)
  deriving DecidableEq, Repr

/-- The reader: the tokens read so far, last first, and what it is in the middle of. -/
structure Lexer where
  read : List Token
  mode : Mode
  deriving DecidableEq, Repr

namespace Lexer

/-- A character outside strings and words: blank, mark, or the first of a string or word. -/
def begin (read : List Token) (c : Char) : Lexer :=
  if isBlank c then ⟨read, .between⟩
  else match mark? c with
    | some t => ⟨t :: read, .between⟩
    | none => ⟨read, if c = '"' then .string [] else .word [c]⟩

/-- Whether a character ends a word. -/
def isDelimiter (c : Char) : Bool := isBlank c || (mark? c).isSome || c = '"'

/-- The token for the pieces of a string literal, given last first. -/
def stringToken (read : List Piece) : Token :=
  .str ((Piece.text? read.reverse).map String.ofList)

/-- Reads one character; `none` where no JSON text can continue so. -/
def step (l : Lexer) (c : Char) : Option Lexer :=
  match l.mode with
  | .between => some (begin l.read c)
  | .word w =>
    if isDelimiter c then some (begin (.word w.reverse :: l.read) c)
    else some ⟨l.read, .word (c :: w)⟩
  | .string ps =>
    if c = '"' then some ⟨stringToken ps :: l.read, .between⟩
    else if c = '\\' then some ⟨l.read, .escape ps⟩
    else if c < ' ' then none
    else some ⟨l.read, .string (.char c :: ps)⟩
  | .escape ps =>
    if c = 'u' then some ⟨l.read, .unit ps 3 0⟩
    else (shortEscape? c).map fun e => ⟨l.read, .string (.char e :: ps)⟩
  | .unit ps more value =>
    (hexDigit? c).map fun d =>
      match more with
      | 0 => ⟨l.read, .string (.unit (value * 16 + d) :: ps)⟩
      | more + 1 => ⟨l.read, .unit ps more (value * 16 + d)⟩

/-- The tokens at the end of the text, unless it ends inside a string. -/
def finish (l : Lexer) : Option (List Token) :=
  match l.mode with
  | .between => some l.read.reverse
  | .word w => some (.word w.reverse :: l.read).reverse
  | _ => none

end Lexer

/-- The tokens of a text. -/
def Token.lex (cs : List Char) : Option (List Token) :=
  (cs.foldlM Lexer.step ⟨[], .between⟩).bind Lexer.finish

/-! ## Writing -/

/-- How a character is written in a string literal: quote and backslash behind a backslash,
controls by their short escape or, without one, by four hexadecimal digits. -/
def escape (c : Char) : List Char :=
  match c with
  | '"' => ['\\', '"']
  | '\\' => ['\\', '\\']
  | '\x08' => ['\\', 'b']
  | '\x0c' => ['\\', 'f']
  | '\n' => ['\\', 'n']
  | '\r' => ['\\', 'r']
  | '\t' => ['\\', 't']
  | c =>
    if c < ' ' then
      ['\\', 'u', '0', '0', Nat.digitChar (c.toNat / 16), Nat.digitChar (c.toNat % 16)]
    else [c]

/-- How a token is written. A string literal without a text is written as half a surrogate
pair. -/
def Token.spell : Token → List Char
  | openArray => ['[']
  | closeArray => [']']
  | openObject => ['\x7b']
  | closeObject => ['\x7d']
  | comma => [',']
  | colon => [':']
  | str (some s) => '"' :: s.toList.flatMap escape ++ ['"']
  | str none => ['"', '\\', 'u', 'd', '8', '0', '0', '"']
  | word literal => literal

end LogBroker.Json
