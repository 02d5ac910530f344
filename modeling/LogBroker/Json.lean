import LogBroker.Json.Token

/-!
# JSON values

A JSON text denotes a value: a tree of arrays and objects. An object keeps its members in the order
of the text, repeated names included, and a number keeps its spelling, so a reader of the value
decides what these mean.

`Json.tokens` and `Json.compact` write a value down without any blank. `Json.parse?` reads a text:
`Json.ofTokens?` builds the value with a stack of the arrays and objects that are open, so the
depth of a text has no bound.
-/
namespace LogBroker

/-- A JSON value. -/
inductive Json where
  | null
  | bool (b : Bool)
  /-- A number as it is spelled. -/
  | num (literal : List Char)
  /-- A string; `none` if its literal denotes no text. -/
  | str (text : Option String)
  | arr (items : List Json)
  | obj (members : List (Option String × Json))
  deriving Inhabited

namespace Json

/-- The number with the given value. -/
def ofNat (n : Nat) : Json := .num (Nat.toDigits 10 n)

/-- The number with the given value. -/
def ofInt : Int → Json
  | .ofNat n => ofNat n
  | .negSucc n => .num ('-' :: Nat.toDigits 10 (n + 1))

/-- The string with the given text. -/
def ofString (s : String) : Json := .str (some s)

/-- The object with the given members. -/
def object (members : List (String × Json)) : Json := .obj (members.map fun (k, v) => (some k, v))

/-- The number's value, if it is spelled with digits alone. -/
def natural? : Json → Option Nat
  | num literal => if literal.all Char.isDigit then some (Nat.ofDigitChars 10 literal 0) else none
  | _ => none

/-! ## Words -/

/-- What may follow the exponent's mark: a sign or none, then digits. -/
def isExponent (cs : List Char) : Bool :=
  let digits := match cs with
    | '+' :: rest => rest
    | '-' :: rest => rest
    | rest => rest
  !digits.isEmpty && digits.all Char.isDigit

/-- What may follow the digits of a number: nothing, or an exponent. -/
def isExponentPart : List Char → Bool
  | [] => true
  | c :: rest => (c = 'e' || c = 'E') && isExponent rest

/-- What may follow the whole part of a number: a fraction or none, then an exponent or none. -/
def isFractionPart : List Char → Bool
  | '.' :: rest =>
    !(rest.takeWhile Char.isDigit).isEmpty && isExponentPart (rest.dropWhile Char.isDigit)
  | rest => isExponentPart rest

/-- A number without its sign: the whole part is zero or starts with another digit. -/
def isUnsigned : List Char → Bool
  | [] => false
  | '0' :: rest => isFractionPart rest
  | c :: rest => c.isDigit && isFractionPart (rest.dropWhile Char.isDigit)

/-- Whether a word spells a number. -/
def isNumber : List Char → Bool
  | '-' :: rest => isUnsigned rest
  | word => isUnsigned word

/-- The value that a word spells. -/
def ofWord? (word : List Char) : Option Json :=
  if word = ['n', 'u', 'l', 'l'] then some .null
  else if word = ['t', 'r', 'u', 'e'] then some (.bool true)
  else if word = ['f', 'a', 'l', 's', 'e'] then some (.bool false)
  else if isNumber word then some (.num word)
  else none

/-! ## Writing -/

mutual

/-- The tokens of a value. -/
def tokens : Json → List Token
  | null => [.word ['n', 'u', 'l', 'l']]
  | bool true => [.word ['t', 'r', 'u', 'e']]
  | bool false => [.word ['f', 'a', 'l', 's', 'e']]
  | num literal => [.word literal]
  | str text => [.str text]
  | arr [] => [.openArray, .closeArray]
  | arr (v :: rest) => .openArray :: v.tokens ++ itemTokens rest ++ [.closeArray]
  | obj [] => [.openObject, .closeObject]
  | obj (m :: rest) => .openObject :: memberTokens m ++ memberListTokens rest ++ [.closeObject]
termination_by structural v => v

/-- The tokens of further items, each after a comma. -/
def itemTokens : List Json → List Token
  | [] => []
  | v :: rest => .comma :: v.tokens ++ itemTokens rest
termination_by structural vs => vs

/-- The tokens of further members, each after a comma. -/
def memberListTokens : List (Option String × Json) → List Token
  | [] => []
  | m :: rest => .comma :: memberTokens m ++ memberListTokens rest
termination_by structural ms => ms

/-- The tokens of one member. -/
def memberTokens : Option String × Json → List Token
  | (name, v) => .str name :: .colon :: v.tokens
termination_by structural m => m

end

/-- The value written down without blanks. -/
def compact (v : Json) : String := String.ofList (v.tokens.flatMap Token.spell)

/-! ## Reading -/

/-- An array or object that is open, with what it holds so far, last first. An object waits for
the value of a name. -/
inductive Frame where
  | array (items : List Json)
  | object (members : List (Option String × Json)) (name : Option String)

/-- What the reader expects next. -/
inductive Expectation where
  | value
  /-- The first item of an array, or its end. -/
  | itemOrEnd
  /-- The first name in an object, or its end. -/
  | nameOrEnd
  /-- A further name in an object that holds some members. -/
  | name (members : List (Option String × Json))
  /-- The colon after a name. -/
  | colon (members : List (Option String × Json)) (name : Option String)
  /-- What follows a value that is complete. -/
  | after (v : Json)

/-- The reader of values: what it expects, inside which open arrays and objects. -/
structure Reader where
  expects : Expectation
  inside : List Frame

namespace Reader

/-- The first token of a value. -/
def begin (t : Token) (inside : List Frame) : Option Reader :=
  match t with
  | .word w => (ofWord? w).map fun v => ⟨.after v, inside⟩
  | .str text => some ⟨.after (.str text), inside⟩
  | .openArray => some ⟨.itemOrEnd, inside⟩
  | .openObject => some ⟨.nameOrEnd, inside⟩
  | _ => none

/-- Reads one token; `none` where no value can continue so. -/
def step (r : Reader) (t : Token) : Option Reader :=
  match r.expects, t, r.inside with
  | .value, t, inside => begin t inside
  | .itemOrEnd, .closeArray, inside => some ⟨.after (.arr []), inside⟩
  | .itemOrEnd, t, inside => begin t (.array [] :: inside)
  | .nameOrEnd, .closeObject, inside => some ⟨.after (.obj []), inside⟩
  | .nameOrEnd, .str name, inside => some ⟨.colon [] name, inside⟩
  | .name members, .str name, inside => some ⟨.colon members name, inside⟩
  | .colon members name, .colon, inside => some ⟨.value, .object members name :: inside⟩
  | .after v, .comma, .array items :: inside => some ⟨.value, .array (v :: items) :: inside⟩
  | .after v, .closeArray, .array items :: inside =>
    some ⟨.after (.arr (v :: items).reverse), inside⟩
  | .after v, .comma, .object members name :: inside =>
    some ⟨.name ((name, v) :: members), inside⟩
  | .after v, .closeObject, .object members name :: inside =>
    some ⟨.after (.obj ((name, v) :: members).reverse), inside⟩
  | _, _, _ => none

/-- The value at the end of the tokens, if it is complete and nothing is left open. -/
def finish (r : Reader) : Option Json :=
  match r.expects, r.inside with
  | .after v, [] => some v
  | _, _ => none

end Reader

/-- The value with the given tokens. -/
def ofTokens? (ts : List Token) : Option Json :=
  (ts.foldlM Reader.step ⟨.value, []⟩).bind Reader.finish

/-- The value that a text denotes; `none` if the text is not JSON. -/
def parse? (text : String) : Option Json := (Token.lex text.toList).bind ofTokens?

end Json
end LogBroker
