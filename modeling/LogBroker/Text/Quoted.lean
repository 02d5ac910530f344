import LogBroker.Text.Visible

/-!
# Quoted text

How inspection shows a text: between double quotes, with an escape for everything that does not
show as itself. Zero, tab, return, line feed, quote and backslash have short escapes; any other
invisible character is written by its code point, `\u` with the hexadecimal digits in braces.
-/
namespace LogBroker.Text.Quoted

/-- The code point of a character in lowercase hexadecimal. -/
def codePoint (c : Char) : List Char := Nat.toDigits 16 c.toNat

/-- How one character is written between quotes. -/
def escape (c : Char) : List Char :=
  match c with
  | '\x00' => ['\\', '0']
  | '\t' => ['\\', 't']
  | '\r' => ['\\', 'r']
  | '\n' => ['\\', 'n']
  | '"' => ['\\', '"']
  | '\\' => ['\\', '\\']
  | c => if Visible.isVisible c then [c] else ['\\', 'u', '\x7b'] ++ codePoint c ++ ['\x7d']

/-- The text between quotes. -/
def quote (s : String) : String :=
  String.ofList ('"' :: s.toList.flatMap escape ++ ['"'])

/-- Items separated by commas between an opening and a closing mark. -/
def enclose (opening closing : String) (items : List String) : String :=
  opening ++ ", ".intercalate items ++ closing

end LogBroker.Text.Quoted
