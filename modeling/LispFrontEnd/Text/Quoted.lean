/-! # Quoted strings

A string literal stands between double quotes. Line breaks, tabs, carriage returns, backslashes and
double quotes are written as two characters, all other characters as themselves.
-/

namespace LispFrontEnd.Text.Quoted

def escape : Char → List Char
  | '\n' => ['\\', 'n']
  | '\t' => ['\\', 't']
  | '\r' => ['\\', 'r']
  | '\\' => ['\\', '\\']
  | '"' => ['\\', '"']
  | c => [c]

def encode (text : List Char) : List Char :=
  '"' :: text.flatMap escape ++ ['"']

/-- The literal of a string. -/
def literal (text : String) : String :=
  String.ofList (encode text.toList)

end LispFrontEnd.Text.Quoted
