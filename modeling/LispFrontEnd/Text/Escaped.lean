import LispFrontEnd.Text.Shapeless

/-! # Escaped strings

A string in a diagnostic text stands between double quotes. Quotes, backslashes and the usual
controls are written with a backslash and a letter or digit, other characters without a shape of
their own by their code point.
-/

namespace LispFrontEnd.Text.Escaped

def escape (c : Char) : List Char :=
  match c with
  | '\x00' => ['\\', '0']
  | '\t' => ['\\', 't']
  | '\r' => ['\\', 'r']
  | '\n' => ['\\', 'n']
  | '"' => ['\\', '"']
  | '\\' => ['\\', '\\']
  | c =>
    if isShapeless c then
      ['\\', 'u', '\x7b'] ++ Nat.toDigits 16 c.toNat ++ ['\x7d']
    else [c]

def literal (text : String) : String :=
  String.ofList ('"' :: text.toList.flatMap escape ++ ['"'])

end LispFrontEnd.Text.Escaped
