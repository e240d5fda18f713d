import LispFrontEnd.Decimal.Shortest

/-! # Writing decimals

A decimal is written positionally when the exponent of its first digit lies in a given range, and
with an exponent otherwise.
-/

namespace LispFrontEnd.Decimal

/-- Exponents of the first digit from `least` up to, but not with, `bound` are written
positionally. -/
structure Style where
  least : Int
  bound : Int

/-- Digits around a point, which never ends the text. -/
def positional (digits : List Char) (leading : Int) : List Char :=
  if leading < 0 then
    '0' :: '.' :: List.replicate (-leading - 1).toNat '0' ++ digits
  else
    let whole := leading.toNat + 1
    if digits.length ≤ whole then
      digits ++ List.replicate (whole - digits.length) '0' ++ ['.', '0']
    else digits.take whole ++ '.' :: digits.drop whole

/-- One digit before the point, which is left out when nothing follows it. -/
def scientific (digits : List Char) (leading : Int) : List Char :=
  let fraction := digits.drop 1
  digits.take 1 ++ (if fraction.isEmpty then [] else '.' :: fraction) ++
    'e' :: (toString leading).toList

def text (style : Style) (d : Decimal) : String :=
  let digits := Nat.toDigits 10 d.digits
  let leading := d.exponent + digits.length - 1
  String.ofList <|
    if style.least ≤ leading ∧ leading < style.bound then positional digits leading
    else scientific digits leading

end LispFrontEnd.Decimal
