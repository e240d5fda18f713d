import LispFrontEnd.Decimal.Layout

/-! # Numbers

A number literal is a 64-bit integer or a binary64 float. An integer equals a float when the float
nearest to the integer does, so equality is exact only below `2 ^ 53`.
-/

namespace LispFrontEnd

inductive Number where
  | int (n : Int64)
  | float (x : Float)

namespace Number

def beq : Number → Number → Bool
  | .int a, .int b => a == b
  | .float x, .float y => x == y
  | .int n, .float x => Float.ofInt n.toInt == x
  | .float x, .int n => Float.ofInt n.toInt == x

instance : BEq Number := ⟨beq⟩

/-- Floats from `10 ^ (-4)` up to `10 ^ 16` are written positionally. -/
def style : Decimal.Style := ⟨-4, 16⟩

def isNegative : Float.Model.UnpackedFloat.Sign → Bool
  | .negative => true
  | .positive => false

/-- The shortest text that reads back as the float, and never as an integer. -/
def floatText (x : Float) : String :=
  let signed (sign : Float.Model.UnpackedFloat.Sign) (text : String) : String :=
    if isNegative sign then "-" ++ text else text
  match x.toModel.unpack with
  | .notANumber => "NaN"
  | .infinity sign => signed sign "inf"
  | .zero sign => signed sign "0.0"
  | .finite sign _ _ _ => signed sign (((Decimal.shortest? x).map (Decimal.text style)).getD "")

def text : Number → String
  | .int n => toString n.toInt
  | .float x => floatText x

/-- The integer that a float without fractional part stands for. -/
def integer? (x : Float) : Option Int :=
  match x.toModel.unpack with
  | .zero _ => some 0
  | .finite sign m q _ =>
    let unit := 1 <<< (-q).toNat
    if m % unit = 0 then
      let magnitude : Int := ((m / unit) <<< q.toNat : Nat)
      some (if isNegative sign then -magnitude else magnitude)
    else none
  | _ => none

/-- The 64-bit integer nearest to an integer. -/
def saturate (n : Int) : Int64 :=
  if n < Int64.minValue.toInt then Int64.minValue
  else if Int64.maxValue.toInt < n then Int64.maxValue
  else Int64.ofInt n

end Number

end LispFrontEnd
