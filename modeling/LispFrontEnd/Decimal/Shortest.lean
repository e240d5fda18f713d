/-! # Shortest decimals

`shortest? x` is the decimal with the fewest digits among those that read back as the finite
positive magnitude of `x`, and among these the nearest to it. Everything is exact arithmetic on the
binary significand and exponent; an exact tie between two neighbours goes to the larger one. Below a
power of two the next smaller float is only half as far away as the next larger one.
-/

namespace LispFrontEnd

/-- The number `digits * 10 ^ exponent`. -/
structure Decimal where
  digits : Nat
  exponent : Int
deriving DecidableEq

namespace Decimal

/-- The power of ten with an exponent, and one when the exponent is below zero. -/
def tens (exponent : Int) : Nat := Nat.pow 10 exponent.toNat

/-- A magnitude and the interval of reals that round to it, with its ends when `closed` holds, as
numerators over one denominator. -/
structure Interval where
  low : Nat
  value : Nat
  high : Nat
  denominator : Nat
  closed : Bool

/-- The interval around `m * 2 ^ q`, for a significand of 53 bits, or of fewer at the least
exponent. -/
def Interval.around (m : Nat) (q : Int) : Interval :=
  let down := if m = 1 <<< 52 ∧ -1074 < q then 1 else 2
  let up := (q - 2).toNat
  ⟨(4 * m - down) <<< up, (4 * m) <<< up, (4 * m + 2) <<< up, 1 <<< (2 - q).toNat, m % 2 = 0⟩

/-- Whether `n * 10 ^ e` lies in the interval. -/
def Interval.contains (i : Interval) (n : Nat) (e : Int) : Bool :=
  let candidate := n * tens e * i.denominator
  let scale := tens (-e)
  let low := i.low * scale
  let high := i.high * scale
  if i.closed then low ≤ candidate && candidate ≤ high else low < candidate && candidate < high

/-- How many digits the value has before its point, counted below zero for the zeros that follow the
point. -/
def Interval.magnitude (i : Interval) : Int :=
  -- No positive float is less than `10 ^ (-324)`.
  (Nat.toDigits 10 (i.value * tens 324 / i.denominator)).length - 324

/-- The best decimal of `count` digits in the interval, if there is one. -/
def Interval.ofDigitCount? (i : Interval) (count : Nat) : Option Decimal :=
  let e := i.magnitude - count
  let unit := tens e * i.denominator
  let value := i.value * tens (-e)
  let below := value / unit
  let above := below + 1
  let upper : Decimal := if above = tens count then ⟨1, e + count⟩ else ⟨above, e⟩
  match i.contains below e, i.contains above e with
  | true, true => if 2 * (value % unit) < unit then some ⟨below, e⟩ else some upper
  | true, false => some ⟨below, e⟩
  | false, true => some upper
  | false, false => none

/-- Seventeen digits always suffice for a significand of 53 bits. -/
def Interval.shortest? (i : Interval) : Option Decimal :=
  (List.range' 1 17).findSome? i.ofDigitCount?

/-- The shortest decimal of the magnitude of a finite float other than zero. -/
def shortest? (x : Float) : Option Decimal :=
  match x.toModel.unpack with
  | .finite _ m q _ => (Interval.around m q).shortest?
  | _ => none

end Decimal

end LispFrontEnd
