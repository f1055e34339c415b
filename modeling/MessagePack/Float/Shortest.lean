import MessagePack.Float.Binary

/-! # The shortest decimal text of a double

The text of a finite number has the fewest digits that read back as the same
number; of several such digit strings it takes the nearest to the number.

* `Decimal` is a digit string with the power of ten of its last digit.
* `Double.shortest` tries one to seventeen digits.  The grid of `k` digits has
  two points next to the number; the first grid with a point that reads back wins.
* `Double.text` writes the result: positional from `0.0001` up to sixteen digits
  before the point, with an exponent otherwise.
-/

namespace MessagePack

/-- The number `digits * 10 ^ exponent`. -/
structure Decimal where
  digits : Nat
  exponent : Int
  deriving DecidableEq, Repr

namespace Double

/-- The multiple of `2 ^ -1076` that a finite number is. -/
def quarterUnits (bits : DoubleBits) : Nat := significand bits * Nat.pow 2 (power bits) * 4

/-- The distance, in the same unit, up to which larger numbers round to this one. -/
def gapAbove (bits : DoubleBits) : Nat := 2 * Nat.pow 2 (power bits)

/-- The distance up to which smaller numbers round to this one: half as much at the bottom
of a binade. -/
def gapBelow (bits : DoubleBits) : Nat :=
  if fraction bits = 0 ∧ exponent bits > 1 then Nat.pow 2 (power bits) else gapAbove bits

/-- The decimal, over a common denominator with `quarterUnits`: the pair of both. -/
def align (bits : DoubleBits) (d : Decimal) : Nat × Nat :=
  if d.exponent ≥ 0 then
    (quarterUnits bits, d.digits * Nat.pow 10 d.exponent.toNat * Nat.pow 2 1076)
  else
    (quarterUnits bits * Nat.pow 10 (-d.exponent).toNat, d.digits * Nat.pow 2 1076)

/-- The factor by which `align` enlarges the unit of `quarterUnits`. -/
def unitFactor (d : Decimal) : Nat :=
  if d.exponent ≥ 0 then 1 else Nat.pow 10 (-d.exponent).toNat

/-- The decimal rounds to the number of these bits, whose interval holds its ends if the
significand is even. -/
def readsBack (bits : DoubleBits) (d : Decimal) : Bool :=
  let (exact, decimal) := align bits d
  let factor := unitFactor d
  let above := gapAbove bits * factor
  let below := gapBelow bits * factor
  if significand bits % 2 = 0 then
    exact ≤ decimal + below && decimal ≤ exact + above
  else
    exact < decimal + below && decimal < exact + above

/-- How far the decimal is from the number, in a unit common to one power of ten. -/
def distance (bits : DoubleBits) (d : Decimal) : Nat :=
  let (exact, decimal) := align bits d
  if exact ≤ decimal then decimal - exact else exact - decimal

/-- The number of decimal places before the point; at most zero for a number below one tenth. -/
def magnitude10 (bits : DoubleBits) : Int :=
  let whole := quarterUnits bits / Nat.pow 2 1076
  if whole > 0 then (Nat.toDigits 10 whole).length
  else
    let scaled := quarterUnits bits * Nat.pow 10 330 / Nat.pow 2 1076
    ((Nat.toDigits 10 scaled).length : Int) - 330

/-- The largest point of the grid of the given power of ten that is not above the number. -/
def gridBelow (bits : DoubleBits) (exponent : Int) : Decimal :=
  let units := quarterUnits bits
  if exponent ≥ 0 then ⟨units / (Nat.pow 2 1076 * Nat.pow 10 exponent.toNat), exponent⟩
  else ⟨units * Nat.pow 10 (-exponent).toNat / Nat.pow 2 1076, exponent⟩

/-- The point of the grid nearest to the number among those that read back, the even one in
a tie. -/
def onGrid? (bits : DoubleBits) (exponent : Int) : Option Decimal :=
  let lower := gridBelow bits exponent
  let upper : Decimal := ⟨lower.digits + 1, exponent⟩
  match readsBack bits lower, readsBack bits upper with
  | false, false => none
  | true, false => some lower
  | false, true => some upper
  | true, true =>
    let toLower := distance bits lower
    let toUpper := distance bits upper
    if toLower < toUpper then some lower
    else if toUpper < toLower then some upper
    else if lower.digits % 2 = 0 then some lower else some upper

/-- The coarsest grid with a point that reads back, from `places` digits on. -/
def shortestFrom (bits : DoubleBits) (top : Int) : Nat → Nat → Decimal
  | 0, places => gridBelow bits (top - places)
  | tries + 1, places =>
    match onGrid? bits (top - places) with
    | some d => d
    | none => shortestFrom bits top tries (places + 1)

/-- The shortest decimal that reads back as the number of these bits. -/
def shortest (bits : DoubleBits) : Decimal := shortestFrom bits (magnitude10 bits) 17 1

end Double

namespace Decimal

/-- The same number without zeros at the end of its digits. -/
def trim (d : Decimal) : Nat → Decimal
  | 0 => d
  | steps + 1 =>
    if d.digits ≠ 0 ∧ d.digits % 10 = 0 then trim ⟨d.digits / 10, d.exponent + 1⟩ steps else d

/-- The digits before and after the point. -/
def positional (digits : List Char) (point : Int) : List Char :=
  if point ≤ 0 then ['0', '.'] ++ List.replicate (-point).toNat '0' ++ digits
  else
    let whole := point.toNat
    if digits.length ≤ whole then
      digits ++ List.replicate (whole - digits.length) '0' ++ ['.', '0']
    else digits.take whole ++ ['.'] ++ digits.drop whole

/-- One digit before the point, and an exponent of at least two digits. -/
def scientific (digits : List Char) (point : Int) : List Char :=
  let exponent := point - 1
  let mantissa := match digits with
    | [] => []
    | [d] => [d]
    | d :: rest => d :: '.' :: rest
  let size := Nat.toDigits 10 exponent.natAbs
  mantissa ++ ['e', if exponent < 0 then '-' else '+'] ++
    List.replicate (2 - size.length) '0' ++ size

/-- Positional if the exponent of the first digit is from -4 to 15, with an exponent otherwise. -/
def text (d : Decimal) : List Char :=
  let d := d.trim 20
  let digits := Nat.toDigits 10 d.digits
  let point := d.exponent + digits.length
  if -4 < point ∧ point ≤ 16 then positional digits point else scientific digits point

end Decimal

/-- The text of a double. -/
def Double.text (bits : DoubleBits) : String :=
  let minus := if sign bits = 1 then ['-'] else []
  if isNaN bits then "nan"
  else if exponent bits = 2047 then String.ofList (minus ++ ['i', 'n', 'f'])
  else if isZero bits then String.ofList (minus ++ ['0', '.', '0'])
  else String.ofList (minus ++ (shortest bits).text)

end MessagePack
