/-! # Floating-point numbers as bit patterns

A double is given by its 64 bits and a single by its 32 bits: a sign, a biased
exponent and a fraction.  Conversions are integer arithmetic on the patterns.

* `Single.toDouble` is exact.
* `Double.toSingle?` rounds to the nearest single, ties to the even one, and
  fails where a finite number would round to an infinity.
* A NaN keeps its sign and the top of its payload both ways.
* `Double.isInt` compares with an integer exactly, and `Double.ofInt?` rounds an
  integer to the nearest double.
-/

namespace MessagePack

/-- The bits of a double. -/
abbrev DoubleBits := UInt64

/-- The bits of a single. -/
abbrev SingleBits := UInt32

/-- `n / 2 ^ shift`, rounded to the nearest integer, a tie to the even one. -/
def roundShift (n shift : Nat) : Nat :=
  let quotient := n / Nat.pow 2 shift
  let rest := 2 * (n % Nat.pow 2 shift)
  if rest > Nat.pow 2 shift ∨ (rest = Nat.pow 2 shift ∧ quotient % 2 = 1) then quotient + 1
  else quotient

namespace Double

/-- One for a negative number. -/
def sign (bits : DoubleBits) : Nat := bits.toNat / Nat.pow 2 63
/-- The biased exponent. -/
def exponent (bits : DoubleBits) : Nat := bits.toNat / Nat.pow 2 52 % Nat.pow 2 11
/-- The fraction. -/
def fraction (bits : DoubleBits) : Nat := bits.toNat % Nat.pow 2 52

/-- The significand of a finite number, as a multiple of `2 ^ power`. -/
def significand (bits : DoubleBits) : Nat :=
  if exponent bits = 0 then fraction bits else Nat.pow 2 52 + fraction bits

/-- The power of two that the significand counts, plus 1074. -/
def power (bits : DoubleBits) : Nat := max (exponent bits) 1 - 1

/-- Not a number. -/
def isNaN (bits : DoubleBits) : Bool := exponent bits = 2047 && fraction bits ≠ 0

/-- A zero of either sign. -/
def isZero (bits : DoubleBits) : Bool := exponent bits = 0 && fraction bits = 0

/-- Equality of numbers: NaN equals nothing, and the two zeros are equal. -/
def same (a b : DoubleBits) : Bool :=
  !isNaN a && !isNaN b && (a == b || (isZero a && isZero b))

/-- The number is the given integer. -/
def isInt (bits : DoubleBits) (n : Int) : Bool :=
  let units : Int := (significand bits * Nat.pow 2 (power bits) : Nat)
  exponent bits ≠ 2047 && (if sign bits = 1 then -units else units) = n * Nat.pow 2 1074

/-- The 63 bits of the magnitude of the double nearest to an integer, or `none` if that is too
large. -/
def magnitudeOfNat? (n : Nat) : Option Nat :=
  if n = 0 then some 0
  else
    let top := n.log2
    let leading := if top ≤ 52 then n * Nat.pow 2 (52 - top) else roundShift n (top - 52)
    let magnitude := (top + 1022) * Nat.pow 2 52 + leading
    if magnitude < 2047 * Nat.pow 2 52 then some magnitude else none

/-- The double nearest to an integer, unless that is too large. -/
def ofInt? (n : Int) : Option DoubleBits :=
  (magnitudeOfNat? n.natAbs).map fun magnitude =>
    UInt64.ofNat ((if n < 0 then Nat.pow 2 63 else 0) + magnitude)

/-- The 31 bits of the nearest single's magnitude, or `none` if that is too large. -/
def magnitude? (exponent fraction : Nat) : Option Nat :=
  if exponent = 2047 then
    if fraction = 0 then some (255 * Nat.pow 2 23)
    else some (255 * Nat.pow 2 23 + Nat.pow 2 22 + fraction / Nat.pow 2 29 % Nat.pow 2 22)
  else if exponent < 897 then
    let significand := if exponent = 0 then fraction else Nat.pow 2 52 + fraction
    some (roundShift significand (29 + (897 - max exponent 1)))
  else
    let rounded := (exponent - 896) * Nat.pow 2 23 + roundShift fraction 29
    if rounded < 255 * Nat.pow 2 23 then some rounded else none

/-- The nearest single, unless a finite number rounds to an infinity. -/
def toSingle? (bits : DoubleBits) : Option SingleBits :=
  (magnitude? (exponent bits) (fraction bits)).map fun magnitude =>
    UInt32.ofNat (sign bits * Nat.pow 2 31 + magnitude)

end Double

namespace Single

/-- One for a negative number. -/
def sign (bits : SingleBits) : Nat := bits.toNat / Nat.pow 2 31
/-- The biased exponent. -/
def exponent (bits : SingleBits) : Nat := bits.toNat / Nat.pow 2 23 % Nat.pow 2 8
/-- The fraction. -/
def fraction (bits : SingleBits) : Nat := bits.toNat % Nat.pow 2 23

/-- The 63 bits of the same magnitude as a double. -/
def magnitude (exponent fraction : Nat) : Nat :=
  if exponent = 255 then 2047 * Nat.pow 2 52 + fraction * Nat.pow 2 29
  else if exponent = 0 then
    if fraction = 0 then 0
    else
      let top := fraction.log2
      (top + 874) * Nat.pow 2 52 + (fraction - Nat.pow 2 top) * Nat.pow 2 (52 - top)
  else (exponent + 896) * Nat.pow 2 52 + fraction * Nat.pow 2 29

/-- The same number as a double.  A NaN keeps all its bits, also the one that makes it a signalling
one, where a conversion by the host may make it quiet. -/
def toDouble (bits : SingleBits) : DoubleBits :=
  UInt64.ofNat (sign bits * Nat.pow 2 63 + magnitude (exponent bits) (fraction bits))

end Single
end MessagePack
