/-
**Double-precision numbers as bit patterns.**

A double is kept as its 64 bits, and all that is asked about it is answered in exact natural
numbers.  Every finite magnitude is a whole number of units of 2⁻¹⁰⁷⁴, the least positive one: a
significand below 2⁵³ shifted left by at most 2045 places.  In these units the two conversions
with decimal text are each one rounding of a quotient, to the nearest, a half to the even
neighbour: a quotient of naturals to a significand for a given shift, and a magnitude to whole
millionths.

Main definitions:

* `DocCodec.Binary64` — a double;
* `DocCodec.Binary64.units` — **the magnitude of a finite double**, in units of 2⁻¹⁰⁷⁴;
* `DocCodec.roundDiv` — a quotient rounded to the nearest whole number, a half to the even one;
* `DocCodec.Binary64.nearest` — **the double nearest to a quotient**, infinite above the largest
  one;
* `DocCodec.Binary64.sixPlaces` — the text of a finite double with six decimal places;
* `DocCodec.Binary64.equals` — comparison as numbers: a NaN differs from everything, and zeros are
  equal.
-/

import DocCodec.Decimal

set_option relaxedAutoImplicit false
set_option autoImplicit false

namespace DocCodec

/-- A double-precision number. -/
structure Binary64 where
  /-- Sign, eleven bits of exponent, 52 bits of fraction, from the most significant bit down. -/
  bits : UInt64
  deriving DecidableEq, Repr

/-- A quotient rounded to the nearest whole number, a half to the even one. -/
def roundDiv (numerator denominator : Nat) : Nat :=
  let quotient := numerator / denominator
  let twice := 2 * (numerator % denominator)
  if twice < denominator ∨ (twice = denominator ∧ quotient % 2 = 0) then quotient else quotient + 1

namespace Binary64

/-! ### Fields -/

/-- The bit pattern of the magnitude: all but the sign. -/
def magnitude (x : Binary64) : Nat := x.bits.toNat % 0x8000000000000000

/-- Whether the sign is negative. -/
def isNegative (x : Binary64) : Bool := decide (0x8000000000000000 ≤ x.bits.toNat)

/-- The exponent field. -/
def exponent (x : Binary64) : Nat := x.magnitude / 0x10000000000000

/-- The fraction field. -/
def fraction (x : Binary64) : Nat := x.magnitude % 0x10000000000000

/-- The magnitude of the infinities. -/
def infinity : Nat := 0x7FF0000000000000

/-- Whether a double is a number and not infinite. -/
def isFinite (x : Binary64) : Bool := decide (x.magnitude < infinity)

/-- Whether a double is not a number. -/
def isNaN (x : Binary64) : Bool := decide (infinity < x.magnitude)

/-- The double of a sign and the bit pattern of a magnitude. -/
def ofMagnitude (negative : Bool) (magnitude : Nat) : Binary64 :=
  ⟨UInt64.ofNat (if negative then 0x8000000000000000 + magnitude else magnitude)⟩

/-! ### Value -/

/-- **The magnitude of a finite double**, in units of 2⁻¹⁰⁷⁴.  An exponent field of zero means
that the significand has no leading one; it has the same unit as the field one. -/
def units (x : Binary64) : Nat :=
  if x.exponent = 0 then x.fraction else (0x10000000000000 + x.fraction) <<< (x.exponent - 1)

/-- Comparison as numbers: a NaN differs from everything, itself included, and the two zeros are
equal. -/
def equals (x y : Binary64) : Bool :=
  !x.isNaN && !y.isNaN && (decide (x.bits = y.bits) || decide (x.magnitude = 0 ∧ y.magnitude = 0))

/-! ### Rounding to a double -/

/-- The bit pattern of the magnitude nearest to a quotient, a half to the even neighbour, and
infinity if it rounds to 2¹⁰²⁴ or more.

The shift is the least that leaves the quotient, in units of 2⁻¹⁰⁷⁴, a significand of 53 bits.
Exponent and fraction fields lie side by side, so a significand that is rounded up to 2⁵³ carries
into the exponent by itself. -/
def nearest (numerator denominator : Nat) : Nat :=
  let scaled := numerator <<< 1074
  let shift := Nat.log2 (scaled / denominator) - 52
  Nat.min infinity (shift <<< 52 + roundDiv scaled (denominator <<< shift))

/-! ### Text with six places -/

/-- How many millionths a finite double has, rounded to the nearest, a half to the even neighbour.
-/
def millionths (x : Binary64) : Nat := roundDiv (x.units * 1000000) (1 <<< 1074)

/-- The text of a finite double with six decimal places.  The sign is written whenever it is set,
also if all digits are zeros. -/
def sixPlaces (x : Binary64) : Bytes :=
  let count := x.millionths
  (if x.isNegative then [Ascii.minus] else []) ++
    Decimal.ofNat (count / 1000000) ++ Ascii.point :: Decimal.padded 6 (count % 1000000)

end Binary64

end DocCodec
