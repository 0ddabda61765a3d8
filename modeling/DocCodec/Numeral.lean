/-
**Numbers from their texts.**

The text of a number with neither fraction nor exponent denotes an integer, which has to fit into
64 bits; every other text denotes the double nearest to it.  Both readers take any text, not only
the numbers of the JSON grammar: integers may have a plus sign and leading zeros, and doubles may
be named (`inf`, `infinity`, `nan`, in any case) and may lack the digits on one side of the point.

Main definitions:

* `DocCodec.Numeral.integer?` — **the 64-bit integer of a text**;
* `DocCodec.Numeral.exponentSize` — the size of an exponent, by its digits;
* `DocCodec.Numeral.Fraction` — a decimal fraction: a whole number of powers of ten;
* `DocCodec.Numeral.fraction?` — the decimal fraction that an unsigned text denotes;
* `DocCodec.Numeral.Fraction.magnitude` — its nearest double;
* `DocCodec.Numeral.double?` — **the double of a text**.

Main results:

* `DocCodec.Numeral.exponentSize_eq_value` — a small exponent has the size that its digits denote.
-/

import DocCodec.Binary64

set_option relaxedAutoImplicit false
set_option autoImplicit false

namespace DocCodec.Numeral

/-! ### Signs -/

/-- Whether a text has a minus sign in front, and the text without its sign. -/
def splitSign : Bytes → Bool × Bytes
  | [] => (false, [])
  | b :: rest =>
    if b = Ascii.minus then (true, rest)
    else if b = Ascii.plus then (false, rest)
    else (false, b :: rest)

/-! ### Integers -/

/-- Whether a text consists of digits, one at least. -/
def isDigits (text : Bytes) : Bool := !text.isEmpty && text.all Ascii.isDigit

/-- The natural number of a text that consists of digits. -/
def natural? (text : Bytes) : Option Nat :=
  if isDigits text then some (Decimal.value text) else none

/-- **The 64-bit integer of a text**: an optional sign and digits, within the range. -/
def integer? (text : Bytes) : Option Int64 :=
  let (negative, digits) := splitSign text
  match natural? digits with
  | none => none
  | some n =>
    if negative then
      if n ≤ 0x8000000000000000 then some (Int64.ofInt (-(n : Int))) else none
    else
      if n < 0x8000000000000000 then some (Int64.ofNat n) else none

/-! ### Exponents -/

/-- The size at which an exponent takes up no further digits. -/
def exponentLimit : Nat := 0x10000

/-- The size of an exponent, by its digits.  They are taken up one by one as long as the size is
below the limit, and passed over after that. -/
def exponentSize (digits : Bytes) : Nat :=
  digits.foldl (fun n b => if n < exponentLimit then 10 * n + (b.toNat - 48) else n) 0

/-- As long as a number stays below the limit, all of its digits are taken up. -/
theorem foldl_exponentSize (n : Nat) (digits : Bytes)
    (h : Decimal.valueFrom n digits < exponentLimit) :
    digits.foldl (fun n b => if n < exponentLimit then 10 * n + (b.toNat - 48) else n) n =
      Decimal.valueFrom n digits := by
  induction digits generalizing n with
  | nil => rfl
  | cons b digits ih =>
    have hn := Nat.lt_of_le_of_lt (Decimal.le_valueFrom n (b :: digits)) h
    rw [List.foldl_cons, if_pos hn]
    exact ih _ h

/-- A small exponent has the size that its digits denote. -/
theorem exponentSize_eq_value {digits : Bytes} (h : Decimal.value digits < exponentLimit) :
    exponentSize digits = Decimal.value digits := by
  rw [Decimal.value_eq_valueFrom] at h ⊢
  exact foldl_exponentSize 0 digits h

/-- The exponent that ends a text: nothing, or an exponent mark, an optional sign and digits. -/
def exponent? : Bytes → Option Int
  | [] => some 0
  | mark :: rest =>
    if Ascii.isExponentMark mark then
      let (negative, digits) := splitSign rest
      if isDigits digits then
        some (if negative then -(exponentSize digits : Int) else exponentSize digits)
      else none
    else none

/-! ### Decimal fractions -/

/-- A decimal fraction: `significand` times ten to the power of `exponent`. -/
structure Fraction where
  significand : Nat
  exponent : Int
  deriving DecidableEq, Repr

/-- The digits before and after the point of a text, and what follows them. -/
def splitPoint (text : Bytes) : Bytes × Bytes × Bytes :=
  let (whole, rest) := Decimal.span text
  match rest with
  | [] => (whole, [], [])
  | b :: rest' =>
    if b = Ascii.point then
      let (places, rest'') := Decimal.span rest'
      (whole, places, rest'')
    else (whole, [], rest)

/-- The decimal fraction that an unsigned text denotes: digits with an optional point, a digit on
one side of it at least, and an optional exponent. -/
def fraction? (text : Bytes) : Option Fraction :=
  let (whole, places, rest) := splitPoint text
  if whole = [] ∧ places = [] then none
  else
    (exponent? rest).map fun exponent =>
      ⟨Decimal.value (whole ++ places), exponent - places.length⟩

/-- The bit pattern of the double nearest to a decimal fraction.

Two cases are decided without the power of ten, which may be huge.  From an exponent of 310 on the
value is beyond all doubles.  And as ten to the power of `k` is at least two to the power of `3 *
k`, a value whose exponent is low enough for the number of its binary digits is below half the
least double. -/
def Fraction.magnitude (x : Fraction) : Nat :=
  if x.significand = 0 then 0
  else
    match x.exponent with
    | .ofNat k =>
      if 310 ≤ k then Binary64.infinity else Binary64.nearest (x.significand * Nat.pow 10 k) 1
    | .negSucc k =>
      if Nat.log2 x.significand + 1077 < 3 * (k + 1) then 0
      else Binary64.nearest x.significand (Nat.pow 10 (k + 1))

/-! ### Doubles -/

/-- Whether a text spells a lower-case name, in any case. -/
def spells (text : Bytes) (name : List Char) : Bool :=
  text.map Ascii.toLower == name.map Char.toUInt8

/-- The bit pattern of a magnitude that has a name. -/
def named? (text : Bytes) : Option Nat :=
  if spells text ['i', 'n', 'f'] || spells text ['i', 'n', 'f', 'i', 'n', 'i', 't', 'y'] then
    some Binary64.infinity
  else if spells text ['n', 'a', 'n'] then some 0x7FF8000000000000
  else none

/-- **The double of a text**: an optional sign, and a decimal fraction or the name of a magnitude.
-/
def double? (text : Bytes) : Option Binary64 :=
  let (negative, text) := splitSign text
  match named? text with
  | some magnitude => some (Binary64.ofMagnitude negative magnitude)
  | none => (fraction? text).map fun x => Binary64.ofMagnitude negative x.magnitude

end DocCodec.Numeral
