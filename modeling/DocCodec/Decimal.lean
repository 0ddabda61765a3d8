/-
**Decimal numerals of whole numbers.**

Integers are written in full without leading zeros, and fractions with a fixed number of places; a
string of digits is read as the number that it denotes, leading zeros included.

Main definitions:

* `DocCodec.Decimal.ofNat`, `DocCodec.Decimal.ofInt` — the numeral of a number;
* `DocCodec.Decimal.padded` — the last digits of a number, a fixed count of them;
* `DocCodec.Decimal.ofDigits` — the number that has given digits in a base;
* `DocCodec.Decimal.value` — the number that a string of digits denotes.

Main results:

* `DocCodec.Decimal.value_eq_valueFrom` — the digits of a text may be taken up one by one;
* `DocCodec.Decimal.value_ofNat` — a numeral denotes the number that it was written for.
-/

import DocCodec.Ascii
import DocCodec.Bytes

set_option relaxedAutoImplicit false
set_option autoImplicit false

namespace DocCodec.Decimal

/-! ### Writing -/

/-- The numeral of a natural number. -/
def ofNat (n : Nat) : Bytes := (Nat.toDigits 10 n).map Char.toUInt8

/-- The numeral of an integer. -/
def ofInt : Int → Bytes
  | .ofNat n => ofNat n
  | .negSucc n => Ascii.minus :: ofNat (n + 1)

/-- The last `count` digits of a number, leading zeros included. -/
def padded : Nat → Nat → Bytes
  | 0, _ => []
  | count + 1, n => padded count (n / 10) ++ [UInt8.ofNat (48 + n % 10)]

@[simp] theorem length_padded (count n : Nat) : (padded count n).length = count := by
  induction count generalizing n with
  | zero => rfl
  | succ count ih => simp [padded, ih]

/-! ### Reading -/

/-- The digits in the square of a base of the number that has the given digits in the base, least
significant first: two neighbours become one digit. -/
def joinPairs (base : Nat) : List Nat → List Nat
  | low :: high :: rest => (low + base * high) :: joinPairs base rest
  | digits => digits

theorem length_joinPairs_le (base : Nat) (digits : List Nat) :
    (joinPairs base digits).length ≤ digits.length := by
  fun_induction joinPairs base digits with
  | case1 low high rest ih =>
    simp only [List.length_cons]
    omega
  | case2 => exact Nat.le_refl _

/-- The number that has the given digits in a base, least significant first.

Neighbours are joined until one digit is left.  The factors of a product are then about equally
long, which keeps the reading of very long texts cheap. -/
def ofDigits (base : Nat) (digits : List Nat) : Nat :=
  match digits with
  | [] => 0
  | [digit] => digit
  | low :: high :: rest => ofDigits (base * base) (joinPairs base (low :: high :: rest))
termination_by digits.length
decreasing_by
  have := length_joinPairs_le base rest
  simp only [joinPairs, List.length_cons]
  omega

/-- Joining neighbours keeps the number, where each digit adds to `base` times the digits above. -/
theorem foldr_joinPairs (base : Nat) (digits : List Nat) :
    (joinPairs base digits).foldr (fun digit n => digit + base * base * n) 0 =
      digits.foldr (fun digit n => digit + base * n) 0 := by
  fun_induction joinPairs base digits with
  | case1 low high rest ih =>
    simp only [List.foldr_cons, ih]
    simp only [Nat.mul_add, Nat.mul_assoc, Nat.add_assoc]
  | case2 digits h =>
    match digits with
    | [] => rfl
    | [digit] => rfl
    | low :: high :: rest => exact absurd rfl (h low high rest)

/-- Each digit adds to `base` times the number of the digits above it. -/
theorem ofDigits_eq_foldr (base : Nat) (digits : List Nat) :
    ofDigits base digits = digits.foldr (fun digit n => digit + base * n) 0 := by
  fun_induction ofDigits base digits with
  | case1 => rfl
  | case2 => simp
  | case3 base low high rest ih => rw [ih, foldr_joinPairs]

/-- The number that a string of digits denotes. -/
def value (digits : Bytes) : Nat := ofDigits 10 (digits.reverse.map fun b => b.toNat - 48)

/-- The number of a string of digits that continues the digits of `n`. -/
def valueFrom (n : Nat) (digits : Bytes) : Nat :=
  digits.foldl (fun n b => 10 * n + (b.toNat - 48)) n

/-- The digits of a text may be taken up one by one. -/
theorem value_eq_valueFrom (digits : Bytes) : value digits = valueFrom 0 digits := by
  simp only [value, valueFrom, ofDigits_eq_foldr, List.foldr_map, List.foldr_reverse, Nat.add_comm]

/-- Further digits make a number no smaller. -/
theorem le_valueFrom (n : Nat) (digits : Bytes) : n ≤ valueFrom n digits := by
  induction digits generalizing n with
  | nil => exact Nat.le_refl _
  | cons b digits ih => exact Nat.le_trans (by omega) (ih (10 * n + (b.toNat - 48)))

theorem toNat_toUInt8_of_isDigit {c : Char} (h : c.isDigit = true) :
    c.toUInt8.toNat = c.toNat := by
  have hc : c.val ≤ '9'.val := by
    simp only [Char.isDigit, Bool.and_eq_true, decide_eq_true_eq] at h
    exact h.2
  have hn : c.toNat ≤ 57 := UInt32.le_iff_toNat_le.1 hc
  change c.val.toUInt8.toNat = c.val.toNat
  rw [UInt32.toNat_toUInt8]
  exact Nat.mod_eq_of_lt (Nat.lt_of_le_of_lt hn (by decide))

/-- Digits as bytes denote what they denote as characters. -/
theorem valueFrom_map_toUInt8 (n : Nat) (digits : List Char)
    (h : ∀ c ∈ digits, c.isDigit = true) :
    valueFrom n (digits.map Char.toUInt8) = Nat.ofDigitChars 10 digits n := by
  induction digits generalizing n with
  | nil => rfl
  | cons c digits ih =>
    have hc := toNat_toUInt8_of_isDigit (h c (by simp))
    have hdigits := ih (10 * n + (c.toNat - 48)) fun c hc => h c (by simp [hc])
    simp only [valueFrom, List.map_cons, List.foldl_cons, hc, Nat.ofDigitChars_cons] at hdigits ⊢
    exact hdigits

/-- The numeral of a number denotes it. -/
@[simp] theorem value_ofNat (n : Nat) : value (ofNat n) = n := by
  unfold ofNat
  rw [value_eq_valueFrom, valueFrom_map_toUInt8 _ _ fun c hc =>
    Nat.isDigit_of_mem_toDigits (by decide) (by decide) hc]
  exact Nat.ofDigitChars_toDigits (by decide) (by decide)

/-- The leading digits of a text, and what follows them. -/
def span (text : Bytes) : Bytes × Bytes :=
  (text.takeWhile Ascii.isDigit, text.dropWhile Ascii.isDigit)

end DocCodec.Decimal
