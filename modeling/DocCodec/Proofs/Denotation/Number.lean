/-
**What numbers denote.**

A number of the grammar denotes an integer if it has neither a fraction nor an exponent, and a
decimal fraction otherwise.  The readers agree with this: the integer is read if it fits into 64
bits, and the fraction is read as the double nearest to it.

There is one reservation.  The digits of an exponent are taken up only as long as its size is below
65536, so what is read is a fraction with another exponent if there are more of them.  That fraction
has the same nearest double unless the number itself has tens of thousands of digits.

Main definitions:

* `DocCodec.Numeral.Fraction.IsNearest` — the double that a decimal fraction is rounded to;
* `DocCodec.Grammar.Number.integer`, `DocCodec.Grammar.Number.fraction` — **what a number denotes**;
* `DocCodec.Grammar.Number.fractionRead` — the fraction that is read.

Main results:

* `DocCodec.Numeral.Fraction.isNearest_magnitude` — a fraction is rounded to the nearest double;
* `DocCodec.Grammar.Number.integer?_bytes` — **the integer of a text**;
* `DocCodec.Grammar.Number.double?_bytes` — **the double of a text**;
* `DocCodec.Grammar.Number.isNearest_fraction` — it is the nearest one, unless the exponent is large
  and the number is long.
-/

import DocCodec.Numeral
import DocCodec.Proofs.Binary64.Nearest
import DocCodec.Proofs.Scanner.Number

set_option relaxedAutoImplicit false
set_option autoImplicit false

namespace DocCodec

/-! ### Digits -/

/-- Each digit makes room for ten times as many numbers. -/
theorem Decimal.valueFrom_lt (n : Nat) {digits : Bytes}
    (h : ∀ b ∈ digits, Ascii.isDigit b = true) :
    valueFrom n digits < (n + 1) * 10 ^ digits.length := by
  induction digits generalizing n with
  | nil => simp [valueFrom]
  | cons b digits ih =>
      have hb := h b (by simp)
      simp only [Ascii.isDigit, Bool.and_eq_true, decide_eq_true_eq, UInt8.le_iff_toNat_le] at hb
      have hdigit : b.toNat ≤ 57 := hb.2
      have hstep := ih (10 * n + (b.toNat - 48)) fun c hc => h c (by simp [hc])
      have hle : (10 * n + (b.toNat - 48) + 1) * 10 ^ digits.length ≤
          (n + 1) * 10 * 10 ^ digits.length := Nat.mul_le_mul_right _ (by omega)
      rw [List.length_cons, Nat.pow_succ', ← Nat.mul_assoc]
      exact Nat.lt_of_lt_of_le hstep hle

namespace Numeral

theorem le_foldl_exponentSize (n : Nat) (digits : Bytes)
    (h : exponentLimit ≤ n ∨ exponentLimit ≤ Decimal.valueFrom n digits) :
    exponentLimit ≤
      digits.foldl (fun n b => if n < exponentLimit then 10 * n + (b.toNat - 48) else n) n := by
  induction digits generalizing n with
  | nil => exact h.elim id id
  | cons b digits ih =>
      rw [List.foldl_cons]
      split
      · next hn => exact ih _ (.inr (h.resolve_left (Nat.not_le_of_lt hn)))
      · next hn => exact ih n (.inl (Nat.le_of_not_lt hn))

/-- A large exponent is read as a large one. -/
theorem exponentLimit_le_exponentSize {digits : Bytes}
    (h : exponentLimit ≤ Decimal.value digits) : exponentLimit ≤ exponentSize digits := by
  rw [Decimal.value_eq_valueFrom] at h
  exact le_foldl_exponentSize 0 digits (.inr h)

end Numeral

/-! ### Decimal fractions and their nearest doubles -/

namespace Numeral.Fraction

/-- The numerator of a fraction, with the powers of ten that it has above one. -/
def numerator (x : Fraction) : Nat := x.significand * 10 ^ x.exponent.toNat

/-- The denominator of a fraction: the powers of ten that it has below one. -/
def denominator (x : Fraction) : Nat := 10 ^ (-x.exponent).toNat

/-- The double that a decimal fraction is rounded to, by its bit pattern. -/
def IsNearest (x : Fraction) (pattern : Nat) : Prop :=
  Binary64.IsNearest (x.numerator <<< 1074) x.denominator pattern

theorem isNearest_ofNat (n k : Nat) :
    IsNearest ⟨n, .ofNat k⟩ = Binary64.IsNearest ((n * 10 ^ k) <<< 1074) 1 := by
  have hnot : (-(k : Int)).toNat = 0 := by omega
  funext pattern
  simp only [IsNearest, numerator, denominator, Int.ofNat_eq_natCast, Int.toNat_natCast, hnot,
    Nat.pow_zero]

theorem isNearest_negSucc (n k : Nat) :
    IsNearest ⟨n, .negSucc k⟩ = Binary64.IsNearest (n <<< 1074) (10 ^ (k + 1)) := by
  funext pattern
  simp only [IsNearest, numerator, denominator, Int.toNat_negSucc, Int.neg_negSucc,
    Int.toNat_natCast, Nat.pow_zero, Nat.mul_one]

theorem two_pow_le_ten_pow (k : Nat) : 2 ^ (3 * k) ≤ 10 ^ k := by
  rw [Nat.pow_mul]
  exact Nat.pow_le_pow_left (by decide) k

theorem pow_pow_le {a b c k : Nat} (ha : 0 < a) (h : b * c ≤ k) : (a ^ b) ^ c ≤ a ^ k := by
  rw [← Nat.pow_mul]
  exact Nat.pow_le_pow_right ha h

/-- Infinity stands for 2¹⁰²⁴. -/
theorem gridUnits_infinity :
    Binary64.gridUnits Binary64.infinity = (2 ^ 128) ^ 8 <<< 1074 := by
  have h : Binary64.infinity = 2046 * 0x10000000000000 + 0x10000000000000 := rfl
  rw [h, Binary64.gridUnits_add 2046 (Nat.le_refl _) (by decide)]
  decide +kernel

/-- From an exponent of 310 on a fraction is beyond all doubles. -/
theorem isNearest_of_large {n k : Nat} (hn : n ≠ 0) (hk : 310 ≤ k) :
    IsNearest ⟨n, .ofNat k⟩ Binary64.infinity := by
  rw [isNearest_ofNat]
  obtain ⟨unit, hunit⟩ : ∃ unit, unit = 1074 := ⟨_, rfl⟩
  have hle : (2 ^ 128) ^ 8 ≤ n * 10 ^ k :=
    calc (2 ^ 128) ^ 8 ≤ (10 ^ 62) ^ 5 := by decide +kernel
      _ ≤ 10 ^ k := pow_pow_le (by decide) hk
      _ ≤ n * 10 ^ k := Nat.le_mul_of_pos_left _ (Nat.pos_of_ne_zero hn)
  refine Binary64.isNearest_infinity ?_ Nat.one_pos
  rw [Nat.mul_one, gridUnits_infinity, ← hunit, Nat.shiftLeft_eq, Nat.shiftLeft_eq]
  exact Nat.mul_le_mul_right _ hle

/-- A fraction below 10⁻³²⁴ is below half the least double. -/
theorem isNearest_of_lt_ten_pow {n length k : Nat} (hn : n < 10 ^ length)
    (hk : length + 162 * 2 ≤ k + 1) : IsNearest ⟨n, .negSucc k⟩ 0 := by
  rw [isNearest_negSucc]
  refine Binary64.isNearest_zero ?_
  have hunit : 2 * n <<< 1074 = n * (2 ^ 215) ^ 5 := by
    rw [Nat.shiftLeft_eq, Nat.mul_left_comm]
    exact congrArg (n * ·) (by decide +kernel)
  calc 2 * n <<< 1074 = n * (2 ^ 215) ^ 5 := hunit
    _ < 10 ^ length * (10 ^ 162) ^ 2 := Nat.mul_lt_mul'' hn (by decide +kernel)
    _ ≤ 10 ^ length * 10 ^ (k + 1 - length) :=
        Nat.mul_le_mul_left _ (pow_pow_le (by decide) (Nat.le_sub_of_add_le' hk))
    _ = 10 ^ (k + 1) := by rw [← Nat.pow_add, Nat.add_sub_cancel' (by omega)]

/-- A fraction whose exponent is too low for its significand is below half the least double. -/
theorem isNearest_of_small {n k : Nat} (hk : Nat.log2 n + 1077 < 3 * (k + 1)) :
    IsNearest ⟨n, .negSucc k⟩ 0 := by
  rw [isNearest_negSucc]
  obtain ⟨unit, hunit⟩ : ∃ unit, unit = 1074 := ⟨_, rfl⟩
  rw [← hunit]
  refine Binary64.isNearest_zero ?_
  have hlog := Nat.mul_lt_mul_of_pos_right (@Nat.lt_log2_self n) (Nat.two_pow_pos (unit + 1))
  calc 2 * n <<< unit = n * 2 ^ (unit + 1) := by
        rw [Nat.shiftLeft_eq, Nat.mul_left_comm, Nat.pow_succ, Nat.mul_comm 2]
    _ < 2 ^ (Nat.log2 n + 1) * 2 ^ (unit + 1) := hlog
    _ = 2 ^ (Nat.log2 n + 1 + (unit + 1)) := (Nat.pow_add ..).symm
    _ ≤ 2 ^ (3 * (k + 1)) := Nat.pow_le_pow_right (by decide) (by omega)
    _ ≤ 10 ^ (k + 1) := two_pow_le_ten_pow (k + 1)

theorem isNearest_zero {x : Fraction} (h : x.significand = 0) : x.IsNearest 0 := by
  refine Binary64.isNearest_zero ?_
  have hpos : 0 < x.denominator := Nat.pow_pos (by decide)
  rw [numerator, h, Nat.zero_mul, Nat.zero_shiftLeft]
  exact hpos

/-- **A decimal fraction is rounded to the nearest double.** -/
theorem isNearest_magnitude (x : Fraction) : x.IsNearest x.magnitude := by
  unfold magnitude
  split
  · next hzero => exact isNearest_zero hzero
  · next hne =>
      obtain ⟨n, exponent⟩ := x
      cases exponent with
      | ofNat k =>
          simp only
          split
          · next hk => exact isNearest_of_large hne hk
          · rw [isNearest_ofNat]
            exact Binary64.isNearest_nearest _ Nat.one_pos
      | negSucc k =>
          simp only
          split
          · next hk => exact isNearest_of_small hk
          · rw [isNearest_negSucc]
            exact Binary64.isNearest_nearest _ (Nat.pow_pos (by decide))

/-- A fraction is rounded to one double only. -/
theorem IsNearest.unique {x : Fraction} {pattern other : Nat} (hpattern : x.IsNearest pattern)
    (hother : x.IsNearest other) : pattern = other := by
  have hpos : 0 < x.denominator := Nat.pow_pos (by decide)
  exact Binary64.IsNearest.unique hpos hpattern hother

end Numeral.Fraction

/-! ### Numbers of the grammar -/

namespace Grammar

theorem isDigit_of_isWhole {digits : Bytes} (h : IsWhole digits) : IsDigits digits := by
  rcases h with rfl | ⟨lead, rest, rfl, hlead, -, hrest⟩
  · refine ⟨by simp, ?_⟩
    intro b hb
    rw [List.mem_singleton.1 hb]
    rfl
  · refine ⟨by simp, ?_⟩
    intro b hb
    rcases List.mem_cons.1 hb with rfl | hb
    · exact hlead
    · exact hrest b hb

/-- What follows digits and does not start with one. -/
theorem span_append {digits rest : Bytes} (hdigits : ∀ b ∈ digits, Ascii.isDigit b = true)
    (hrest : ∀ b ∈ rest.head?, Ascii.isDigit b = false) :
    Decimal.span (digits ++ rest) = (digits, rest) := by
  unfold Decimal.span
  rw [List.takeWhile_append_of_pos hdigits, List.dropWhile_append_of_pos hdigits]
  cases rest with
  | nil => simp
  | cons b rest => simp [hrest b rfl]

theorem isDigits_eq_true {digits : Bytes} (h : IsDigits digits) :
    Numeral.isDigits digits = true := by
  obtain ⟨hne, hdigits⟩ := h
  simp only [Numeral.isDigits, Bool.and_eq_true, List.all_eq_true]
  exact ⟨by simpa using hne, hdigits⟩

/-- Digits have no sign in front. -/
theorem splitSign_digits {digits : Bytes} (h : IsDigits digits) (rest : Bytes) :
    Numeral.splitSign (digits ++ rest) = (false, digits ++ rest) := by
  obtain ⟨hne, hdigits⟩ := h
  obtain ⟨b, more, rfl⟩ := List.exists_cons_of_ne_nil hne
  have hb := (Scanner.digit_class (hdigits b (by simp))).2.2
  simp only [Ascii.isSign, Bool.or_eq_false_iff, beq_eq_false_iff_ne] at hb
  simp [Numeral.splitSign, hb.1, hb.2]

/-- The size of an exponent with its sign, for a given reading of its digits. -/
def Exponent.sized (size : Bytes → Nat) (exponent : Exponent) : Int :=
  if exponent.sign = some Ascii.minus then -(size exponent.digits : Int) else size exponent.digits

theorem exponent?_bytes (exponent : Exponent) :
    Numeral.exponent? exponent.bytes = some (exponent.sized Numeral.exponentSize) := by
  obtain ⟨mark, sign, digits, hmark, hsign, hdigits⟩ := exponent
  have hsplit : Numeral.splitSign (sign.toList ++ digits) =
      (decide (sign = some Ascii.minus), digits) := by
    cases sign with
    | none => simpa using splitSign_digits hdigits []
    | some b =>
        have hb := hsign b rfl
        simp only [Ascii.isSign, Bool.or_eq_true, beq_iff_eq] at hb
        rcases hb with rfl | rfl <;> rfl
  simp [Exponent.bytes, Numeral.exponent?, hmark, hsplit, isDigits_eq_true hdigits, Exponent.sized]

/-- Whether an integer fits into 64 bits. -/
def Fits (z : Int) : Prop := -0x8000000000000000 ≤ z ∧ z < 0x8000000000000000

instance (z : Int) : Decidable (Fits z) := inferInstanceAs (Decidable (_ ∧ _))

namespace Number

variable (n : Number)

/-- All digits of a number but those of its exponent. -/
def digits : Bytes := n.whole ++ n.places.getD []

/-- The decimal fraction of a number without its sign, for a given reading of the digits of its
exponent. -/
def sized (size : Bytes → Nat) : Numeral.Fraction where
  significand := Decimal.value n.digits
  exponent := n.exponent.elim 0 (Exponent.sized size) - (n.places.getD []).length

/-- **The decimal fraction that a number denotes**, without its sign. -/
def fraction : Numeral.Fraction := n.sized Decimal.value

/-- The decimal fraction that is read. -/
def fractionRead : Numeral.Fraction := n.sized Numeral.exponentSize

/-- **The integer that a number denotes** if it has neither a fraction nor an exponent. -/
def integer : Int := if n.negative then -(Decimal.value n.whole : Int) else Decimal.value n.whole

theorem isDigits_whole : IsDigits n.whole := isDigit_of_isWhole n.isWhole_whole

theorem splitSign_bytes : Numeral.splitSign n.bytes = (n.negative, n.unsigned) := by
  unfold bytes
  cases n.negative with
  | true => rfl
  | false => exact splitSign_digits n.isDigits_whole _

theorem scaled_head {b : UInt8} (h : b ∈ n.scaled.head?) :
    Ascii.isDigit b = false ∧ b ≠ Ascii.point := by
  unfold scaled at h
  cases hexponent : n.exponent with
  | none => rw [hexponent] at h; cases h
  | some exponent =>
      rw [hexponent] at h
      cases h
      obtain ⟨hdigit, hpoint, -⟩ := Scanner.mark_class exponent.isExponentMark_mark
      exact ⟨hdigit, hpoint⟩

theorem exponent?_scaled :
    Numeral.exponent? n.scaled =
      some (n.exponent.elim 0 (Exponent.sized Numeral.exponentSize)) := by
  unfold scaled
  cases n.exponent with
  | none => rfl
  | some exponent => exact exponent?_bytes exponent

/-- A number is cut at its point. -/
theorem splitPoint_unsigned :
    Numeral.splitPoint n.unsigned = (n.whole, n.places.getD [], n.scaled) := by
  have hwhole := n.isDigits_whole.2
  have hscaled : ∀ b ∈ n.scaled.head?, Ascii.isDigit b = false := fun b hb => (n.scaled_head hb).1
  unfold Numeral.splitPoint unsigned pointed
  cases hplaces : n.places with
  | none =>
      simp only [Option.elim, List.nil_append, span_append hwhole hscaled, Option.getD]
      cases htext : n.scaled with
      | nil => rfl
      | cons b rest =>
          have hb : b ≠ Ascii.point := (n.scaled_head (by rw [htext]; rfl)).2
          simp [hb]
  | some places =>
      have hdigits := (n.isDigits_of_mem places hplaces).2
      have hpoint : ∀ b ∈ (Ascii.point :: (places ++ n.scaled)).head?, Ascii.isDigit b = false := by
        rintro b ⟨⟩
        rfl
      simp only [Option.elim, span_append hwhole hpoint, Option.getD, List.cons_append, if_true,
        span_append hdigits hscaled]

theorem fraction?_unsigned : Numeral.fraction? n.unsigned = some n.fractionRead := by
  have hne : ¬(n.whole = [] ∧ n.places.getD [] = []) := fun h => n.isDigits_whole.1 h.1
  simp only [Numeral.fraction?, splitPoint_unsigned, exponent?_scaled, if_neg hne, Option.map]
  rfl

/-- No magnitude has a name that starts with a digit. -/
theorem named?_unsigned : Numeral.named? n.unsigned = none := by
  obtain ⟨hne, hdigits⟩ := n.isDigits_whole
  obtain ⟨b, more, hwhole⟩ := List.exists_cons_of_ne_nil hne
  have hb : Ascii.isDigit b = true := hdigits b (by simp [hwhole])
  simp only [Ascii.isDigit, Bool.and_eq_true, decide_eq_true_eq] at hb
  have hlower : Ascii.toLower b = b := by
    refine if_neg ?_
    intro h
    have h := UInt8.le_trans h.1 hb.2
    exact absurd h (by decide)
  have hspells (c : Char) (name : List Char) (hc : Ascii.nine < c.toUInt8) :
      Numeral.spells n.unsigned (c :: name) = false := by
    have hne : b ≠ c.toUInt8 := by
      rintro rfl
      exact absurd hb.2 (UInt8.not_le.2 hc)
    simp [Numeral.spells, unsigned, hwhole, hlower, hne]
  simp [Numeral.named?, hspells _ _ (show Ascii.nine < 'i'.toUInt8 by decide),
    hspells _ _ (show Ascii.nine < 'n'.toUInt8 by decide)]

/-! ### Kinds of numbers -/

/-- A number is an integer if it has neither a fraction nor an exponent. -/
theorem token_eq_integer_iff : n.token = .integer ↔ n.places = none ∧ n.exponent = none := by
  have htoken : n.token = .integer ↔
      ¬(Ascii.point ∈ n.bytes ∨ Ascii.byte 'e' ∈ n.bytes ∨ Ascii.byte 'E' ∈ n.bytes) := by
    unfold token
    split
    · next h => simp [h]
    · next h => simp [h]
  rw [htoken]
  constructor
  · intro hnot
    have hmem {b : UInt8} (hb : b ∈ n.pointed ∨ b ∈ n.scaled) : b ∈ n.bytes := by
      simp [bytes, unsigned, hb]
    refine ⟨Option.eq_none_iff_forall_not_mem.2 fun places hplaces => hnot (.inl (hmem (.inl ?_))),
      Option.eq_none_iff_forall_not_mem.2 fun exponent hexponent => hnot (.inr ?_)⟩
    · rw [pointed, hplaces]
      exact List.mem_cons_self
    · have hmark : exponent.mark ∈ n.bytes := by
        refine hmem (.inr ?_)
        rw [scaled, hexponent]
        exact List.mem_cons_self
      have hclass := exponent.isExponentMark_mark
      simp only [Ascii.isExponentMark, Bool.or_eq_true, beq_iff_eq] at hclass
      rcases hclass with h | h
      · exact .inl (h ▸ hmark)
      · exact .inr (h ▸ hmark)
  · rintro ⟨hplaces, hexponent⟩
    -- What is left of the number are a sign and digits.
    have hdigits : ∀ b ∈ n.bytes, b = Ascii.minus ∨ Ascii.isDigit b = true := by
      intro b hb
      simp only [bytes, unsigned, pointed, scaled, hplaces, hexponent, Option.elim, List.append_nil,
        List.mem_append] at hb
      rcases hb with hb | hb
      · cases hnegative : n.negative with
        | true => rw [hnegative] at hb; exact .inl (List.mem_singleton.1 hb)
        | false => rw [hnegative] at hb; cases hb
      · exact .inr (n.isDigits_whole.2 b hb)
    rintro (h | h | h) <;> rcases hdigits _ h with h | h <;> cases h

/-- A number consists of digits, signs, points and exponent marks. -/
theorem class_of_mem_bytes {b : UInt8} (h : b ∈ n.bytes) :
    Ascii.isDigit b = true ∨
      b ∈ [Ascii.minus, Ascii.plus, Ascii.point, Ascii.byte 'e', Ascii.byte 'E'] := by
  simp only [bytes, unsigned, pointed, scaled, List.mem_append] at h
  rcases h with h | h | h | h
  · cases hnegative : n.negative with
    | true => rw [hnegative] at h; rw [List.mem_singleton.1 h]; decide
    | false => rw [hnegative] at h; cases h
  · exact .inl (n.isDigits_whole.2 b h)
  · cases hplaces : n.places with
    | none => rw [hplaces] at h; cases h
    | some places =>
        rw [hplaces] at h
        rcases List.mem_cons.1 h with rfl | h
        · decide
        · exact .inl ((n.isDigits_of_mem places hplaces).2 b h)
  · cases hexponent : n.exponent with
    | none => rw [hexponent] at h; cases h
    | some exponent =>
        rw [hexponent] at h
        obtain ⟨mark, sign, digits, hmark, hsign, hdigits⟩ := exponent
        simp only [Option.elim, Exponent.bytes, List.mem_cons, List.mem_append,
          Option.mem_toList] at h
        simp only [Ascii.isExponentMark, Ascii.isSign, Bool.or_eq_true, beq_iff_eq] at hmark hsign
        rcases h with rfl | h | h
        · rcases hmark with rfl | rfl <;> decide
        · rcases hsign b h with rfl | rfl <;> decide
        · exact .inl (hdigits.2 b h)

/-- A number in ASCII. -/
theorem lt_of_mem_bytes {b : UInt8} (h : b ∈ n.bytes) : b < 0x80 := by
  rcases n.class_of_mem_bytes h with hdigit | hother
  · simp only [Ascii.isDigit, Bool.and_eq_true, decide_eq_true_eq] at hdigit
    exact UInt8.lt_of_le_of_lt hdigit.2 (by decide)
  · have hascii : [Ascii.minus, Ascii.plus, Ascii.point, Ascii.byte 'e', Ascii.byte 'E'].all
        (· < 0x80) = true := rfl
    exact of_decide_eq_true (List.all_eq_true.1 hascii b hother)

/-! ### Reading -/

/-- **The integer of a text.** -/
theorem integer?_bytes (h : n.token = .integer) : Numeral.integer? n.bytes =
    if Fits n.integer then some (Int64.ofInt n.integer) else none := by
  obtain ⟨hplaces, hexponent⟩ := n.token_eq_integer_iff.1 h
  have hunsigned : n.unsigned = n.whole := by simp [unsigned, pointed, scaled, hplaces, hexponent]
  simp only [Numeral.integer?, splitSign_bytes, hunsigned, Numeral.natural?,
    isDigits_eq_true n.isDigits_whole, if_true]
  rcases Bool.eq_false_or_eq_true n.negative with hnegative | hnegative
  · have hinteger : n.integer = -(Decimal.value n.whole : Int) := if_pos hnegative
    have hfits : Fits n.integer ↔ Decimal.value n.whole ≤ 0x8000000000000000 := by
      unfold Fits
      omega
    simp only [hnegative, if_true, hfits]
    rw [hinteger]
  · have hinteger : n.integer = Decimal.value n.whole := by simp [integer, hnegative]
    have hfits : Fits n.integer ↔ Decimal.value n.whole < 0x8000000000000000 := by
      unfold Fits
      omega
    simp only [hnegative, Bool.false_eq_true, if_false, hfits]
    rw [hinteger, Int64.ofInt_eq_ofNat]

/-- **The double of a text.** -/
theorem double?_bytes : Numeral.double? n.bytes =
    some (Binary64.ofMagnitude n.negative n.fractionRead.magnitude) := by
  simp only [Numeral.double?, splitSign_bytes, named?_unsigned, fraction?_unsigned, Option.map]

/-! ### Long exponents -/

/-- Whether the exponent of a number, or the number itself, is short enough for the exponent to make
no difference when it is read. -/
def IsShort : Prop :=
  (∀ exponent ∈ n.exponent, Decimal.value exponent.digits < Numeral.exponentLimit) ∨
    n.digits.length ≤ 65000

theorem isDigit_of_mem_digits {b : UInt8} (h : b ∈ n.digits) : Ascii.isDigit b = true := by
  rcases List.mem_append.1 h with h | h
  · exact n.isDigits_whole.2 b h
  · cases hplaces : n.places with
    | none => rw [hplaces] at h; cases h
    | some places =>
        rw [hplaces] at h
        exact (n.isDigits_of_mem places hplaces).2 b h

theorem value_digits_lt : Decimal.value n.digits < 10 ^ n.digits.length := by
  have h := Decimal.valueFrom_lt 0 fun b hb => n.isDigit_of_mem_digits hb
  rw [Decimal.value_eq_valueFrom]
  simpa using h

theorem length_places_le : (n.places.getD []).length ≤ n.digits.length := by simp [digits]

/-- A large exponent of either reading puts the number beyond all doubles, or below them. -/
theorem isNearest_sized {exponent : Exponent} (hexponent : n.exponent = some exponent)
    (hlength : n.digits.length ≤ 65000) (hne : Decimal.value n.digits ≠ 0) {size : Bytes → Nat}
    (hsize : Numeral.exponentLimit ≤ size exponent.digits) :
    (n.sized size).IsNearest
      (if exponent.sign = some Ascii.minus then 0 else Binary64.infinity) := by
  have hlimit : 65536 ≤ size exponent.digits := hsize
  have hplaces := n.length_places_le
  have heq : (n.sized size).exponent = exponent.sized size - (n.places.getD []).length := by
    simp [sized, hexponent]
  have hfraction (exponent : Int) (h : (n.sized size).exponent = exponent) :
      n.sized size = ⟨Decimal.value n.digits, exponent⟩ := by rw [← h]; rfl
  unfold Exponent.sized at heq
  by_cases hsign : exponent.sign = some Ascii.minus
  · rw [if_pos hsign] at heq ⊢
    obtain ⟨k, hk⟩ : ∃ k : Nat, k + 1 = size exponent.digits + (n.places.getD []).length :=
      ⟨_, Nat.sub_add_cancel (by omega)⟩
    have hnegSucc : (n.sized size).exponent = .negSucc k := by omega
    rw [hfraction _ hnegSucc]
    exact Numeral.Fraction.isNearest_of_lt_ten_pow n.value_digits_lt (by omega)
  · rw [if_neg hsign] at heq ⊢
    obtain ⟨k, hk⟩ : ∃ k : Nat, size exponent.digits = k + (n.places.getD []).length :=
      ⟨_, (Nat.sub_add_cancel (by omega)).symm⟩
    have hofNat : (n.sized size).exponent = (k : Int) := by omega
    rw [hfraction _ hofNat]
    exact Numeral.Fraction.isNearest_of_large hne (by omega)

/-- **What is read is the double nearest to what the number denotes.** -/
theorem isNearest_fraction (h : n.IsShort) : n.fraction.IsNearest n.fractionRead.magnitude := by
  have hread : n.fractionRead.IsNearest n.fractionRead.magnitude :=
    n.fractionRead.isNearest_magnitude
  have hsame (hsize : ∀ exponent ∈ n.exponent,
      Numeral.exponentSize exponent.digits = Decimal.value exponent.digits) :
      n.fractionRead = n.fraction := by
    unfold fractionRead fraction sized
    cases hexponent : n.exponent with
    | none => rfl
    | some exponent => simp [Exponent.sized, hsize exponent hexponent]
  by_cases hsmall : ∀ exponent ∈ n.exponent,
      Decimal.value exponent.digits < Numeral.exponentLimit
  · rw [← hsame fun exponent hexponent => Numeral.exponentSize_eq_value (hsmall exponent hexponent)]
    exact hread
  · have hlength : n.digits.length ≤ 65000 := h.resolve_left hsmall
    obtain ⟨exponent, hexponent, hlarge⟩ : ∃ exponent, n.exponent = some exponent ∧
        Numeral.exponentLimit ≤ Decimal.value exponent.digits := by
      simpa using hsmall
    -- By either reading the exponent puts the number beyond all doubles, or below them.
    have hlargeRead := Numeral.exponentLimit_le_exponentSize hlarge
    by_cases hzero : Decimal.value n.digits = 0
    · rw [hread.unique (Numeral.Fraction.isNearest_zero hzero)]
      exact Numeral.Fraction.isNearest_zero hzero
    · rw [hread.unique (n.isNearest_sized hexponent hlength hzero hlargeRead)]
      exact n.isNearest_sized hexponent hlength hzero hlarge

end Number

end Grammar

end DocCodec
