/-
**Doubles as rational numbers.**

A finite double is a sign and a whole number of units of 2⁻¹⁰⁷⁴, so it is a rational number.  The
nearest double to a number is among all finite ones the one that is nearest, and of two that are
equally near the one with the even pattern; it has the sign of the number, as the distance to a double
of the other sign is no less than that to the same double with the sign changed.

The doubles next to a double, with no other between, are those whose patterns are next to its own.

Main definitions:

* `DocCodec.Binary64.value` — **the number that a finite double is**;
* `DocCodec.Binary64.RoundsTo` — **the double that a number is rounded to**;
* `DocCodec.Binary64.Adjacent` — the doubles next to a double.

Main results:

* `DocCodec.abs_div_sub_div` — the distance of two quotients;
* `DocCodec.Binary64.IsNearest.roundsTo` — the nearest pattern is that of the nearest double;
* `DocCodec.Binary64.adjacent_ofMagnitude` — neighbours on the grid are adjacent;
* `DocCodec.Binary64.eq_of_adjacent` — a double as near as no adjacent one is the same;
* `DocCodec.Binary64.lt_abs_value_sub_of_large` — doubles beyond 2³³ are far from each other.
-/

import DocCodec.Proofs.Binary64.Nearest
import Mathlib.Algebra.Order.Field.Basic
import Mathlib.Data.Rat.Cast.Order
import Mathlib.Tactic.FieldSimp
import Mathlib.Tactic.Linarith

set_option relaxedAutoImplicit false
set_option autoImplicit false

namespace DocCodec

/-! ### Signs and distances -/

/-- A magnitude with a sign. -/
def signed (negative : Bool) (magnitude : ℚ) : ℚ := if negative then -magnitude else magnitude

section

variable (s t : Bool) {a b : ℚ}

theorem abs_signed (h : 0 ≤ a) : |signed s a| = a := by
  cases s with
  | false => exact abs_of_nonneg h
  | true => exact (abs_neg a).trans (abs_of_nonneg h)

/-- Numbers of one sign are as far from each other as their magnitudes. -/
theorem abs_signed_sub (a b : ℚ) : |signed s a - signed s b| = |a - b| := by
  cases s with
  | false => rfl
  | true =>
      change |-a - -b| = |a - b|
      rw [neg_sub_neg, abs_sub_comm]

/-- Numbers of any signs are no nearer. -/
theorem abs_sub_le_signed (ha : 0 ≤ a) (hb : 0 ≤ b) : |a - b| ≤ |signed s a - signed t b| := by
  have h := abs_abs_sub_abs_le (signed s a) (signed t b)
  rwa [abs_signed s ha, abs_signed t hb] at h

/-- Between numbers of one sign, magnitudes are in between, too. -/
theorem abs_between (ha : 0 ≤ a) (hb : 0 ≤ b) {c : ℚ} (hac : signed s a < c)
    (hcb : c < signed s b) : a < |c| ∧ |c| < b ∨ b < |c| ∧ |c| < a := by
  cases s with
  | false =>
      rw [abs_of_pos (ha.trans_lt hac)]
      exact .inl ⟨hac, hcb⟩
  | true =>
      rw [abs_of_neg (hcb.trans_le (neg_nonpos.2 hb))]
      exact .inr ⟨lt_neg.1 hcb, neg_lt.1 hac⟩

end

/-- **The distance of two quotients** is a gap in parts of both denominators. -/
theorem abs_div_sub_div {b d : Nat} (hb : 0 < b) (hd : 0 < d) (a c : Nat) :
    |(a : ℚ) / b - c / d| = gap (c * b) d a / (b * d) := by
  have hb' : (b : ℚ) ≠ 0 := Nat.cast_ne_zero.2 hb.ne'
  have hd' : (d : ℚ) ≠ 0 := Nat.cast_ne_zero.2 hd.ne'
  have hpos : (0 : ℚ) < b * d := mul_pos (Nat.cast_pos.2 hb) (Nat.cast_pos.2 hd)
  rw [div_sub_div _ _ hb' hd', abs_div, abs_of_pos hpos, gap, Nat.cast_natAbs]
  push_cast
  rw [mul_comm (b : ℚ) c]

theorem abs_div_two_pow_sub {d : Nat} (hd : 0 < d) (n exponent units : Nat) :
    |(units : ℚ) / 2 ^ exponent - n / d| =
      gap (n <<< exponent) d units / (2 ^ exponent * d) := by
  have h := abs_div_sub_div (Nat.two_pow_pos exponent) hd units n
  rwa [Nat.cast_pow, Nat.cast_ofNat, ← Nat.shiftLeft_eq] at h

namespace Binary64

/-! ### The number that a double is -/

/-- **The number that a finite double is.** -/
def value (x : Binary64) : ℚ := signed x.isNegative (x.units / 2 ^ 1074)

theorem abs_value (x : Binary64) : |x.value| = x.units / 2 ^ 1074 :=
  abs_signed _ (div_nonneg (Nat.cast_nonneg _) (by positivity))

theorem strictMono_gridUnits : StrictMono gridUnits := strictMono_nat_of_lt_succ gridUnits_lt_succ

theorem abs_value_lt_iff {x y : Binary64} : |x.value| < |y.value| ↔ x.magnitude < y.magnitude := by
  rw [abs_value, abs_value, div_lt_div_iff_of_pos_right (by positivity), Nat.cast_lt,
    units_eq_gridUnits, units_eq_gridUnits, strictMono_gridUnits.lt_iff_lt]

theorem abs_value_le_iff {x y : Binary64} :
    |x.value| ≤ |y.value| ↔ x.magnitude ≤ y.magnitude := by
  rw [← not_lt, abs_value_lt_iff, not_lt]

/-- A double has no more than a magnitude and a sign. -/
theorem eq_of_fields {x y : Binary64} (hmagnitude : x.magnitude = y.magnitude)
    (hnegative : x.isNegative = y.isNegative) : x = y := by
  obtain ⟨bits⟩ := x
  obtain ⟨bits'⟩ := y
  have hlt := bits.toNat_lt
  have hlt' := bits'.toNat_lt
  have hiff := decide_eq_decide.1 hnegative
  unfold magnitude at hmagnitude
  simp only at hmagnitude hiff
  have hbits : bits = bits' := UInt64.toNat_inj.1 (by omega)
  rw [hbits]

/-! ### Distances -/

section

variable (x : Binary64) (n : Nat) {d : Nat} (hd : 0 < d)

include hd

/-- How far the magnitude of a double is from a quotient. -/
theorem abs_units_sub : |(x.units : ℚ) / 2 ^ 1074 - n / d| =
    gap (n <<< 1074) d (gridUnits x.magnitude) / (2 ^ 1074 * d) := by
  rw [units_eq_gridUnits]
  exact abs_div_two_pow_sub hd n 1074 (gridUnits x.magnitude)

theorem abs_value_sub : |x.value - signed x.isNegative (n / d)| =
    gap (n <<< 1074) d (gridUnits x.magnitude) / (2 ^ 1074 * d) := by
  rw [value, abs_signed_sub, abs_units_sub x n hd]

theorem le_abs_value_sub (s : Bool) :
    gap (n <<< 1074) d (gridUnits x.magnitude) / (2 ^ 1074 * d) ≤ |x.value - signed s (n / d)| := by
  rw [← abs_units_sub x n hd]
  exact abs_sub_le_signed _ _ (div_nonneg (Nat.cast_nonneg _) (by positivity))
    (div_nonneg (Nat.cast_nonneg _) (Nat.cast_nonneg _))

end

/-! ### Rounding -/

/-- **The double that a number is rounded to**: a finite one that is nearest, and of two that are
equally near the one whose pattern is even. -/
structure RoundsTo (v : ℚ) (y : Binary64) : Prop where
  isFinite : y.isFinite = true
  abs_le : ∀ z : Binary64, z.isFinite = true → |y.value - v| ≤ |z.value - v|
  even_of_tie : ∀ z : Binary64, z.isFinite = true → z.magnitude ≠ y.magnitude →
    |z.value - v| = |y.value - v| → y.magnitude % 2 = 0

theorem isFinite_iff (x : Binary64) : x.isFinite = true ↔ x.magnitude < infinity :=
  decide_eq_true_iff

/-- **The nearest pattern is that of the nearest double**, if it is finite. -/
theorem IsNearest.roundsTo {n d pattern : Nat} (hd : 0 < d)
    (h : IsNearest (n <<< 1074) d pattern) (hfinite : pattern < infinity) (s : Bool) :
    RoundsTo (signed s (n / d)) (ofMagnitude s pattern) := by
  obtain ⟨hmagnitude, hnegative⟩ := ofMagnitude_fields s h.le_infinity
  have hpos : (0 : ℚ) < 2 ^ 1074 * d := mul_pos (by positivity) (Nat.cast_pos.2 hd)
  have hvalue := abs_value_sub (ofMagnitude s pattern) n hd
  rw [hnegative, hmagnitude] at hvalue
  have hle (z : Binary64) (hz : z.isFinite = true) :
      |(ofMagnitude s pattern).value - signed s (n / d)| ≤
        gap (n <<< 1074) d (gridUnits z.magnitude) / (2 ^ 1074 * d) := by
    rw [hvalue, div_le_div_iff_of_pos_right hpos, Nat.cast_le]
    exact h.gap_le z.magnitude (z.isFinite_iff.1 hz).le
  refine ⟨?_, ?_, ?_⟩
  · rw [isFinite_iff, hmagnitude]
    exact hfinite
  · intro z hz
    exact (hle z hz).trans (le_abs_value_sub z n hd s)
  · intro z hz hne htie
    rw [hmagnitude] at hne ⊢
    refine h.even_of_tie z.magnitude (z.isFinite_iff.1 hz).le hne ?_
    -- A double of the other sign is no nearer than that with the sign changed.
    have heq := le_antisymm ((le_abs_value_sub z n hd s).trans_eq htie) (hle z hz)
    rw [hvalue] at heq
    exact Nat.cast_injective ((div_left_inj' hpos.ne').1 heq)

/-! ### Adjacent doubles -/

/-- **The doubles next to a double**: other finite ones with no finite one between. -/
def Adjacent (x z : Binary64) : Prop :=
  z.isFinite = true ∧ z.value ≠ x.value ∧ ∀ w : Binary64, w.isFinite = true →
    ¬(x.value < w.value ∧ w.value < z.value) ∧ ¬(z.value < w.value ∧ w.value < x.value)

/-- A double between two of one sign has its pattern between theirs. -/
theorem magnitude_between {x z w : Binary64} (hsign : x.isNegative = z.isNegative)
    (hxw : x.value < w.value) (hwz : w.value < z.value) :
    x.magnitude < w.magnitude ∧ w.magnitude < z.magnitude ∨
      z.magnitude < w.magnitude ∧ w.magnitude < x.magnitude := by
  rw [value, hsign] at hxw
  have h := abs_between z.isNegative (by positivity) (by positivity) hxw hwz
  simpa only [← abs_value, abs_value_lt_iff] using h

/-- **Neighbours on the grid are adjacent.** -/
theorem adjacent_ofMagnitude (x : Binary64) {pattern : Nat} (hfinite : pattern < infinity)
    (hnext : pattern = x.magnitude + 1 ∨ x.magnitude = pattern + 1) :
    Adjacent x (ofMagnitude x.isNegative pattern) := by
  obtain ⟨hmagnitude, hnegative⟩ := ofMagnitude_fields x.isNegative hfinite.le
  refine ⟨(isFinite_iff _).2 (hmagnitude.trans_lt hfinite), ?_, ?_⟩
  · intro heq
    have habs := congrArg abs heq
    have hnot := abs_value_lt_iff.not.1 habs.not_lt
    have hnot' := abs_value_lt_iff.not.1 habs.not_gt
    omega
  · intro w hw
    refine ⟨?_, ?_⟩
    · rintro ⟨hxw, hwz⟩
      have hbetween := magnitude_between hnegative.symm hxw hwz
      omega
    · rintro ⟨hzw, hwx⟩
      have hbetween := magnitude_between hnegative hzw hwx
      omega

theorem abs_value_sub_value {x z : Binary64} (h : z.isNegative = x.isNegative) :
    |z.value - x.value| = |(|z.value| - |x.value|)| := by
  rw [abs_value, abs_value, value, value, h, abs_signed_sub]

/-- Of doubles of one sign, one whose pattern is between is no farther. -/
theorem abs_value_sub_le {x y z : Binary64} (hy : y.isNegative = x.isNegative)
    (hz : z.isNegative = x.isNegative)
    (h : x.magnitude ≤ z.magnitude ∧ z.magnitude ≤ y.magnitude ∨
      y.magnitude ≤ z.magnitude ∧ z.magnitude ≤ x.magnitude) :
    |z.value - x.value| ≤ |y.value - x.value| := by
  rw [abs_value_sub_value hy, abs_value_sub_value hz]
  rcases h with ⟨hxz, hzy⟩ | ⟨hyz, hzx⟩
  · have hxz' := abs_value_le_iff.2 hxz
    have hzy' := abs_value_le_iff.2 hzy
    rw [abs_of_nonneg (sub_nonneg.2 hxz'), abs_of_nonneg (sub_nonneg.2 (hxz'.trans hzy'))]
    exact sub_le_sub_right hzy' _
  · have hyz' := abs_value_le_iff.2 hyz
    have hzx' := abs_value_le_iff.2 hzx
    rw [abs_of_nonpos (sub_nonpos.2 hzx'), abs_of_nonpos (sub_nonpos.2 (hyz'.trans hzx'))]
    exact neg_le_neg (sub_le_sub_right hyz' _)

/-- **A double as near as no adjacent one is** the same. -/
theorem eq_of_adjacent {x y : Binary64} {r : ℚ} (hx : x.isFinite = true) (hy : y.isFinite = true)
    (hnegative : y.isNegative = x.isNegative) (hnear : |y.value - x.value| ≤ r)
    (h : ∀ z, Adjacent x z → r < |z.value - x.value|) : y = x := by
  have hx' := x.isFinite_iff.1 hx
  have hy' := y.isFinite_iff.1 hy
  -- Towards any other double there is an adjacent one, which is no farther.
  have hnone (pattern : Nat) (hpattern : pattern < infinity)
      (hnext : pattern = x.magnitude + 1 ∨ x.magnitude = pattern + 1) :
      ¬(x.magnitude ≤ pattern ∧ pattern ≤ y.magnitude ∨
        y.magnitude ≤ pattern ∧ pattern ≤ x.magnitude) := by
    intro hbetween
    obtain ⟨hmagnitude, hsign⟩ := ofMagnitude_fields x.isNegative hpattern.le
    rw [← hmagnitude] at hbetween
    have hfar := h _ (x.adjacent_ofMagnitude hpattern hnext)
    exact absurd (hfar.trans_le (abs_value_sub_le hnegative hsign hbetween)) hnear.not_gt
  rcases Nat.lt_trichotomy x.magnitude y.magnitude with hlt | heq | hlt
  · have hnot := hnone (x.magnitude + 1) (by omega) (.inl rfl)
    omega
  · exact eq_of_fields heq.symm hnegative
  · have hnot := hnone (x.magnitude - 1) (by omega) (.inr (by omega))
    omega

/-! ### Where the grid is coarse -/

/-- Below a power of two, values are below it by their unit at least. -/
theorem gridUnits_add_le (shift : Nat) {pattern : Nat}
    (h : pattern < shift * 0x10000000000000 + 0x20000000000000) :
    gridUnits pattern + 2 ^ shift ≤
      gridUnits (shift * 0x10000000000000 + 0x20000000000000) := by
  have hle : pattern ≤ shift * 0x10000000000000 + 0x1FFFFFFFFFFFFF := by omega
  have hmono := strictMono_gridUnits.monotone hle
  rw [gridUnits_add shift (by decide) (by decide)] at hmono
  rw [gridUnits_carry]
  omega

/-- Above a power of two, values are apart by their unit at least. -/
theorem two_pow_le_gridUnits_sub (shift : Nat) {pattern other : Nat}
    (h : 0x10000000000000 * 2 ^ shift < gridUnits pattern) (hne : other ≠ pattern) :
    gridUnits other + 2 ^ shift ≤ gridUnits pattern ∨
      gridUnits pattern + 2 ^ shift ≤ gridUnits other := by
  obtain ⟨j, hj⟩ : 2 ^ shift ∣ gridUnits pattern :=
    (dvd_or_lt shift pattern).resolve_right h.not_gt
  have hstep {low high : Nat} (hlt : low < high) : low * 2 ^ shift + 2 ^ shift ≤ high * 2 ^ shift := by
    rw [← Nat.succ_mul]
    exact Nat.mul_le_mul_right _ hlt
  rw [hj, Nat.mul_comm (2 ^ shift)] at h ⊢
  rcases dvd_or_lt shift other with ⟨k, hk⟩ | hlt
  · rw [hk, Nat.mul_comm (2 ^ shift)]
    rcases Nat.lt_trichotomy k j with hlt | rfl | hlt
    · exact .inl (hstep hlt)
    · exact absurd (eq_of_gridUnits_eq (hk.trans hj.symm)) hne
    · exact .inr (hstep hlt)
  · have hmul := hstep (Nat.lt_of_mul_lt_mul_right h)
    exact .inl (by omega)

/-- Values that are apart by a unit. -/
theorem two_pow_le_abs_sub {shift a b : Nat} (h : a + 2 ^ shift ≤ b ∨ b + 2 ^ shift ≤ a) :
    (2 : ℚ) ^ shift ≤ |(a : ℚ) - b| := by
  rw [le_abs]
  rcases h with h | h
  · have hcast : (a : ℚ) + 2 ^ shift ≤ b := by exact_mod_cast h
    exact .inr (by linarith)
  · have hcast : (b : ℚ) + 2 ^ shift ≤ a := by exact_mod_cast h
    exact .inl (by linarith)

/-- **Beyond 2³³ every other double is more than a millionth away.** -/
theorem lt_abs_value_sub_of_large {x z : Binary64} (hx : 0x4200000000000000 < x.magnitude)
    (hz : z.value ≠ x.value) : 1 / 1000000 < |z.value - x.value| := by
  have hlarge : 0x10000000000000 * 2 ^ 1055 < gridUnits x.magnitude := by
    rw [← gridUnits_add 1055 (by decide) (by decide)]
    exact gridUnits_lt hx
  have hpos : (0 : ℚ) < 2 ^ 1074 := by positivity
  have hunit : (1 : ℚ) / 1000000 < 2 ^ 1055 / 2 ^ 1074 := by
    have hpow : (2 : ℚ) ^ 1074 = 2 ^ 1055 * 2 ^ 19 := pow_add 2 1055 19
    rw [hpow, div_mul_cancel_left₀ (by positivity)]
    norm_num
  by_cases hmagnitude : z.magnitude = x.magnitude
  · -- The same magnitude with the other sign.
    have habs : |z.value| = |x.value| := by
      rw [abs_value, abs_value, units_eq_gridUnits, units_eq_gridUnits, hmagnitude]
    have hneg : z.value = -x.value := (abs_eq_abs.1 habs).resolve_left hz
    have hle : ((2 ^ 1055 : Nat) : ℚ) ≤ gridUnits x.magnitude := by
      exact Nat.cast_le.2 ((Nat.le_mul_of_pos_left _ (by decide)).trans hlarge.le)
    have hnonneg := abs_nonneg x.value
    calc (1 : ℚ) / 1000000 < 2 ^ 1055 / 2 ^ 1074 := hunit
      _ ≤ |x.value| := by
          rw [abs_value, units_eq_gridUnits]
          refine div_le_div_of_nonneg_right ?_ hpos.le
          exact_mod_cast hle
      _ ≤ 2 * |x.value| := by linarith
      _ = |z.value - x.value| := by rw [hneg, ← neg_add', abs_neg, ← two_mul, abs_mul, abs_two]
  · have hapart := two_pow_le_abs_sub (two_pow_le_gridUnits_sub 1055 hlarge hmagnitude)
    calc (1 : ℚ) / 1000000 < 2 ^ 1055 / 2 ^ 1074 := hunit
      _ ≤ |(gridUnits z.magnitude : ℚ) - gridUnits x.magnitude| / 2 ^ 1074 :=
          div_le_div_of_nonneg_right hapart hpos.le
      _ = |(|z.value| - |x.value|)| := by
          rw [abs_value, abs_value, ← sub_div, abs_div, abs_of_pos hpos, units_eq_gridUnits,
            units_eq_gridUnits]
      _ ≤ |z.value - x.value| := abs_abs_sub_abs_le _ _

end Binary64

end DocCodec
