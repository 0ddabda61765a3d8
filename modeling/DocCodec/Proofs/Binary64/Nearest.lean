/-
**Rounding to the nearest double.**

The magnitudes of the doubles are a grid of whole numbers of units of 2⁻¹⁰⁷⁴, in the order of their
bit patterns.  The pattern of infinity continues the grid with 2¹⁰²⁴.  A quotient of naturals is
rounded to the pattern whose value on the grid is nearest to it, and if two are equally near, to the
one whose pattern is even; this is how infinity gets its share of the quotients too large for
any double.

Main definitions:

* `DocCodec.Binary64.gridUnits` — the value of a bit pattern on the grid;
* `DocCodec.Binary64.IsNearest` — **the pattern that a quotient is rounded to**.

Main results:

* `DocCodec.roundDiv_nearest` — a quotient rounded to a whole number;
* `DocCodec.Binary64.IsNearest.unique` — a quotient is rounded to one pattern only;
* `DocCodec.Binary64.isNearest_nearest` — **rounding gives the nearest double**.
-/

import DocCodec.Binary64
import Mathlib.Algebra.Group.Nat.Defs

set_option relaxedAutoImplicit false
set_option autoImplicit false

namespace DocCodec

/-! ### Whole numbers -/

/-- How far `k` is from a quotient, in parts of the denominator. -/
def gap (numerator denominator k : Nat) : Nat :=
  ((k * denominator : Nat) - (numerator : Int)).natAbs

theorem roundDiv_cases (numerator denominator : Nat) :
    (roundDiv numerator denominator = numerator / denominator ∧
        (2 * (numerator % denominator) < denominator ∨
          2 * (numerator % denominator) = denominator ∧ numerator / denominator % 2 = 0)) ∨
      (roundDiv numerator denominator = numerator / denominator + 1 ∧
        (denominator < 2 * (numerator % denominator) ∨
          2 * (numerator % denominator) = denominator ∧ numerator / denominator % 2 = 1)) := by
  unfold roundDiv
  simp only
  split
  · next h => exact .inl ⟨rfl, h⟩
  · next h => exact .inr ⟨rfl, by omega⟩

/-- **A quotient is rounded to the nearest whole number**, a half to an even one. -/
theorem roundDiv_nearest (numerator : Nat) {denominator : Nat} (h : 0 < denominator) (k : Nat) :
    gap numerator denominator (roundDiv numerator denominator) ≤ gap numerator denominator k ∧
      (k ≠ roundDiv numerator denominator →
        gap numerator denominator k =
          gap numerator denominator (roundDiv numerator denominator) →
        roundDiv numerator denominator % 2 = 0) := by
  obtain ⟨q, hq⟩ : ∃ q, q = numerator / denominator := ⟨_, rfl⟩
  obtain ⟨t, ht⟩ : ∃ t, t = numerator % denominator := ⟨_, rfl⟩
  have hlt : t < denominator := ht ▸ Nat.mod_lt _ h
  have hnumerator : numerator = q * denominator + t := by
    rw [hq, ht, Nat.mul_comm]
    exact (Nat.div_add_mod ..).symm
  have hsucc : (q + 1) * denominator = q * denominator + denominator := Nat.succ_mul ..
  -- Whole numbers other than the two neighbours of the quotient are farther by a denominator.
  have hk : k = q ∨ k = q + 1 ∨ k * denominator + denominator ≤ q * denominator ∨
      q * denominator + denominator + denominator ≤ k * denominator := by
    rcases Nat.lt_trichotomy k q with hlow | rfl | hhigh
    · refine .inr (.inr (.inl ?_))
      rw [← Nat.succ_mul]
      exact Nat.mul_le_mul_right _ hlow
    · exact .inl rfl
    · rcases Nat.eq_or_lt_of_le hhigh with rfl | hhigh
      · exact .inr (.inl rfl)
      · refine .inr (.inr (.inr ?_))
        rw [← hsucc, ← Nat.succ_mul]
        exact Nat.mul_le_mul_right _ hhigh
  have hcases := roundDiv_cases numerator denominator
  rw [← hq, ← ht] at hcases
  unfold gap
  rcases hcases with ⟨hr, hcond⟩ | ⟨hr, hcond⟩ <;> rw [hr, hnumerator]
  · rcases hk with rfl | rfl | hk | hk
    · exact ⟨Nat.le_refl _, fun hne => absurd rfl hne⟩
    · rw [hsucc]
      constructor <;> omega
    · constructor <;> omega
    · constructor <;> omega
  · rw [hsucc]
    rcases hk with rfl | rfl | hk | hk
    · constructor <;> omega
    · exact ⟨Nat.le_of_eq (by rw [hsucc]), fun hne => absurd rfl hne⟩
    · constructor <;> omega
    · constructor <;> omega

namespace Binary64

/-! ### The grid -/

/-- The value of a bit pattern on the grid, in units of 2⁻¹⁰⁷⁴. -/
def gridUnits (pattern : Nat) : Nat :=
  if pattern / 0x10000000000000 = 0 then pattern % 0x10000000000000
  else (0x10000000000000 + pattern % 0x10000000000000) * 2 ^ (pattern / 0x10000000000000 - 1)

theorem units_eq_gridUnits (x : Binary64) : x.units = gridUnits x.magnitude := by
  simp only [units, gridUnits, exponent, fraction, Nat.shiftLeft_eq]

/-- The patterns of the least exponent stand for themselves. -/
theorem gridUnits_of_lt {pattern : Nat} (h : pattern < 0x10000000000000) :
    gridUnits pattern = pattern := by
  rw [gridUnits, if_pos (Nat.div_eq_of_lt h), Nat.mod_eq_of_lt h]

/-- Beyond them, a pattern is an exponent beside a significand with a leading one. -/
theorem gridUnits_add (shift : Nat) {r : Nat} (hlow : 0x10000000000000 ≤ r)
    (hhigh : r < 0x20000000000000) :
    gridUnits (shift * 0x10000000000000 + r) = r * 2 ^ shift := by
  have hdiv : (shift * 0x10000000000000 + r) / 0x10000000000000 = shift + 1 := by omega
  have hmod : (shift * 0x10000000000000 + r) % 0x10000000000000 = r - 0x10000000000000 := by omega
  rw [gridUnits, hdiv, hmod, if_neg (Nat.succ_ne_zero shift), Nat.add_sub_cancel,
    Nat.add_sub_cancel' hlow]

/-- Every pattern is small or an exponent beside a significand. -/
theorem pattern_cases (pattern : Nat) :
    pattern < 0x10000000000000 ∨ ∃ shift r, pattern = shift * 0x10000000000000 + r ∧
      0x10000000000000 ≤ r ∧ r < 0x20000000000000 := by
  by_cases h : pattern < 0x10000000000000
  · exact .inl h
  · exact .inr ⟨pattern / 0x10000000000000 - 1,
      pattern % 0x10000000000000 + 0x10000000000000, by omega, by omega, by omega⟩

/-- A significand that is rounded up to its double carries into the exponent. -/
theorem gridUnits_carry (shift : Nat) :
    gridUnits (shift * 0x10000000000000 + 0x20000000000000) = 0x20000000000000 * 2 ^ shift := by
  have h : shift * 0x10000000000000 + 0x20000000000000 =
      (shift + 1) * 0x10000000000000 + 0x10000000000000 := by omega
  rw [h, gridUnits_add (shift + 1) (Nat.le_refl _) (by decide), Nat.pow_succ]
  omega

theorem gridUnits_lt_succ (pattern : Nat) : gridUnits pattern < gridUnits (pattern + 1) := by
  rcases pattern_cases pattern with h | ⟨shift, r, rfl, hlow, hhigh⟩
  · rw [gridUnits_of_lt h]
    by_cases hnext : pattern + 1 < 0x10000000000000
    · rw [gridUnits_of_lt hnext]
      exact Nat.lt_succ_self _
    · have heq : pattern + 1 = 0 * 0x10000000000000 + 0x10000000000000 := by omega
      rw [heq, gridUnits_add 0 (Nat.le_refl _) (by decide)]
      omega
  · have hpow := Nat.two_pow_pos shift
    rw [gridUnits_add shift hlow hhigh, Nat.add_assoc]
    by_cases hnext : r + 1 < 0x20000000000000
    · rw [gridUnits_add shift (by omega) hnext]
      exact Nat.mul_lt_mul_of_pos_right (Nat.lt_succ_self r) hpow
    · have heq : r + 1 = 0x20000000000000 := by omega
      rw [heq, gridUnits_carry]
      exact Nat.mul_lt_mul_of_pos_right hhigh hpow

/-- Patterns are in the order of their values. -/
theorem gridUnits_lt {pattern other : Nat} (h : pattern < other) :
    gridUnits pattern < gridUnits other := by
  induction h with
  | refl => exact gridUnits_lt_succ pattern
  | step _ ih => exact Nat.lt_trans ih (gridUnits_lt_succ _)

theorem eq_of_gridUnits_eq {pattern other : Nat} (h : gridUnits pattern = gridUnits other) :
    pattern = other := by
  rcases Nat.lt_trichotomy pattern other with hlt | rfl | hlt
  · exact absurd h (Nat.ne_of_lt (gridUnits_lt hlt))
  · rfl
  · exact absurd h.symm (Nat.ne_of_lt (gridUnits_lt hlt))

/-- The grid gets coarser: a value that is no multiple of a power of two is below the significands
of that unit. -/
theorem dvd_or_lt (shift pattern : Nat) :
    2 ^ shift ∣ gridUnits pattern ∨
      gridUnits pattern < 0x10000000000000 * 2 ^ shift := by
  rcases pattern_cases pattern with h | ⟨s, r, rfl, hlow, hhigh⟩
  · refine .inr ?_
    rw [gridUnits_of_lt h]
    exact Nat.lt_of_lt_of_le h (Nat.le_mul_of_pos_right _ (Nat.two_pow_pos shift))
  · rw [gridUnits_add s hlow hhigh]
    -- A value with unit `2 ^ s` is a multiple of every smaller unit.
    by_cases hs : shift ≤ s
    · exact .inl (Nat.dvd_trans (Nat.pow_dvd_pow 2 hs) (Nat.dvd_mul_left ..))
    · refine .inr ?_
      have hpow : 2 * 2 ^ s ≤ 2 ^ shift := by
        rw [Nat.mul_comm, ← Nat.pow_succ]
        exact Nat.pow_le_pow_right (by decide) (by omega)
      calc r * 2 ^ s < 0x20000000000000 * 2 ^ s :=
            Nat.mul_lt_mul_of_pos_right hhigh (Nat.two_pow_pos s)
        _ = 0x10000000000000 * (2 * 2 ^ s) := by rw [← Nat.mul_assoc]
        _ ≤ 0x10000000000000 * 2 ^ shift := Nat.mul_le_mul_left _ hpow

/-! ### The nearest pattern -/

/-- **The pattern that a quotient is rounded to**, where the quotient is given in units: among all
patterns up to that of infinity the nearest one, and of two nearest ones the even one. -/
structure IsNearest (scaled denominator pattern : Nat) : Prop where
  le_infinity : pattern ≤ infinity
  gap_le : ∀ other ≤ infinity,
    gap scaled denominator (gridUnits pattern) ≤ gap scaled denominator (gridUnits other)
  even_of_tie : ∀ other ≤ infinity, other ≠ pattern →
    gap scaled denominator (gridUnits other) = gap scaled denominator (gridUnits pattern) →
      pattern % 2 = 0

section

variable {scaled denominator : Nat}

/-- What lies strictly between two values that are equally far is nearer. -/
theorem gap_lt_of_between (h : 0 < denominator) {a b c : Nat} (hab : a < b) (hbc : b < c)
    (hgap : gap scaled denominator a = gap scaled denominator c) :
    gap scaled denominator b < gap scaled denominator a := by
  have hab' := Nat.mul_lt_mul_of_pos_right hab h
  have hbc' := Nat.mul_lt_mul_of_pos_right hbc h
  unfold gap at hgap ⊢
  omega

/-- A quotient is rounded to one pattern only. -/
theorem IsNearest.unique (h : 0 < denominator) {pattern other : Nat}
    (hpattern : IsNearest scaled denominator pattern)
    (hother : IsNearest scaled denominator other) : pattern = other := by
  have hgap := Nat.le_antisymm (hpattern.gap_le other hother.le_infinity)
    (hother.gap_le pattern hpattern.le_infinity)
  -- Two different patterns that are equally near are both even, so there is a nearer one between.
  have hnot : ∀ {p q : Nat}, IsNearest scaled denominator p → IsNearest scaled denominator q →
      gap scaled denominator (gridUnits p) = gap scaled denominator (gridUnits q) → ¬ p < q := by
    intro p q hp hq hgap hlt
    have hpeven := hp.even_of_tie q hq.le_infinity (Nat.ne_of_gt hlt) hgap.symm
    have hqeven := hq.even_of_tie p hp.le_infinity (Nat.ne_of_lt hlt) hgap
    have hbetween := gap_lt_of_between h (gridUnits_lt_succ p)
      (gridUnits_lt (show p + 1 < q by omega)) hgap
    have hle := hp.gap_le (p + 1) (Nat.le_trans hlt hq.le_infinity)
    exact absurd hle (Nat.not_le_of_gt hbetween)
  rcases Nat.lt_trichotomy pattern other with hlt | rfl | hlt
  · exact absurd hlt (hnot hpattern hother hgap)
  · rfl
  · exact absurd hlt (hnot hother hpattern hgap.symm)

/-- A quotient from 2¹⁰²⁴ on is rounded to infinity. -/
theorem isNearest_infinity (hlarge : gridUnits infinity * denominator ≤ scaled)
    (h : 0 < denominator) : IsNearest scaled denominator infinity := by
  have hfar : ∀ other < infinity, gap scaled denominator (gridUnits infinity) <
      gap scaled denominator (gridUnits other) := by
    intro other hother
    have hlt := Nat.mul_lt_mul_of_pos_right (gridUnits_lt hother) h
    unfold gap
    omega
  refine ⟨Nat.le_refl _, ?_, ?_⟩
  · intro other hother
    rcases Nat.eq_or_lt_of_le hother with rfl | hlt
    · exact Nat.le_refl _
    · exact Nat.le_of_lt (hfar other hlt)
  · intro other hother hne hgap
    exact absurd hgap (Nat.ne_of_gt (hfar other (Nat.lt_of_le_of_ne hother hne)))

/-- A quotient below half a unit is rounded to zero. -/
theorem isNearest_zero (hsmall : 2 * scaled < denominator) : IsNearest scaled denominator 0 := by
  have hfar : ∀ other, other ≠ 0 → gap scaled denominator (gridUnits 0) <
      gap scaled denominator (gridUnits other) := by
    intro other hother
    have hpos := gridUnits_lt (Nat.pos_of_ne_zero hother)
    have hle := Nat.mul_le_mul_right denominator (Nat.succ_le_of_lt hpos)
    rw [gridUnits_of_lt (by decide)] at hle ⊢
    unfold gap
    omega
  refine ⟨Nat.zero_le _, ?_, fun _ _ _ _ => rfl⟩
  intro other hother
  by_cases hzero : other = 0
  · exact Nat.le_of_eq (by rw [hzero])
  · exact Nat.le_of_lt (hfar other hzero)

end

/-! ### Doubles from their magnitudes -/

/-- A magnitude and a sign are kept side by side. -/
theorem ofMagnitude_fields (negative : Bool) {pattern : Nat} (h : pattern ≤ infinity) :
    (ofMagnitude negative pattern).magnitude = pattern ∧
      (ofMagnitude negative pattern).isNegative = negative := by
  have hlt : pattern < 0x8000000000000000 := Nat.lt_of_le_of_lt h (by decide)
  unfold ofMagnitude magnitude isNegative
  cases negative with
  | true =>
      have hbits : (UInt64.ofNat (0x8000000000000000 + pattern)).toNat =
          0x8000000000000000 + pattern :=
        UInt64.toNat_ofNat_of_lt' (Nat.add_lt_add_left hlt 0x8000000000000000)
      simp only [if_true, hbits, decide_eq_true_eq]
      omega
  | false =>
      have hbits : (UInt64.ofNat pattern).toNat = pattern :=
        UInt64.toNat_ofNat_of_lt' (Nat.lt_trans hlt (by decide))
      simp only [Bool.false_eq_true, if_false, hbits, decide_eq_false_iff_not]
      omega

/-! ### Rounding -/

theorem gap_mul (scaled denominator unit k : Nat) :
    gap scaled denominator (k * unit) = gap scaled (denominator * unit) k := by
  unfold gap
  rw [Nat.mul_assoc, Nat.mul_comm unit]

/-- **A significand that is rounded to the nearest whole number is the nearest on the grid**, if the
unit leaves it 53 bits, or is the least unit. -/
theorem gap_le_of_roundDiv {scaled denominator shift : Nat} (h : 0 < denominator)
    (hlow : shift = 0 ∨ 0x10000000000000 * (denominator * 2 ^ shift) ≤ scaled) (other : Nat) :
    gap scaled (denominator * 2 ^ shift) (roundDiv scaled (denominator * 2 ^ shift)) ≤
        gap scaled denominator (gridUnits other) ∧
      (gridUnits other ≠ roundDiv scaled (denominator * 2 ^ shift) * 2 ^ shift →
        gap scaled denominator (gridUnits other) =
          gap scaled (denominator * 2 ^ shift) (roundDiv scaled (denominator * 2 ^ shift)) →
        roundDiv scaled (denominator * 2 ^ shift) % 2 = 0) := by
  have hunit : 0 < denominator * 2 ^ shift := Nat.mul_pos h (Nat.two_pow_pos shift)
  have hnearest := roundDiv_nearest scaled hunit
  -- Either the other value is a multiple of the unit, or it lies where the grid is finer.
  have hcases : 2 ^ shift ∣ gridUnits other ∨ gridUnits other < 0x10000000000000 * 2 ^ shift ∧
      0x10000000000000 * (denominator * 2 ^ shift) ≤ scaled := by
    rcases hlow with rfl | hlow
    · exact .inl (Nat.one_dvd _)
    · exact (dvd_or_lt shift other).imp_right fun hlt => ⟨hlt, hlow⟩
  rcases hcases with ⟨k, hk⟩ | ⟨hlt, hle⟩
  · have hgap : gap scaled denominator (gridUnits other) =
        gap scaled (denominator * 2 ^ shift) k := by
      rw [hk, Nat.mul_comm, gap_mul]
    rw [hgap]
    refine ⟨(hnearest k).1, fun hne => (hnearest k).2 ?_⟩
    rintro rfl
    exact hne (by rw [hk, Nat.mul_comm])
  · -- In a finer part of the grid everything is farther than the least 53-bit significand.
    have hfar : gap scaled (denominator * 2 ^ shift) 0x10000000000000 <
        gap scaled denominator (gridUnits other) := by
      have hmul := Nat.mul_lt_mul_of_pos_right hlt h
      rw [Nat.mul_assoc, Nat.mul_comm (2 ^ shift)] at hmul
      unfold gap
      omega
    have hlt' := Nat.lt_of_le_of_lt (hnearest 0x10000000000000).1 hfar
    exact ⟨Nat.le_of_lt hlt', fun _ hgap => absurd hgap (Nat.ne_of_gt hlt')⟩

/-- The shift that `nearest` takes leaves the quotient 53 bits, or is none at all. -/
theorem shift_bounds {scaled denominator shift : Nat} (h : 0 < denominator)
    (hshift : shift = Nat.log2 (scaled / denominator) - 52) :
    scaled < 0x20000000000000 * (denominator * 2 ^ shift) ∧
      (shift = 0 ∨ 0x10000000000000 * (denominator * 2 ^ shift) ≤ scaled) := by
  -- The quotient has one bit more than its logarithm, of which the shift leaves 53.
  have hhigh := Nat.lt_log2_self (n := scaled / denominator)
  have hpow : 2 ^ (Nat.log2 (scaled / denominator) + 1) ≤ 0x20000000000000 * 2 ^ shift := by
    have heq : 0x20000000000000 * 2 ^ shift = 2 ^ (53 + shift) := by rw [Nat.pow_add]
    rw [heq]
    exact Nat.pow_le_pow_right (by decide) (by omega)
  constructor
  · have hlt := (Nat.div_lt_iff_lt_mul h).1 (Nat.lt_of_lt_of_le hhigh hpow)
    rwa [Nat.mul_assoc, Nat.mul_comm (2 ^ shift)] at hlt
  · by_cases hzero : shift = 0
    · exact .inl hzero
    · refine .inr ?_
      have hne : scaled / denominator ≠ 0 := by
        intro hq
        rw [hq] at hshift
        exact hzero hshift
      have hlow := Nat.log2_self_le hne
      have heq : 2 ^ Nat.log2 (scaled / denominator) = 0x10000000000000 * 2 ^ shift := by
        rw [show Nat.log2 (scaled / denominator) = 52 + shift by omega, Nat.pow_add]
      rw [heq] at hlow
      have hle := (Nat.le_div_iff_mul_le h).1 hlow
      rwa [Nat.mul_assoc, Nat.mul_comm (2 ^ shift)] at hle

/-- A quotient between two whole numbers is rounded to one between them. -/
theorem roundDiv_bounds {numerator denominator low high : Nat} (h : 0 < denominator)
    (hlow : low * denominator ≤ numerator) (hhigh : numerator < high * denominator) :
    low ≤ roundDiv numerator denominator ∧ roundDiv numerator denominator ≤ high := by
  have hle := (Nat.le_div_iff_mul_le h).2 hlow
  have hlt := (Nat.div_lt_iff_lt_mul h).2 hhigh
  rcases roundDiv_cases numerator denominator with ⟨hr, -⟩ | ⟨hr, -⟩ <;> rw [hr] <;> omega

/-- The pattern of a rounded significand has its value on the grid. -/
theorem gridUnits_roundDiv {scaled denominator shift r : Nat} (h : 0 < denominator)
    (hhigh : scaled < 0x20000000000000 * (denominator * 2 ^ shift))
    (hlow : shift = 0 ∨ 0x10000000000000 * (denominator * 2 ^ shift) ≤ scaled)
    (hr : r = roundDiv scaled (denominator * 2 ^ shift)) :
    gridUnits (shift * 0x10000000000000 + r) = r * 2 ^ shift := by
  have hunit : 0 < denominator * 2 ^ shift := Nat.mul_pos h (Nat.two_pow_pos shift)
  have hzero : 0 * (denominator * 2 ^ shift) ≤ scaled := by
    rw [Nat.zero_mul]
    exact Nat.zero_le _
  obtain ⟨-, hrhigh⟩ := roundDiv_bounds hunit hzero hhigh
  rw [← hr] at hrhigh
  -- A significand that is rounded up to 2⁵³ carries into the exponent.
  by_cases hrlow : r < 0x10000000000000
  · rcases hlow with rfl | hlow
    · rw [Nat.zero_mul, Nat.zero_add, gridUnits_of_lt hrlow, Nat.pow_zero, Nat.mul_one]
    · obtain ⟨hle, -⟩ := roundDiv_bounds hunit hlow hhigh
      rw [← hr] at hle
      exact absurd hrlow (Nat.not_lt_of_le hle)
  · rcases Nat.eq_or_lt_of_le hrhigh with rfl | hlt
    · exact gridUnits_carry shift
    · exact gridUnits_add shift (Nat.le_of_not_lt hrlow) hlt

/-- **Rounding gives the nearest double.** -/
theorem isNearest_nearest (numerator : Nat) {denominator : Nat} (h : 0 < denominator) :
    IsNearest (numerator <<< 1074) denominator (nearest numerator denominator) := by
  -- The shifted numerals are kept as variables, as they are too large to be evaluated.
  obtain ⟨scaled, hscaled⟩ : ∃ n, n = numerator <<< 1074 := ⟨_, rfl⟩
  obtain ⟨shift, hshift⟩ : ∃ n, n = Nat.log2 (scaled / denominator) - 52 := ⟨_, rfl⟩
  obtain ⟨r, hr⟩ : ∃ n, n = roundDiv scaled (denominator * 2 ^ shift) := ⟨_, rfl⟩
  have hnearest : nearest numerator denominator =
      min infinity (shift * 0x10000000000000 + r) := by
    rw [hr, hshift, hscaled, nearest, Nat.shiftLeft_eq, Nat.shiftLeft_eq, Nat.shiftLeft_eq]
  obtain ⟨hhigh, hlow⟩ := shift_bounds h hshift
  have hunits : gridUnits (shift * 0x10000000000000 + r) = r * 2 ^ shift :=
    gridUnits_roundDiv h hhigh hlow hr
  have hgap := gap_le_of_roundDiv h hlow
  rw [← hr] at hgap
  simp only [← gap_mul, ← hunits] at hgap
  rw [hnearest, ← hscaled]
  rcases Nat.lt_or_ge infinity (shift * 0x10000000000000 + r) with hlt | hle
  · rw [Nat.min_eq_left (Nat.le_of_lt hlt)]
    -- A significand beyond infinity is only nearer than infinity if the quotient is beyond it, too.
    refine isNearest_infinity ?_ h
    have hmul := Nat.mul_lt_mul_of_pos_right (gridUnits_lt hlt) h
    have hle := (hgap infinity).1
    unfold gap at hle
    omega
  · rw [Nat.min_eq_right hle]
    refine ⟨hle, fun other _ => (hgap other).1, ?_⟩
    intro other _ hne htie
    have heven := (hgap other).2 (fun heq => hne (eq_of_gridUnits_eq heq)) htie
    omega

end Binary64

end DocCodec
