/-
**Doubles with six places, read back and written again.**

The text of a double has its value rounded to millionths, and what is read from the text is the double
nearest to these.  So two roundings follow one another, on grids of which now the one and now the
other is finer.  Which one it is does not matter: what is read back is at least as near to the
millionths as the double that was written, and a number at least as near as another one that is
rounded to them is rounded to them, too.  The second text is therefore the first one.

Both doubles are within half a millionth of the text, so they are within a millionth of each other.
Where no other double is as near as that, they are the same.

Main definitions:

* `DocCodec.Grammar.Number.value` — the number that a text denotes.

Main results:

* `DocCodec.roundDiv_eq_iff` — what a quotient is rounded to;
* `DocCodec.Scanner.scan_number` — a number alone is one token;
* `DocCodec.millionths_readBack` — **what is read back has the same millionths**;
* `DocCodec.Binary64.sixPlaces_fixed_point` — **writing with six places is a fixed point**.
-/

import DocCodec.Proofs.Binary64.Value
import DocCodec.Proofs.Decoder.Assembling
import DocCodec.Proofs.RoundTrip.Scalar
import DocCodec.Proofs.Scanner.Language

set_option relaxedAutoImplicit false
set_option autoImplicit false

namespace DocCodec

open Grammar (Number)

/-! ### Rounding twice -/

section

variable {numerator denominator : Nat}

/-- Two whole numbers cannot both be near to a quotient. -/
theorem mul_le_gap_add_gap {j k count : Nat} (h : j + count ≤ k) :
    count * denominator ≤ gap numerator denominator j + gap numerator denominator k := by
  have hmul := Nat.mul_le_mul_right denominator h
  rw [Nat.add_mul] at hmul
  unfold gap
  omega

/-- Whether a quotient may be rounded to a whole number: by half a unit at most, and to an even one if
it is as much as that. -/
def IsRounding (numerator denominator k : Nat) : Prop :=
  2 * gap numerator denominator k ≤ denominator ∧
    (2 * gap numerator denominator k = denominator → k % 2 = 0)

theorem isRounding_roundDiv (numerator : Nat) {denominator : Nat} (h : 0 < denominator) :
    IsRounding numerator denominator (roundDiv numerator denominator) := by
  have hnumerator := Nat.div_add_mod' numerator denominator
  have hlt := Nat.mod_lt numerator h
  have hsucc : (numerator / denominator + 1) * denominator =
      numerator / denominator * denominator + denominator := Nat.succ_mul ..
  unfold IsRounding gap
  rcases roundDiv_cases numerator denominator with ⟨hr, hcond⟩ | ⟨hr, hcond⟩
  · rw [hr]
    constructor <;> omega
  · rw [hr]
    constructor <;> omega

/-- Two whole numbers that a quotient may be rounded to would both be half a unit away and even. -/
theorem IsRounding.not_lt (h : 0 < denominator) {j k : Nat}
    (hj : IsRounding numerator denominator j) (hk : IsRounding numerator denominator k) :
    ¬j < k := by
  intro hlt
  obtain ⟨hjle, hjeven⟩ := hj
  obtain ⟨hkle, hkeven⟩ := hk
  have hone : 1 * denominator ≤ gap numerator denominator j + gap numerator denominator k :=
    mul_le_gap_add_gap hlt
  have hjmod := hjeven (by omega)
  have hkmod := hkeven (by omega)
  have htwo : 2 * denominator ≤ gap numerator denominator j + gap numerator denominator k :=
    mul_le_gap_add_gap (by omega)
  omega

/-- **A quotient is rounded to one whole number.** -/
theorem roundDiv_eq_iff (h : 0 < denominator) (k : Nat) :
    roundDiv numerator denominator = k ↔ IsRounding numerator denominator k := by
  constructor
  · intro heq
    rw [← heq]
    exact isRounding_roundDiv numerator h
  · intro hk
    have hround := isRounding_roundDiv numerator h
    exact Nat.le_antisymm (Nat.not_lt.1 (hk.not_lt h hround)) (Nat.not_lt.1 (hround.not_lt h hk))

/-- A quotient that is no farther from what another one is rounded to is rounded to the same. -/
theorem roundDiv_eq_of_gap_le (h : 0 < denominator) {other : Nat}
    (hle : gap other denominator (roundDiv numerator denominator) ≤
      gap numerator denominator (roundDiv numerator denominator)) :
    roundDiv other denominator = roundDiv numerator denominator := by
  obtain ⟨hhalf, heven⟩ := isRounding_roundDiv numerator h
  refine (roundDiv_eq_iff h _).2 ⟨?_, ?_⟩
  · omega
  · intro htie
    exact heven (by omega)

end

/-- The two grids measure the same distance. -/
theorem gap_shiftLeft (n exponent d units : Nat) :
    gap (n <<< exponent) d units = gap (units * d) (1 <<< exponent) n := by
  rw [gap, gap, Nat.shiftLeft_eq, Nat.shiftLeft_eq, Nat.one_mul]
  omega

/-! ### A number alone -/

namespace Scanner

/-- **A number alone is one token.** -/
theorem scan_number (n : Number) (bound : Nat) :
    (scan logging bound [] n.bytes).stop = none ∧
      (scan logging bound [] n.bytes).listener =
        [(.scalar n.token n.bytes, n.bytes.length)] := by
  obtain ⟨t, ht⟩ : ∃ t : Grammar.Text, t = ⟨.none, .number n, .none⟩ := ⟨_, rfl⟩
  have hbytes : t.bytes = n.bytes := by
    rw [ht]
    exact List.append_nil n.bytes
  have hdepth : t.depth ≤ bound := by
    rw [ht]
    exact Nat.zero_le bound
  obtain ⟨haccepted, hheard⟩ := scan_language_and_trace Empty
    (fun heard event offset => heard ++ [(event, offset)]) bound ([] : Grammar.Trace) n.bytes
  refine ⟨haccepted.2 ⟨t, hbytes, hdepth⟩, ?_⟩
  refine ((hheard t hbytes hdepth).1.trans (foldl_logging t.trace [])).trans ?_
  rw [ht]
  exact congrArg (fun offset => [(Event.scalar n.token n.bytes, offset)])
    (Nat.zero_add n.bytes.length)

end Scanner

/-! ### The number of a text -/

/-- **The number that a text denotes.** -/
def Grammar.Number.value (n : Number) : ℚ :=
  signed n.negative (n.fraction.significand * 10 ^ n.fraction.exponent)

theorem token_sixPlacesNumber (x : Binary64) : (sixPlacesNumber x).token = .float := by
  have hpoint : Ascii.point ∈ (sixPlacesNumber x).bytes := by
    rw [bytes_sixPlacesNumber, Binary64.sixPlaces]
    simp
  exact if_pos (.inl hpoint)

/-- The text of a double with six places is that of its millionths. -/
theorem value_sixPlacesNumber (x : Binary64) :
    (sixPlacesNumber x).value = signed x.isNegative (x.millionths / (1000000 : Nat)) := by
  have hfraction : (sixPlacesNumber x).fraction = ⟨x.millionths, .negSucc 5⟩ :=
    fractionRead_sixPlacesNumber x
  have hpow : (x.millionths : ℚ) * 10 ^ Int.negSucc 5 = x.millionths / (1000000 : Nat) := by
    rw [zpow_negSucc, ← div_eq_mul_inv]
    norm_num
  rw [Number.value, hfraction, hpow]
  rfl

theorem scalar_sixPlaces (x : Binary64) :
    Assembly.scalar .float x.sixPlaces = .ok (.double x.readBack) := by
  obtain ⟨text, htext⟩ :=
    Utf8.exists_decode_of_ascii fun b hb => (sixPlacesNumber x).lt_of_mem_bytes hb
  have hnumber : Assembly.numberText x.sixPlaces = .ok x.sixPlaces := by
    rw [← bytes_sixPlacesNumber, Assembly.numberText, htext]
  rw [Assembly.scalar_float hnumber, double?_sixPlaces]
  rfl

/-! ### What is read back -/

namespace Binary64

variable {x : Binary64}

theorem one_shiftLeft_pos (exponent : Nat) : 0 < 1 <<< exponent := by
  rw [Nat.shiftLeft_eq, Nat.one_mul]
  exact Nat.two_pow_pos exponent

theorem one_shiftLeft_lt {exponent other : Nat} (h : exponent < other) :
    1 <<< exponent < 2 ^ other := by
  rw [Nat.shiftLeft_eq, Nat.one_mul]
  exact Nat.pow_lt_pow_right (by decide) h

theorem isRounding_millionths (x : Binary64) :
    IsRounding (x.units * 1000000) (1 <<< 1074) x.millionths :=
  isRounding_roundDiv _ (one_shiftLeft_pos 1074)

/-- The pattern of what is read back. -/
theorem isNearest_millionths (x : Binary64) :
    IsNearest (x.millionths <<< 1074) 1000000 (nearest x.millionths 1000000) :=
  isNearest_nearest x.millionths (by decide)

/-- What is read back is at least as near to the millionths. -/
theorem gap_readBack_le (hx : x.isFinite = true) :
    gap (gridUnits (nearest x.millionths 1000000) * 1000000) (1 <<< 1074) x.millionths ≤
      gap (x.units * 1000000) (1 <<< 1074) x.millionths := by
  rw [← gap_shiftLeft, ← gap_shiftLeft, units_eq_gridUnits]
  exact x.isNearest_millionths.gap_le x.magnitude (x.isFinite_iff.1 hx).le

/-- **What is read back is finite**, as infinity is farther. -/
theorem nearest_millionths_lt (hx : x.isFinite = true) :
    nearest x.millionths 1000000 < infinity := by
  refine lt_of_le_of_ne x.isNearest_millionths.le_infinity ?_
  intro heq
  have hle := gap_readBack_le hx
  rw [heq] at hle
  have hhalf := x.isRounding_millionths.1
  have htop : x.units + 2 ^ 2045 ≤ gridUnits infinity := by
    rw [units_eq_gridUnits]
    exact gridUnits_add_le 2045 (x.isFinite_iff.1 hx)
  have hunit : 1 <<< 1074 < 2 ^ 2045 := one_shiftLeft_lt (by decide)
  -- The powers are kept as variables, as they are too large to be evaluated.
  obtain ⟨one, hone⟩ : ∃ one, one = 1 <<< 1074 := ⟨_, rfl⟩
  obtain ⟨top, htopEq⟩ : ∃ top, top = 2 ^ 2045 := ⟨_, rfl⟩
  rw [← hone] at hle hhalf hunit
  rw [← htopEq] at htop hunit
  unfold gap at hle hhalf
  omega

/-- What is read back, with its pattern and its sign. -/
theorem readBack_fields (hx : x.isFinite = true) :
    x.readBack.magnitude = nearest x.millionths 1000000 ∧
      x.readBack.isNegative = x.isNegative ∧ x.readBack.isFinite = true := by
  have hlt := nearest_millionths_lt hx
  obtain ⟨hmagnitude, hnegative⟩ := ofMagnitude_fields x.isNegative hlt.le
  exact ⟨hmagnitude, hnegative, (isFinite_iff _).2 (hmagnitude.trans_lt hlt)⟩

/-- **What is read back has the same millionths.** -/
theorem millionths_readBack (hx : x.isFinite = true) : x.readBack.millionths = x.millionths := by
  have hle := gap_readBack_le hx
  rw [← (readBack_fields hx).1, ← units_eq_gridUnits] at hle
  exact roundDiv_eq_of_gap_le (one_shiftLeft_pos 1074) hle

/-- What is read back has the same text. -/
theorem sixPlaces_readBack (hx : x.isFinite = true) : x.readBack.sixPlaces = x.sixPlaces := by
  rw [sixPlaces, sixPlaces, millionths_readBack hx, (readBack_fields hx).2.1]

/-- What is read back is the double that the text is rounded to. -/
theorem roundsTo_readBack (hx : x.isFinite = true) :
    RoundsTo (sixPlacesNumber x).value x.readBack := by
  rw [value_sixPlacesNumber]
  exact x.isNearest_millionths.roundsTo (by decide) (nearest_millionths_lt hx) x.isNegative

/-! ### How far the text is from the double -/

/-- A distance in parts of both grids. -/
theorem gap_div_le {exponent d n units : Nat} (hd : 0 < d)
    (h : 2 * gap (n <<< exponent) d units ≤ 1 <<< exponent) :
    (gap (n <<< exponent) d units : ℚ) / (2 ^ exponent * d) ≤ 1 / (2 * d) := by
  rw [Nat.shiftLeft_eq 1, Nat.one_mul] at h
  have hcast : 2 * (gap (n <<< exponent) d units : ℚ) ≤ 2 ^ exponent := by exact_mod_cast h
  have hd' : (0 : ℚ) < d := Nat.cast_pos.2 hd
  rw [div_le_div_iff₀ (by positivity) (by positivity)]
  nlinarith

/-- The text is within half a millionth of the double. -/
theorem abs_value_sub_sixPlacesNumber (x : Binary64) :
    |x.value - (sixPlacesNumber x).value| ≤ 1 / 2000000 := by
  have hhalf := x.isRounding_millionths.1
  rw [← gap_shiftLeft, units_eq_gridUnits] at hhalf
  have hle := gap_div_le (by decide) hhalf
  rw [value_sixPlacesNumber, abs_value_sub x x.millionths (by decide)]
  refine hle.trans (le_of_eq ?_)
  norm_num

/-- **The text is rounded correctly**: no other number with six places is nearer. -/
theorem abs_sixPlacesNumber_sub_le (x : Binary64) (k : ℤ) :
    |(sixPlacesNumber x).value - x.value| ≤ |(k : ℚ) / 1000000 - x.value| := by
  have hk : |(k : ℚ) / 1000000| = k.natAbs / (1000000 : Nat) := by
    rw [abs_div, Nat.cast_natAbs, Int.cast_abs]
    norm_num
  have hle : gap (x.millionths <<< 1074) 1000000 (gridUnits x.magnitude) ≤
      gap (k.natAbs <<< 1074) 1000000 (gridUnits x.magnitude) := by
    rw [gap_shiftLeft, gap_shiftLeft, ← units_eq_gridUnits]
    exact (roundDiv_nearest _ (one_shiftLeft_pos 1074) k.natAbs).1
  rw [abs_sub_comm, abs_sub_comm (k / 1000000 : ℚ), value_sixPlacesNumber,
    abs_value_sub x x.millionths (by decide)]
  calc (gap (x.millionths <<< 1074) 1000000 (gridUnits x.magnitude) : ℚ) /
        (2 ^ 1074 * (1000000 : Nat))
      ≤ gap (k.natAbs <<< 1074) 1000000 (gridUnits x.magnitude) / (2 ^ 1074 * (1000000 : Nat)) :=
        div_le_div_of_nonneg_right (Nat.cast_le.2 hle) (by positivity)
    _ = |(|x.value| - |(k : ℚ) / 1000000|)| := by
        rw [← abs_units_sub x k.natAbs (by decide), abs_value, hk]
    _ ≤ |x.value - k / 1000000| := abs_abs_sub_abs_le _ _

/-- What is read back is within a millionth of what was written. -/
theorem abs_readBack_sub_le (hx : x.isFinite = true) :
    |x.readBack.value - x.value| ≤ 1 / 1000000 := by
  have hnear := (roundsTo_readBack hx).abs_le x hx
  have hhalf := x.abs_value_sub_sixPlacesNumber
  calc |x.readBack.value - x.value|
      ≤ |x.readBack.value - (sixPlacesNumber x).value| +
          |(sixPlacesNumber x).value - x.value| := abs_sub_le _ _ _
    _ ≤ |x.value - (sixPlacesNumber x).value| + |x.value - (sixPlacesNumber x).value| := by
        rw [abs_sub_comm (sixPlacesNumber x).value]
        exact add_le_add_left hnear _
    _ ≤ 1 / 1000000 := by linarith

/-! ### The fixed point -/

/-- **Writing with six places is a fixed point.**  The text of a finite double is a number and one
token, a float; it has six places and no exponent, the sign of the double and, of all such numbers,
the value nearest to it.  The finite double that is read from it, the nearest one, has the same text;
and if the adjacent doubles are more than a millionth away, it is the same double. -/
theorem sixPlaces_fixed_point (x : Binary64) (hx : x.isFinite = true) :
    ∃ (n : Number) (y : Binary64), Encoder.doubleText x = n.bytes ∧ n.token = .float ∧
      (∀ bound, (Scanner.scan Scanner.logging bound [] n.bytes).stop = none ∧
        (Scanner.scan Scanner.logging bound [] n.bytes).listener =
          [(.scalar .float n.bytes, n.bytes.length)]) ∧
      n.places.map List.length = some 6 ∧ n.exponent = none ∧ n.negative = x.isNegative ∧
      (∀ k : ℤ, |n.value - x.value| ≤ |(k : ℚ) / 1000000 - x.value|) ∧
      Assembly.scalar .float n.bytes = .ok (.double y) ∧
      RoundsTo n.value y ∧ y.isNegative = n.negative ∧
      Encoder.doubleText y = n.bytes ∧
      ((∀ z, Adjacent x z → 1 / 1000000 < |z.value - x.value|) → y = x) := by
  obtain ⟨-, hnegative, hfinite⟩ := readBack_fields hx
  have htext : Encoder.doubleText x = (sixPlacesNumber x).bytes :=
    (if_pos hx).trans (bytes_sixPlacesNumber x).symm
  have htoken := token_sixPlacesNumber x
  refine ⟨sixPlacesNumber x, x.readBack, htext, htoken, ?_, ?_, rfl, rfl,
    x.abs_sixPlacesNumber_sub_le, ?_, roundsTo_readBack hx, hnegative, ?_, ?_⟩
  · intro bound
    rw [← htoken]
    exact Scanner.scan_number (sixPlacesNumber x) bound
  · exact congrArg some (Decimal.length_padded ..)
  · rw [bytes_sixPlacesNumber]
    exact scalar_sixPlaces x
  · rw [bytes_sixPlacesNumber, ← sixPlaces_readBack hx]
    exact if_pos hfinite
  · intro hadjacent
    exact eq_of_adjacent hx hfinite hnegative (abs_readBack_sub_le hx) hadjacent

/-- The double 2³⁴, whose neighbours are two and four millionths away: it is read back as it is. -/
theorem sixPlaces_fixed_point_large :
    let x : Binary64 := ⟨0x4210000000000000⟩
    x.isFinite = true ∧
      ∃ (n : Number) (y : Binary64), Encoder.doubleText x = n.bytes ∧ n.token = .float ∧
        (∀ bound, (Scanner.scan Scanner.logging bound [] n.bytes).stop = none ∧
          (Scanner.scan Scanner.logging bound [] n.bytes).listener =
            [(.scalar .float n.bytes, n.bytes.length)]) ∧
        n.places.map List.length = some 6 ∧ n.exponent = none ∧ n.negative = x.isNegative ∧
        (∀ k : ℤ, |n.value - x.value| ≤ |(k : ℚ) / 1000000 - x.value|) ∧
        Assembly.scalar .float n.bytes = .ok (.double y) ∧
        RoundsTo n.value y ∧ y.isNegative = n.negative ∧
        Encoder.doubleText y = n.bytes ∧ y = x := by
  intro x
  have hx : x.isFinite = true := by decide
  have hadjacent : ∀ z, Adjacent x z → 1 / 1000000 < |z.value - x.value| := by
    intro z hz
    exact lt_abs_value_sub_of_large (by decide) hz.2.1
  obtain ⟨n, y, htext, htoken, hscan, hplaces, hexponent, hsign, hnearest, hread, hround, hkept,
    hagain, hsame⟩ := sixPlaces_fixed_point x hx
  exact ⟨hx, n, y, htext, htoken, hscan, hplaces, hexponent, hsign, hnearest, hread, hround, hkept,
    hagain, hsame hadjacent⟩

end Binary64

end DocCodec
