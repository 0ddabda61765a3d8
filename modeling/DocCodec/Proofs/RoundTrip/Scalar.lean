/-
**The texts of scalars, read back.**

The text that is written of a scalar renders the scalar's normal form: an integer of 64 bits for
every integer, a string for every text, and a plain document for a value that only the document
format has.  The hexadecimal and base64 texts in these documents are the standard ones, however they
were put into the buffers of the writer.

Main definitions:

* `DocCodec.Binary64.readBack` — the double that the text of a double is read back as;
* `DocCodec.Scalar.normal`, `DocCodec.Scalar.nesting` — **the normal form of a scalar** and how many
  containers of its text are open at a time.

Main results:

* `DocCodec.double?_sixPlaces` — the text of a double with six places is read back;
* `DocCodec.renders_scalarText` — **the text of a scalar** renders its normal form.
-/

import DocCodec.Proofs.Encoder.Base64
import DocCodec.Proofs.Hex
import DocCodec.Proofs.RoundTrip.Rendered

set_option relaxedAutoImplicit false
set_option autoImplicit false

namespace DocCodec

open Grammar (Number Part Spaces Fits IsDigits IsWhole)

/-! ### Normal forms -/

/-- The double that the text of a double with six places is read back as: the one nearest to its
millionths. -/
def Binary64.readBack (x : Binary64) : Binary64 :=
  ofMagnitude x.isNegative (nearest x.millionths 1000000)

/-- An integer as a value. -/
def Value.ofInteger (z : Int) : Value := .scalar (.int64 (Int64.ofInt z))

namespace Scalar

/-- **The normal form of a scalar**: what it is read back as. -/
def normal : Scalar → Value
  | .double number => .scalar (if number.isFinite then .double number.readBack else .null)
  | .string content | .code content | .symbol content => .ofText (Utf8.repair content)
  | .binary subtype content =>
    .document [("$type", .ofText (Hex.standard [subtype])),
      ("$binary", .ofText (Base64.standard content))]
  | .undefined => .document [("$undefined", .scalar (.boolean true))]
  | .objectId id => .document [("$oid", .ofText (Hex.standard id.bytes))]
  | .boolean truth => .scalar (.boolean truth)
  | .date milliseconds => .document [("$date", .scalar (.int64 milliseconds))]
  | .null => .scalar .null
  | .regex pattern options =>
    .document [("$regex", .ofText (Utf8.encode pattern)),
      ("$options", .ofText (Utf8.encode options))]
  | .dbPointer collection none => .document [("$ref", .ofText (Utf8.encode collection))]
  | .dbPointer collection (some id) =>
    .document [("$ref", .ofText (Utf8.encode collection)),
      ("$id", .ofText (Hex.standard id.bytes))]
  | .int32 number => .ofInteger number.toInt
  | .timestamp seconds ordinal =>
    .document [("$timestamp",
      .document [("t", .ofInteger seconds.toNat), ("i", .ofInteger ordinal.toNat)])]
  | .int64 number => .scalar (.int64 number)
  | .minKey => .document [("$minKey", .ofInteger 1)]
  | .maxKey => .document [("$maxKey", .ofInteger 1)]

/-- How many containers of the text of a scalar are open at a time. -/
def nesting : Scalar → Nat
  | .binary _ _ | .undefined | .objectId _ | .date _ | .regex _ _ | .dbPointer _ _ | .minKey
  | .maxKey => 1
  | .timestamp _ _ => 2
  | _ => 0

theorem nesting_le_two (content : Scalar) : content.nesting ≤ 2 := by
  cases content <;> exact Nat.le_of_ble_eq_true rfl

end Scalar

/-! ### Digits -/

namespace Decimal

theorem toUInt8_digitChar : ∀ d < 10, (Nat.digitChar d).toUInt8 = UInt8.ofNat (48 + d) := by decide

theorem isDigit_ofNat : ∀ d < 10, Ascii.isDigit (UInt8.ofNat (48 + d)) = true := by decide

theorem ofNat_ne_zero : ∀ d < 10, d ≠ 0 → UInt8.ofNat (48 + d) ≠ Ascii.zero := by decide

theorem ofNat_eq_if (n : Nat) :
    ofNat n = if n < 10 then [UInt8.ofNat (48 + n)]
      else ofNat (n / 10) ++ [UInt8.ofNat (48 + n % 10)] := by
  unfold ofNat
  rw [Nat.toDigits_eq_if (by decide)]
  split
  · next h => rw [List.map_singleton, toUInt8_digitChar n h]
  · rw [List.map_append, List.map_singleton, toUInt8_digitChar _ (Nat.mod_lt n (by decide))]

/-- The numeral of a positive number does not start with a zero. -/
theorem exists_lead_ofNat (n : Nat) (hn : n ≠ 0) :
    ∃ lead rest, ofNat n = lead :: rest ∧ Ascii.isDigit lead = true ∧ lead ≠ Ascii.zero ∧
      ∀ b ∈ rest, Ascii.isDigit b = true := by
  induction n using Nat.strongRecOn with
  | ind n ih =>
      rw [ofNat_eq_if]
      split
      · next h => exact ⟨_, [], rfl, isDigit_ofNat n h, ofNat_ne_zero n h hn, nofun⟩
      · next h =>
          obtain ⟨lead, rest, heq, hlead, hzero, hrest⟩ := ih (n / 10) (by omega) (by omega)
          refine ⟨lead, rest ++ [UInt8.ofNat (48 + n % 10)], by rw [heq]; rfl, hlead, hzero, ?_⟩
          intro b hb
          rcases List.mem_append.1 hb with hb | hb
          · exact hrest b hb
          · rw [List.mem_singleton.1 hb]
            exact isDigit_ofNat _ (Nat.mod_lt n (by decide))

/-- The numeral of a number is an integer part of the grammar. -/
theorem isWhole_ofNat (n : Nat) : IsWhole (ofNat n) := by
  by_cases hn : n = 0
  · rw [hn]
    exact .inl rfl
  · exact .inr (exists_lead_ofNat n hn)

theorem isDigit_of_mem_padded {count n : Nat} {b : UInt8} (h : b ∈ padded count n) :
    Ascii.isDigit b = true := by
  induction count generalizing n with
  | zero => cases h
  | succ count ih =>
      rcases List.mem_append.1 h with h | h
      · exact ih h
      · rw [List.mem_singleton.1 h]
        exact isDigit_ofNat _ (Nat.mod_lt n (by decide))

theorem valueFrom_append (n : Nat) (first second : Bytes) :
    valueFrom n (first ++ second) = valueFrom (valueFrom n first) second := List.foldl_append

/-- The last digits of a number denote what they are of it. -/
theorem valueFrom_padded (count n rest : Nat) :
    valueFrom n (padded count rest) = n * 10 ^ count + rest % 10 ^ count := by
  induction count generalizing rest with
  | zero => simp [padded, valueFrom, Nat.mod_one]
  | succ count ih =>
      have hdigit : ∀ d < 10, (UInt8.ofNat (48 + d)).toNat - 48 = d := by decide
      have hmod : rest % 10 ^ (count + 1) = 10 * (rest / 10 % 10 ^ count) + rest % 10 := by
        rw [Nat.pow_succ', Nat.mod_mul]
        omega
      rw [padded, valueFrom_append, ih, hmod, Nat.pow_succ]
      change 10 * (n * 10 ^ count + rest / 10 % 10 ^ count) + _ = _
      rw [hdigit _ (Nat.mod_lt rest (by decide))]
      grind

end Decimal

/-! ### Numbers -/

/-- The number of a numeral, with or without a sign. -/
def numeral (negative : Bool) (n : Nat) : Number where
  negative := negative
  whole := Decimal.ofNat n
  places := none
  exponent := none
  isWhole_whole := Decimal.isWhole_ofNat n
  isDigits_of_mem := nofun

theorem bytes_numeral (negative : Bool) (n : Nat) :
    (numeral negative n).bytes = (if negative then [Ascii.minus] else []) ++ Decimal.ofNat n := by
  have hbytes : (numeral negative n).bytes =
      (if negative then [Ascii.minus] else []) ++ (Decimal.ofNat n ++ []) := rfl
  rw [hbytes, List.append_nil]

theorem renders_numeral (negative : Bool) (n : Nat) {z : Int}
    (hz : (if negative then -(n : Int) else n) = z) (h : Fits z) :
    Renders (numeral negative n).bytes (.ofInteger z) 0 := by
  have htoken : (numeral negative n).token = .integer :=
    (numeral negative n).token_eq_integer_iff.2 ⟨rfl, rfl⟩
  have hinteger : (numeral negative n).integer = z := by
    rw [Number.integer, ← hz]
    simp only [numeral, Decimal.value_ofNat]
  refine ⟨.number (numeral negative n), rfl, ?_, rfl, List.forall_mem_singleton.2 ?_⟩
  · rw [Grammar.Node.denoted, Number.denoted, if_pos htoken, hinteger]
    rfl
  · intro _
    rw [hinteger]
    exact h

/-- **The numeral of an integer** that fits into 64 bits. -/
theorem renders_ofInt {z : Int} (h : Fits z) : Renders (Decimal.ofInt z) (.ofInteger z) 0 := by
  cases z with
  | ofNat n =>
      have hnumeral := renders_numeral false n rfl h
      rw [bytes_numeral] at hnumeral
      exact hnumeral
  | negSucc n =>
      have hnumeral := renders_numeral true (n + 1) rfl h
      rw [bytes_numeral] at hnumeral
      exact hnumeral

theorem fits_int64 (n : Int64) : Fits n.toInt := ⟨n.le_toInt, n.toInt_lt⟩

theorem fits_int32 (n : Int32) : Fits n.toInt := by
  have hle := n.le_toInt
  have hlt := n.toInt_lt
  unfold Fits
  omega

theorem fits_uint32 (n : UInt32) : Fits n.toNat := by
  have hlt := n.toNat_lt
  unfold Fits
  omega

/-! ### Doubles -/

/-- The number of the text of a double with six places. -/
def sixPlacesNumber (x : Binary64) : Number where
  negative := x.isNegative
  whole := Decimal.ofNat (x.millionths / 1000000)
  places := some (Decimal.padded 6 (x.millionths % 1000000))
  exponent := none
  isWhole_whole := Decimal.isWhole_ofNat _
  isDigits_of_mem := by
    rintro digits ⟨⟩
    refine ⟨?_, fun b hb => Decimal.isDigit_of_mem_padded hb⟩
    intro hnil
    have hlength := congrArg List.length hnil
    rw [Decimal.length_padded] at hlength
    cases hlength

theorem bytes_sixPlacesNumber (x : Binary64) : (sixPlacesNumber x).bytes = x.sixPlaces := by
  have hbytes : (sixPlacesNumber x).bytes = (if x.isNegative then [Ascii.minus] else []) ++
      (Decimal.ofNat (x.millionths / 1000000) ++
        ((Ascii.point :: Decimal.padded 6 (x.millionths % 1000000)) ++ [])) := rfl
  rw [hbytes, List.append_nil, ← List.append_assoc]
  rfl

/-- The text of a double with six places denotes its millionths. -/
theorem fractionRead_sixPlacesNumber (x : Binary64) :
    (sixPlacesNumber x).fractionRead = ⟨x.millionths, .negSucc 5⟩ := by
  have hvalue : Decimal.value (sixPlacesNumber x).digits = x.millionths := by
    have hdigits : (sixPlacesNumber x).digits = Decimal.ofNat (x.millionths / 1000000) ++
        Decimal.padded 6 (x.millionths % 1000000) := rfl
    have hwhole := Decimal.value_ofNat (x.millionths / 1000000)
    rw [Decimal.value_eq_valueFrom] at hwhole
    rw [hdigits, Decimal.value_eq_valueFrom, Decimal.valueFrom_append, hwhole,
      Decimal.valueFrom_padded]
    omega
  have hlength : ((sixPlacesNumber x).places.getD []).length = 6 := Decimal.length_padded ..
  rw [Number.fractionRead, Number.sized, hvalue, hlength]
  rfl

theorem magnitude_millionths (count : Nat) :
    Numeral.Fraction.magnitude ⟨count, .negSucc 5⟩ = Binary64.nearest count 1000000 := by
  have hlarge : ¬ Nat.log2 count + 1077 < 3 * (5 + 1) := by omega
  unfold Numeral.Fraction.magnitude
  split
  · next hzero =>
      change count = 0 at hzero
      rw [hzero]
      decide +kernel
  · exact if_neg hlarge

/-- **The text of a double with six places is read back** as the double nearest to its
millionths. -/
theorem double?_sixPlaces (x : Binary64) : Numeral.double? x.sixPlaces = some x.readBack := by
  rw [← bytes_sixPlacesNumber, Number.double?_bytes, fractionRead_sixPlacesNumber,
    magnitude_millionths]
  rfl

theorem renders_sixPlaces (x : Binary64) :
    Renders x.sixPlaces (.scalar (.double x.readBack)) 0 := by
  have htoken : (sixPlacesNumber x).token ≠ .integer := by
    rw [ne_eq, Number.token_eq_integer_iff]
    rintro ⟨⟨⟩, -⟩
  refine ⟨.number (sixPlacesNumber x), bytes_sixPlacesNumber x, ?_, rfl,
    List.forall_mem_singleton.2 fun h => absurd h htoken⟩
  rw [Grammar.Node.denoted, Number.denoted, if_neg htoken, fractionRead_sixPlacesNumber,
    magnitude_millionths]
  rfl

/-! ### Digits in quotation marks -/

/-- Bytes that are written and read back as they are. -/
def IsPlain (b : UInt8) : Prop := b < 0x80 ∧ Literal.escape? b = none

instance (b : UInt8) : Decidable (IsPlain b) := inferInstanceAs (Decidable (_ ∧ _))

/-- Digits in quotation marks. -/
theorem renders_quotedDigits {digits : Bytes} (h : ∀ b ∈ digits, IsPlain b) :
    Renders (Encoder.quotedDigits digits) (.ofText digits) 0 := by
  obtain ⟨hencode, hrepair⟩ := Literal.encode_of_plain h
  have hquoted := renders_quoted digits
  rw [hrepair, Literal.quoted, hencode] at hquoted
  exact hquoted

theorem Hex.isPlain_digit : ∀ n < 16, IsPlain (digit n) := by decide

theorem Hex.isPlain_of_mem_pair {b c : UInt8} (h : c ∈ pair b) : IsPlain c := by
  have hb := b.toNat_lt
  simp only [pair, List.mem_cons, List.not_mem_nil, or_false] at h
  rcases h with rfl | rfl
  · exact isPlain_digit _ (by omega)
  · exact isPlain_digit _ (by omega)

theorem Hex.isPlain_of_mem_standard {bytes : Bytes} {c : UInt8} (h : c ∈ standard bytes) :
    IsPlain c := by
  rw [← ofBytes_eq_standard] at h
  obtain ⟨b, -, hc⟩ := List.mem_flatMap.1 h
  exact isPlain_of_mem_pair hc

theorem renders_standardHex (bytes : Bytes) :
    Renders (Encoder.quotedDigits (Hex.standard bytes)) (.ofText (Hex.standard bytes)) 0 :=
  renders_quotedDigits fun _ hc => Hex.isPlain_of_mem_standard hc

theorem renders_hexPair (b : UInt8) :
    Renders (Encoder.quotedDigits (Hex.pair b)) (.ofText (Hex.standard [b])) 0 := by
  rw [Hex.pair_eq_standard]
  exact renders_standardHex [b]

theorem renders_toHex (id : ObjectId) :
    Renders (Encoder.quotedDigits id.toHex) (.ofText (Hex.standard id.bytes)) 0 := by
  rw [id.toHex_eq_standard]
  exact renders_standardHex id.bytes

namespace Base64

theorem isPlain_digit : ∀ n < 64, IsPlain (digit n) := by decide

theorem isPlain_pad : IsPlain pad := by decide

theorem isPlain_of_mem_encode {bytes : Bytes} {c : UInt8} (h : c ∈ encode bytes) : IsPlain c := by
  fun_induction encode bytes with
  | case1 => cases h
  | case2 a =>
      have ha := a.toNat_lt
      simp only [List.mem_cons, List.not_mem_nil, or_false] at h
      rcases h with rfl | rfl | rfl | rfl
      · exact isPlain_digit _ (by omega)
      · exact isPlain_digit _ (by omega)
      · exact isPlain_pad
      · exact isPlain_pad
  | case3 a b =>
      have ha := a.toNat_lt
      have hb := b.toNat_lt
      simp only [List.mem_cons, List.not_mem_nil, or_false] at h
      rcases h with rfl | rfl | rfl | rfl
      · exact isPlain_digit _ (by omega)
      · exact isPlain_digit _ (by omega)
      · exact isPlain_digit _ (by omega)
      · exact isPlain_pad
  | case4 a b c rest ih =>
      have ha := a.toNat_lt
      have hb := b.toNat_lt
      have hc := c.toNat_lt
      simp only [group, List.mem_append, List.mem_cons, List.not_mem_nil, or_false] at h
      rcases h with (rfl | rfl | rfl | rfl) | h
      · exact isPlain_digit _ (by omega)
      · exact isPlain_digit _ (by omega)
      · exact isPlain_digit _ (by omega)
      · exact isPlain_digit _ (by omega)
      · exact ih h

theorem isPlain_of_mem_standard {bytes : Bytes} {c : UInt8} (h : c ∈ standard bytes) :
    IsPlain c := by
  rw [← encode_eq_standard] at h
  exact isPlain_of_mem_encode h

end Base64

theorem renders_base64 (content : Bytes) :
    Renders (Encoder.quotedDigits (Base64.blocks content).flatten)
      (.ofText (Base64.standard content)) 0 := by
  rw [Base64.flatten_blocks, Base64.encode_eq_standard]
  exact renders_quotedDigits fun _ hc => Base64.isPlain_of_mem_standard hc

/-! ### Scalars -/

theorem renders_booleanText (truth : Bool) :
    Renders (Encoder.booleanText truth) (.scalar (.boolean truth)) 0 := by
  cases truth with
  | true => exact ⟨.word .true, by decide, rfl, rfl, nofun⟩
  | false => exact ⟨.word .false, by decide, rfl, rfl, nofun⟩

theorem renders_nullText : Renders Encoder.nullText (.scalar .null) 0 :=
  ⟨.word .null, by decide, rfl, rfl, nofun⟩

theorem renders_doubleText (x : Binary64) :
    Renders (Encoder.doubleText x)
      (.scalar (if x.isFinite then .double x.readBack else .null)) 0 := by
  unfold Encoder.doubleText
  split
  · exact renders_sixPlaces x
  · exact renders_nullText

/-- Renderings of entries as a small object. -/
theorem renders_object {text : Bytes} {texts : List Bytes} {entries : Document} {depth : Nat}
    (h : RendersMembers (text :: texts) entries depth) :
    Renders (Encoder.object (text :: texts)) (.document entries) (depth + 1) := renders_document h

/-- A part of a timestamp. -/
theorem rendersEntry_part (name : String) (number : UInt32) :
    RendersEntry (Encoder.timestampText.part name number) (name, .ofInteger number.toNat) 0 := by
  have hentry := (renders_ofInt (fits_uint32 number)).entry name .none
  rw [Spaces.bytes_none, List.append_nil] at hentry
  exact hentry

/-- **The text of a scalar** renders its normal form. -/
theorem renders_scalarText (content : Scalar) :
    Renders (Encoder.scalarText content) content.normal content.nesting := by
  have hone : Renders (Decimal.ofNat 1) (.ofInteger 1) 0 :=
    renders_ofInt (show Fits 1 by decide)
  cases content with
  | double number => exact renders_doubleText number
  | string content => exact renders_quoted content
  | binary subtype content =>
      exact renders_object (.cons ((renders_hexPair subtype).member _)
        (.cons ((renders_base64 content).member _) .nil))
  | undefined => exact renders_object (.cons ((renders_booleanText true).member _) .nil)
  | objectId id => exact renders_object (.cons ((renders_toHex id).member _) .nil)
  | boolean truth => exact renders_booleanText truth
  | date milliseconds =>
      have hnumber := renders_ofInt (fits_int64 milliseconds)
      rw [Value.ofInteger, Int64.ofInt_toInt] at hnumber
      exact renders_object (.cons (hnumber.member _) .nil)
  | null => exact renders_nullText
  | regex pattern options =>
      exact renders_object (.cons ((renders_quotedText pattern).member _)
        (.cons ((renders_quotedText options).member _) .nil))
  | dbPointer collection id =>
      have hcollection := (renders_quotedText collection).member "$ref"
      cases id with
      | none => exact renders_object (.cons hcollection .nil)
      | some id =>
          exact renders_object (.cons hcollection (.cons ((renders_toHex id).member _) .nil))
  | code content => exact renders_quoted content
  | symbol content => exact renders_quoted content
  | int32 number => exact renders_ofInt (fits_int32 number)
  | timestamp seconds ordinal =>
      have hparts := renders_object (.cons (rendersEntry_part "t" seconds)
        (.cons (rendersEntry_part "i" ordinal) .nil))
      exact renders_object (.cons (hparts.member _) .nil)
  | int64 number =>
      have hnumber := renders_ofInt (fits_int64 number)
      rw [Value.ofInteger, Int64.ofInt_toInt] at hnumber
      exact hnumber
  | minKey => exact renders_object (.cons (hone.member _) .nil)
  | maxKey => exact renders_object (.cons (hone.member _) .nil)

end DocCodec
