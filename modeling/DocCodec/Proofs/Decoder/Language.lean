/-
**The language of the decoder and what it builds.**

A byte string is decoded if and only if it is the text of a tree whose root is a container, which
has room for its containers, and whose parts are sound; what is built is then what the tree
denotes.  The text of any other tree is refused with the error of the tree's first violation, and a
byte string that is no text of a tree is refused as well.

Numbers with a fraction or an exponent denote the nearest double.  An exponent with very many
digits, in a number that itself has very many, is the one exception: the digits of an exponent are
taken up only as long as its size is below 65536.

Main definitions:

* `DocCodec.Grammar.Text.Admitted` — **which texts are decoded**.

Main results:

* `DocCodec.decode_bytes` — **what the text of a tree is decoded as**;
* `DocCodec.exists_text_of_decode` — what is decoded is the text of a tree;
* `DocCodec.decode_language_and_tree` — **the language of the decoder and what it builds**.
-/

import DocCodec.Proofs.Decoder.Assembling
import DocCodec.Proofs.Decoder.Delivery
import DocCodec.Proofs.Scanner.Accepted

set_option relaxedAutoImplicit false
set_option autoImplicit false

namespace DocCodec

/-! ### Texts of trees -/

namespace Grammar

/-- A tree that denotes no container is a scalar, of which an assembly hears a single event. -/
theorem Node.script_of_scalar {n : Node} (h : n.denoted.container? = none) (room start : Nat) :
    ∃ token raw offset, n.script room start = [.event (.scalar token raw) offset] := by
  cases n with
  | word word => exact ⟨_, _, _, rfl⟩
  | number number => exact ⟨_, _, _, rfl⟩
  | string letters => exact ⟨_, _, _, rfl⟩
  | empty kind gap => cases kind <;> cases h
  | array items => cases h
  | object members => cases h

/-- **Which texts are decoded**: their root is a container, they do not nest too deeply, and their
numbers, strings and keys are sound. -/
structure Text.Admitted (t : Text) : Prop where
  isSome_container? : t.root.denoted.container?.isSome = true
  depth_le : t.depth ≤ nestingLimit
  sound : ∀ part ∈ t.root.parts, part.Sound

theorem Text.reading_eq_ok_iff (t : Text) (root : Container) :
    t.reading = .ok root ↔ t.Admitted ∧ t.root.denoted = root.toValue := by
  unfold Text.reading
  constructor
  · intro h
    cases hroot : t.root.denoted.container? with
    | none => rw [hroot] at h; cases h
    | some found =>
        rw [hroot] at h
        obtain ⟨hviolations, rfl⟩ := judge_eq_ok_iff.1 h
        obtain ⟨hdepth, hsound⟩ := (t.root.violations_eq_nil_iff _ _).1 hviolations
        exact ⟨⟨by rw [hroot]; rfl, hdepth, hsound⟩, container?_eq_some_iff.1 hroot⟩
  · rintro ⟨⟨-, hdepth, hsound⟩, hdenoted⟩
    have hviolations := (t.root.violations_eq_nil_iff nestingLimit t.before.bytes.length).2
      ⟨hdepth, hsound⟩
    rw [container?_eq_some_iff.2 hdenoted, hviolations]
    rfl

end Grammar

/-- **What the text of a tree is decoded as.** -/
theorem decode_bytes (t : Grammar.Text) : decode t.bytes = t.reading := by
  have hready : ({} : Assembly).Ready := ⟨rfl, by rintro frame ⟨⟩⟩
  have hscan : decode t.bytes =
      ({} : Assembly).heard (t.root.script nestingLimit t.before.bytes.length) >>=
        Assembly.root := by
    rw [decode_eq_decoded, Decoder.decoded]
    change (Scanner.verdict Decoder.listen { room := nestingLimit } ({} : Assembly)
      t.bytes).mapError _ >>= _ = _
    rw [Scanner.verdict_text, mapError_bind, Assembly.heard]
    cases Scanner.perform Decoder.listen ({} : Assembly)
      (t.root.script nestingLimit t.before.bytes.length) <;> rfl
  rw [hscan, Grammar.Text.reading]
  cases hroot : t.root.denoted.container? with
  | none =>
      -- The only event of a scalar is refused, as there is no container around it.
      obtain ⟨token, raw, offset, hscript⟩ :=
        Grammar.Node.script_of_scalar hroot nestingLimit t.before.bytes.length
      rw [hscript, Assembly.heard_event]
      rfl
  | some root =>
      have hisSome : t.root.denoted.container?.isSome = true := by
        rw [hroot]
        rfl
      have hnode := Assembly.heard_node t.root hready (.inr hisSome) t.before.bytes.length
      have hput : (({} : Assembly).put t.root.denoted).root = judge [] root := by
        simp only [Assembly.put, hroot]
        rfl
      have hjudge := judge_bind (t.root.violations nestingLimit t.before.bytes.length)
        Assembly.root hput
      rw [List.append_nil] at hjudge
      exact (congrArg (· >>= Assembly.root) hnode).trans hjudge

/-- What is decoded is the text of a tree that denotes it. -/
theorem exists_text_of_decode {x : Bytes} {root : Container} (h : decode x = .ok root) :
    ∃ t : Grammar.Text, t.bytes = x ∧ t.Admitted ∧ t.root.denoted = root.toValue := by
  obtain ⟨t, rfl⟩ : ∃ t : Grammar.Text, t.bytes = x := by
    rw [decode_eq_decoded] at h
    obtain ⟨p, hverdict, -⟩ := Scanner.exists_of_bind_ok h
    change (Scanner.verdict Decoder.listen { room := nestingLimit } ({} : Assembly)
      x).mapError _ = _ at hverdict
    cases hscan : Scanner.verdict Decoder.listen { room := nestingLimit } ({} : Assembly) x with
    | error stop => rw [hscan] at hverdict; cases hverdict
    | ok r => exact Scanner.exists_text_of_ok _ hscan
  rw [decode_bytes] at h
  exact ⟨t, rfl, (t.reading_eq_ok_iff root).1 h⟩

/-! ### Numbers -/

/-- An integer that fits into 64 bits is denoted as it is. -/
theorem Grammar.Number.denoted_integer (n : Number) (htoken : n.token = .integer)
    (hfits : Fits n.integer) :
    ∃ number : Int64, n.denoted = .int64 number ∧ number.toInt = n.integer :=
  ⟨_, if_pos htoken, Int64.toInt_ofInt_of_le hfits.1 hfits.2⟩

/-- Any other number is denoted as the nearest double. -/
theorem Grammar.Number.denoted_double (n : Number) (htoken : n.token ≠ .integer) :
    ∃ number : Binary64, n.denoted = .double number ∧ number.isNegative = n.negative ∧
      n.fractionRead.IsNearest number.magnitude ∧
      (n.IsShort → n.fraction.IsNearest number.magnitude) := by
  have hnearest : n.fractionRead.IsNearest n.fractionRead.magnitude :=
    n.fractionRead.isNearest_magnitude
  obtain ⟨hmagnitude, hnegative⟩ :=
    Binary64.ofMagnitude_fields n.negative hnearest.le_infinity
  refine ⟨_, if_neg htoken, hnegative, ?_, ?_⟩
  · rw [hmagnitude]
    exact hnearest
  · intro hshort
    rw [hmagnitude]
    exact n.isNearest_fraction hshort

/-! ### The language and the tree -/

/-- **The language of the decoder and what it builds.**  The violations of a text are in the order
of its bytes, and it is read as the error of the first one; an integer denotes itself, and another
number the double nearest to it. -/
theorem decode_language_and_tree (x : Bytes) :
    (∀ root, decode x = .ok root ↔
      ∃ t : Grammar.Text, t.bytes = x ∧ t.Admitted ∧ t.root.denoted = root.toValue) ∧
    (∀ t : Grammar.Text, t.bytes = x → decode x = t.reading ∧
      Grammar.Ordered t.before.bytes.length x.length
        (t.root.violations nestingLimit t.before.bytes.length)) ∧
    (∀ n : Grammar.Number, n.token = .integer → Grammar.Fits n.integer →
      ∃ number : Int64, n.denoted = .int64 number ∧ number.toInt = n.integer) ∧
    ∀ n : Grammar.Number, n.token ≠ .integer →
      ∃ number : Binary64, n.denoted = .double number ∧ number.isNegative = n.negative ∧
        n.fractionRead.IsNearest number.magnitude ∧
        (n.IsShort → n.fraction.IsNearest number.magnitude) := by
  refine ⟨fun root => ⟨?_, ?_⟩, ?_, Grammar.Number.denoted_integer, Grammar.Number.denoted_double⟩
  · exact exists_text_of_decode
  · rintro ⟨t, rfl, h⟩
    rw [decode_bytes]
    exact (t.reading_eq_ok_iff root).2 h
  · rintro t rfl
    refine ⟨decode_bytes t, (t.root.ordered_violations _ _).mono (Nat.le_refl _) ?_⟩
    simp only [Grammar.Text.bytes, List.length_append]
    omega

/-- An array that holds a single number. -/
def singleton (n : Grammar.Number) : Grammar.Text :=
  ⟨.none, .array (.last .none (.number n) .none), .none⟩

theorem decode_singleton {n : Grammar.Number} (htoken : n.token ≠ .integer) :
    decode (singleton n).bytes = .ok (.array [.scalar n.denoted]) := by
  have hdepth : (singleton n).depth ≤ nestingLimit := Nat.le_of_ble_eq_true rfl
  rw [decode_bytes, Grammar.Text.reading_eq_ok_iff]
  refine ⟨⟨rfl, hdepth, ?_⟩, rfl⟩
  intro part hpart
  rw [List.mem_singleton.1 hpart]
  intro h
  exact absurd h htoken

/-- The number that has a single one after the point, behind some zeros, and an exponent. -/
def pointOne (zeros : Nat) (exponent : Grammar.Exponent) : Grammar.Number where
  negative := false
  whole := [Ascii.zero]
  places := some (List.replicate zeros Ascii.zero ++ [Ascii.byte '1'])
  exponent := some exponent
  isWhole_whole := .inl rfl
  isDigits_of_mem := by
    rintro digits ⟨⟩
    refine ⟨by simp, ?_⟩
    intro b hb
    rcases List.mem_append.1 hb with hb | hb
    · rw [List.eq_of_mem_replicate hb]
      rfl
    · rw [List.mem_singleton.1 hb]
      rfl

theorem valueFrom_replicate_zero (count : Nat) (digits : Bytes) :
    Decimal.valueFrom 0 (List.replicate count Ascii.zero ++ digits) =
      Decimal.valueFrom 0 digits := by
  induction count with
  | zero => rfl
  | succ count ih => exact ih

theorem sized_pointOne (zeros : Nat) (exponent : Grammar.Exponent) (size : Bytes → Nat) :
    (pointOne zeros exponent).sized size = ⟨1, exponent.sized size - (zeros + 1 : Nat)⟩ := by
  have hvalue : Decimal.value (pointOne zeros exponent).digits = 1 := by
    have hdigits : (pointOne zeros exponent).digits =
        List.replicate (zeros + 1) Ascii.zero ++ [Ascii.byte '1'] := rfl
    rw [hdigits, Decimal.value_eq_valueFrom, valueFrom_replicate_zero]
    rfl
  have hlength : ((pointOne zeros exponent).places.getD []).length = zeros + 1 := by
    simp [pointOne]
  rw [Grammar.Number.sized, hvalue, hlength]
  rfl

theorem token_pointOne (zeros : Nat) (exponent : Grammar.Exponent) :
    (pointOne zeros exponent).token ≠ .integer := by
  rw [ne_eq, Grammar.Number.token_eq_integer_iff]
  nofun

/-- The exponent 655360. -/
def longExponent : Grammar.Exponent where
  mark := Ascii.byte 'e'
  sign := none
  digits := [Ascii.byte '6', Ascii.byte '5', Ascii.byte '5', Ascii.byte '3', Ascii.byte '6',
    Ascii.zero]
  isExponentMark_mark := rfl
  isSign_of_mem := nofun
  isDigits_digits := ⟨nofun, List.all_eq_true.1 rfl⟩

/-- With 65535 zeros and the exponent 655360 this is the number 10⁵⁸⁹⁸²⁴, for which infinity is
nearest; but it is decoded as one, as the last digit of its exponent is not taken up. -/
theorem decode_longExponent :
    decode (singleton (pointOne 65535 longExponent)).bytes =
        .ok (.array [.scalar (.double ⟨0x3FF0000000000000⟩)]) ∧
      (pointOne 65535 longExponent).fraction.IsNearest Binary64.infinity ∧
      ¬ (pointOne 65535 longExponent).fraction.IsNearest
        (Binary64.magnitude ⟨0x3FF0000000000000⟩) := by
  have hread : (pointOne 65535 longExponent).fractionRead = ⟨1, .ofNat 0⟩ := sized_pointOne ..
  have hvalue : Decimal.value longExponent.digits = 655360 := by
    rw [Decimal.value_eq_valueFrom]
    rfl
  -- The exponent is kept as a variable, as the power of ten is too large to be evaluated.
  obtain ⟨k, hk, hfraction⟩ :
      ∃ k, 310 ≤ k ∧ (pointOne 65535 longExponent).fraction = ⟨1, .ofNat k⟩ := by
    refine ⟨655360 - 65536, by decide, ?_⟩
    rw [Grammar.Number.fraction, sized_pointOne, Grammar.Exponent.sized, hvalue]
    rfl
  have hmagnitude : Numeral.Fraction.magnitude ⟨1, .ofNat 0⟩ = 0x3FF0000000000000 := by
    decide +kernel
  have hinfinite : (pointOne 65535 longExponent).fraction.IsNearest Binary64.infinity := by
    rw [hfraction]
    exact Numeral.Fraction.isNearest_of_large Nat.one_ne_zero hk
  refine ⟨?_, ?_, ?_⟩
  · have htoken := token_pointOne 65535 longExponent
    rw [decode_singleton htoken, Grammar.Number.denoted, if_neg htoken, hread, hmagnitude]
    rfl
  · exact hinfinite
  · intro h
    have heq := Numeral.Fraction.IsNearest.unique h hinfinite
    revert heq
    decide

end DocCodec
