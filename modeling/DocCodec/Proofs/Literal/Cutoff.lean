/-
**What is read from a literal, whatever its bytes are.**

A literal denotes what its letters denote, one after another: a plain byte itself, an escape of one
letter its byte, an escape by number its character, and the two escapes of a surrogate pair one
character together.  All of it is read, but for one thing: the reader drops a sequence that the end
of the literal cuts off.  What is dropped is the last lead byte with all that follows it, if that is
continuation bytes only and fewer than the lead byte announces.

Surrogates are out of their pairs at places that can be named: a high one that is not followed by a
low one, or a low one that does not follow a high one.

Main definitions:

* `DocCodec.Utf8.CutOff`, `DocCodec.Utf8.FinalRun` — **the sequence that the end cuts off**, if any;
* `DocCodec.Grammar.Letters.Denotes` — **what a literal denotes**, letter by letter;
* `DocCodec.Grammar.Letters.Unpaired` — whether a surrogate is out of its pair.

Main results:

* `DocCodec.Grammar.Letters.denotes_iff` — literals whose surrogates are in pairs denote bytes;
* `DocCodec.Grammar.Letters.paired_eq_false_iff` — the others have a surrogate out of its pair;
* `DocCodec.Grammar.Letters.decode?_raw_iff` — **all but the final run is read**.
-/

import DocCodec.Proofs.Literal.Complete

set_option relaxedAutoImplicit false
set_option autoImplicit false

namespace DocCodec

/-! ### The sequence that the end cuts off -/

namespace Utf8

/-- Whether bytes are a lead byte and fewer continuation bytes than it announces. -/
def CutOff (run : Bytes) : Prop :=
  ∃ lead trailing, run = lead :: trailing ∧ trailing.length + 1 < sequenceLength lead ∧
    ∀ b ∈ trailing, isContinuation b = true

/-- **The sequence that the end of a byte string cuts off**, or nothing if there is none. -/
def FinalRun (bytes run : Bytes) : Prop :=
  run <:+ bytes ∧ (CutOff run ∨ run = [] ∧ ∀ part, part <:+ bytes → ¬CutOff part)

/-- The sequences that are cut off are those that the reader finds. -/
theorem shape_eq_cut_iff (lead : UInt8) (rest : Bytes) :
    shape lead rest = .cut ↔ CutOff (lead :: rest) := by
  constructor
  · intro h
    refine ⟨lead, rest, rfl, ?_, isContinuation_of_cut h⟩
    unfold shape at h
    split at h
    · cases h
    · next trailing hlength =>
        simp only [List.length_take] at h
        split at h
        · split at h
          · cases h
          · rw [hlength]
            omega
        · cases h
  · rintro ⟨_, _, heq, hlength, hall⟩
    cases heq
    obtain ⟨trailing, htrailing⟩ := Nat.exists_eq_succ_of_ne_zero (Nat.ne_zero_of_lt hlength)
    have hlt : rest.length < trailing := by omega
    have htake : rest.take trailing = rest := List.take_of_length_le (Nat.le_of_lt hlt)
    simp only [shape, htrailing, htake]
    rw [if_pos (List.all_eq_true.2 hall), if_neg (Nat.ne_of_lt hlt)]

/-- ASCII announces nothing. -/
theorem not_cutOff_of_ascii {b : UInt8} (h : b < 0x80) (rest : Bytes) : ¬CutOff (b :: rest) := by
  rintro ⟨_, _, heq, hlength, -⟩
  cases heq
  rw [sequenceLength, if_pos h] at hlength
  omega

theorem finalRun_nil : FinalRun [] [] := by
  refine ⟨List.suffix_rfl, .inr ⟨rfl, ?_⟩⟩
  rintro part hpart ⟨lead, trailing, rfl, -⟩
  cases List.suffix_nil.1 hpart

/-- A byte that begins no sequence which is cut off does not matter. -/
theorem FinalRun.cons {bytes run : Bytes} (h : FinalRun bytes run) {b : UInt8}
    (hb : ¬CutOff (b :: bytes)) : FinalRun (b :: bytes) run := by
  obtain ⟨hsuffix, hrun⟩ := h
  refine ⟨hsuffix.trans (List.suffix_cons b bytes), hrun.imp id ?_⟩
  rintro ⟨rfl, hnone⟩
  refine ⟨rfl, ?_⟩
  intro part hpart
  rcases List.suffix_cons_iff.1 hpart with rfl | hpart
  · exact hb
  · exact hnone part hpart

theorem FinalRun.append {bytes run : Bytes} (h : FinalRun bytes run) {first : Bytes}
    (hfirst : ∀ b ∈ first, b < 0x80) : FinalRun (first ++ bytes) run := by
  induction first with
  | nil => exact h
  | cons b first ih =>
      obtain ⟨hb, hfirst⟩ := List.forall_mem_cons.1 hfirst
      exact (ih hfirst).cons (not_cutOff_of_ascii hb _)

/-- A sequence that is cut off does not begin within another, where only continuation bytes are. -/
theorem CutOff.eq_of_suffix {short long : Bytes} (hshort : CutOff short) (hlong : CutOff long)
    (h : short <:+ long) : short = long := by
  obtain ⟨lead, trailing, rfl, -, hall⟩ := hlong
  rcases List.suffix_cons_iff.1 h with rfl | h
  · rfl
  · obtain ⟨b, rest, rfl, hlength, -⟩ := hshort
    have hcontinuation := hall b (h.subset List.mem_cons_self)
    simp only [isContinuation, Bool.and_eq_true, decide_eq_true_eq] at hcontinuation
    rw [sequenceLength, if_neg (UInt8.not_lt.2 hcontinuation.1), if_pos hcontinuation.2] at hlength
    exact absurd hlength (Nat.not_lt_zero _)

/-- There is one final run. -/
theorem FinalRun.unique {bytes first second : Bytes} (hfirst : FinalRun bytes first)
    (hsecond : FinalRun bytes second) : first = second := by
  obtain ⟨hfirst, hcut | ⟨rfl, hnone⟩⟩ := hfirst
  · obtain ⟨hsecond, hcut' | ⟨rfl, hnone⟩⟩ := hsecond
    · rcases List.suffix_or_suffix_of_suffix hfirst hsecond with h | h
      · exact hcut.eq_of_suffix hcut' h
      · exact (hcut'.eq_of_suffix hcut h).symm
    · exact absurd hcut (hnone first hfirst)
  · obtain ⟨hsecond, hcut | ⟨rfl, -⟩⟩ := hsecond
    · exact absurd hcut (hnone second hsecond)
    · rfl

end Utf8

namespace Grammar

open Utf8 (FinalRun)

/-! ### What a literal denotes -/

/-- **What a literal denotes**, letter by letter. -/
inductive Letters.Denotes : Letters → Bytes → Prop
  | nil : Denotes [] []
  | plain {byte : UInt8} {ok} {rest : Letters} {bytes : Bytes} (h : Denotes rest bytes) :
      Denotes (.plain byte ok :: rest) (byte :: bytes)
  | escape {letter byte : UInt8} {ok} (hbyte : (letter, byte) ∈ Letter.escapes)
      {rest : Letters} {bytes : Bytes} (h : Denotes rest bytes) :
      Denotes (.escape letter ok :: rest) (byte :: bytes)
  /-- An escape by the number of a character. -/
  | unit {letter : Letter} {c : Char} (hunit : letter.unit? = some c.toNat) {rest : Letters}
      {bytes : Bytes} (h : Denotes rest bytes) :
      Denotes (letter :: rest) (String.utf8EncodeChar c ++ bytes)
  /-- A surrogate pair, which has ten bits of a character's number in each half. -/
  | pair {high low : Letter} {x y : Nat} (hx : x < 0x400) (hhigh : high.unit? = some (0xD800 + x))
      (hy : y < 0x400) (hlow : low.unit? = some (0xDC00 + y)) {c : Char}
      (hc : c.toNat = 0x10000 + x * 0x400 + y) {rest : Letters} {bytes : Bytes}
      (h : Denotes rest bytes) :
      Denotes (high :: low :: rest) (String.utf8EncodeChar c ++ bytes)

namespace Letter

/-- The first half of a pair. -/
theorem isHigh_iff (letter : Letter) :
    letter.isHigh = true ↔ ∃ x < 0x400, letter.unit? = some (0xD800 + x) := by
  simp only [isHigh, Option.any_eq_true, Literal.isHighSurrogate, Bool.and_eq_true,
    decide_eq_true_eq]
  constructor
  · rintro ⟨unit, hunit, hle, hlt⟩
    refine ⟨unit - 0xD800, by omega, ?_⟩
    rw [hunit, Nat.add_sub_cancel' hle]
  · rintro ⟨x, hx, hunit⟩
    exact ⟨_, hunit, by omega, by omega⟩

/-- The second half of a pair. -/
theorem isLow_iff (letter : Letter) :
    letter.isLow = true ↔ ∃ y < 0x400, letter.unit? = some (0xDC00 + y) := by
  simp only [isLow, Option.any_eq_true, Literal.isLowSurrogate, Bool.and_eq_true,
    decide_eq_true_eq]
  constructor
  · rintro ⟨unit, hunit, hle, hlt⟩
    refine ⟨unit - 0xDC00, by omega, ?_⟩
    rw [hunit, Nat.add_sub_cancel' hle]
  · rintro ⟨y, hy, hunit⟩
    exact ⟨_, hunit, by omega, by omega⟩

theorem isLow_of_isHigh {letter : Letter} (h : letter.isHigh = true) : letter.isLow = false := by
  obtain ⟨x, hx, hunit⟩ := letter.isHigh_iff.1 h
  simp only [isLow, hunit, Option.any_some, Literal.isLowSurrogate, Bool.and_eq_false_iff,
    decide_eq_false_iff_not]
  omega

theorem isHigh_of_isLow {letter : Letter} (h : letter.isLow = true) : letter.isHigh = false := by
  cases hhigh : letter.isHigh with
  | false => rfl
  | true =>
      rw [isLow_of_isHigh hhigh] at h
      cases h

end Letter

theorem toNat_ofNat_of_valid {n : Nat} (h : n.isValidChar) : (Char.ofNat n).toNat = n := by
  rw [Char.ofNat, dif_pos h]
  rfl

namespace Letters

/-- An escape by number that is no surrogate is that of a character. -/
theorem exists_char_of_unit {a b c d : UInt8} {ok}
    (hhigh : (Letter.unit a b c d ok).isHigh = false)
    (hlow : (Letter.unit a b c d ok).isLow = false) :
    ∃ char : Char, (Letter.unit a b c d ok).unit? = some char.toNat := by
  have hcharacter := Literal.isSome_character?_unit (Hex.number_lt ok) hhigh
  have hlowUnit : Literal.isLowSurrogate (Hex.number a b c d) = false := hlow
  rw [hlowUnit, Bool.not_false, Literal.isSome_character?_iff] at hcharacter
  exact ⟨Char.ofNat (Hex.number a b c d), congrArg some (toNat_ofNat_of_valid hcharacter).symm⟩

/-- The number of a character is no surrogate, and what it denotes is the character. -/
theorem of_unit?_eq_char {letter : Letter} {c : Char} (h : letter.unit? = some c.toNat) :
    letter.isHigh = false ∧ letter.isLow = false ∧ letter.alone = String.utf8EncodeChar c := by
  have hvalid : c.toNat.isValidChar := c.valid
  refine ⟨?_, ?_, ?_⟩
  · rw [Letter.isHigh, h, Option.any_some]
    simp only [Literal.isHighSurrogate, Bool.and_eq_false_iff, decide_eq_false_iff_not]
    unfold Nat.isValidChar at hvalid
    omega
  · rw [Letter.isLow, h, Option.any_some]
    simp only [Literal.isLowSurrogate, Bool.and_eq_false_iff, decide_eq_false_iff_not]
    unfold Nat.isValidChar at hvalid
    omega
  · cases letter with
    | plain byte ok => cases h
    | escape letter ok => cases h
    | unit => rw [Letter.alone, Letter.codeUnit, h, Option.getD_some, Char.ofNat_toNat]

/-- The halves of a pair have ten bits each of the number of its character. -/
theorem pair_of_unit? {high low : Letter} {x y : Nat} (hx : x < 0x400)
    (hhigh : high.unit? = some (0xD800 + x)) (hy : y < 0x400)
    (hlow : low.unit? = some (0xDC00 + y)) :
    ∃ c : Char, c.toNat = 0x10000 + x * 0x400 + y ∧ high.pair low = String.utf8EncodeChar c := by
  have hvalid : (0x10000 + x * 0x400 + y).isValidChar := by
    unfold Nat.isValidChar
    omega
  refine ⟨Char.ofNat (0x10000 + x * 0x400 + y), toNat_ofNat_of_valid hvalid, ?_⟩
  have hcombine : Literal.combineSurrogates (0xD800 + x) (0xDC00 + y) =
      0x10000 + x * 0x400 + y := by
    unfold Literal.combineSurrogates
    omega
  rw [Letter.pair, Letter.codeUnit, Letter.codeUnit, hhigh, hlow, Option.getD_some,
    Option.getD_some, hcombine]

/-- A literal whose surrogates are in pairs denotes what all its letters denote. -/
theorem denotes_complete (letters : Letters) (hpaired : letters.paired = true) :
    letters.Denotes letters.complete := by
  -- By the number of letters, as a pair of surrogates takes two at once.
  match letters with
  | [] => exact .nil
  | .plain byte ok :: rest =>
      rw [paired_cons rfl] at hpaired
      rw [complete_cons rfl]
      exact .plain (denotes_complete rest hpaired)
  | .escape letter ok :: rest =>
      obtain ⟨byte, hbyte, -, halone, -⟩ := Letter.exists_mem_escapes ok
      rw [paired_cons rfl] at hpaired
      rw [complete_cons rfl, halone]
      exact .escape hbyte (denotes_complete rest hpaired)
  | .unit a b c d ok :: rest =>
      cases hhigh : (Letter.unit a b c d ok).isHigh with
      | false =>
          rw [paired_cons hhigh, Bool.and_eq_true, Bool.not_eq_true'] at hpaired
          obtain ⟨char, hchar⟩ := exists_char_of_unit hhigh hpaired.1
          rw [complete_cons hhigh, (of_unit?_eq_char hchar).2.2]
          exact .unit hchar (denotes_complete rest hpaired.2)
      | true =>
          cases rest with
          | nil => simp [paired, hhigh] at hpaired
          | cons low rest =>
              rw [paired, if_pos hhigh, Bool.and_eq_true] at hpaired
              obtain ⟨x, hx, hhighUnit⟩ := (Letter.isHigh_iff _).1 hhigh
              obtain ⟨y, hy, hlowUnit⟩ := low.isLow_iff.1 hpaired.1
              obtain ⟨char, hchar, hpair⟩ := pair_of_unit? hx hhighUnit hy hlowUnit
              rw [complete_pair hhigh, hpair]
              exact .pair hx hhighUnit hy hlowUnit hchar (denotes_complete rest hpaired.2)
termination_by letters.length

/-- **A literal denotes bytes if its surrogates are in pairs**, and only what all its letters denote
together. -/
theorem denotes_iff (letters : Letters) (bytes : Bytes) :
    letters.Denotes bytes ↔ letters.paired = true ∧ bytes = letters.complete := by
  constructor
  · intro h
    induction h with
    | nil => exact ⟨rfl, rfl⟩
    | plain h ih =>
        rw [paired_cons rfl, complete_cons rfl, ← ih.2]
        exact ⟨ih.1, rfl⟩
    | @escape letter byte ok hbyte rest bytes h ih =>
        obtain ⟨-, halone, -⟩ := Letter.of_mem_escapes hbyte
        rw [paired_cons rfl, complete_cons rfl, ← ih.2, halone ok]
        exact ⟨ih.1, rfl⟩
    | unit hunit h ih =>
        obtain ⟨hhigh, hlow, halone⟩ := of_unit?_eq_char hunit
        rw [paired_cons hhigh, complete_cons hhigh, ← ih.2, hlow, halone]
        exact ⟨ih.1, rfl⟩
    | @pair high low x y hx hhigh hy hlow c hc rest bytes h ih =>
        obtain ⟨char, hchar, hpair⟩ := pair_of_unit? hx hhigh hy hlow
        obtain rfl : c = char := Char.toNat_inj.1 (hc.trans hchar.symm)
        have hisHigh : high.isHigh = true := high.isHigh_iff.2 ⟨x, hx, hhigh⟩
        rw [paired, if_pos hisHigh, complete_pair hisHigh, ← ih.2, low.isLow_iff.2 ⟨y, hy, hlow⟩,
          hpair]
        exact ⟨ih.1, rfl⟩
  · rintro ⟨hpaired, rfl⟩
    exact denotes_complete letters hpaired

/-! ### Surrogates out of their pairs -/

/-- Whether the first half of a pair is at a place among the letters. -/
def highAt (letters : Letters) (i : Nat) : Bool := letters[i]?.any Letter.isHigh

/-- Whether the second half of a pair is at a place among the letters. -/
def lowAt (letters : Letters) (i : Nat) : Bool := letters[i]?.any Letter.isLow

/-- **Whether a surrogate is out of its pair**: a high one that is not followed by a low one, or a low
one that does not follow a high one. -/
def Unpaired (letters : Letters) : Prop :=
  (∃ i, letters.highAt i = true ∧ letters.lowAt (i + 1) = false) ∨
    ∃ i, letters.lowAt i = true ∧ ∀ before, i = before + 1 → letters.highAt before = false

section

variable (letter : Letter) (letters : Letters)

@[simp] theorem highAt_nil (i : Nat) : highAt [] i = false := rfl

@[simp] theorem lowAt_nil (i : Nat) : lowAt [] i = false := rfl

@[simp] theorem highAt_zero : highAt (letter :: letters) 0 = letter.isHigh := rfl

@[simp] theorem lowAt_zero : lowAt (letter :: letters) 0 = letter.isLow := rfl

@[simp] theorem highAt_succ (i : Nat) : highAt (letter :: letters) (i + 1) = highAt letters i := rfl

@[simp] theorem lowAt_succ (i : Nat) : lowAt (letter :: letters) (i + 1) = lowAt letters i := rfl

end

/-- Surrogates are in pairs if there is a low one wherever a high one is before, and nowhere else. -/
theorem paired_iff (letters : Letters) :
    letters.paired = true ↔
      letters.lowAt 0 = false ∧ ∀ i, letters.highAt i = letters.lowAt (i + 1) := by
  -- As `paired` goes through the letters, so do the places: a pair takes two of them.
  match letters with
  | [] => simp [paired]
  | [letter] =>
      simp only [paired, Bool.and_eq_true, Bool.not_eq_true', lowAt_zero, lowAt_succ, lowAt_nil]
      constructor
      · rintro ⟨hhigh, hlow⟩
        refine ⟨hlow, ?_⟩
        rintro (_ | i)
        · exact hhigh
        · rfl
      · rintro ⟨hlow, hplaces⟩
        exact ⟨hplaces 0, hlow⟩
  | first :: second :: rest =>
      cases hhigh : first.isHigh with
      | true =>
          rw [paired, if_pos hhigh, Bool.and_eq_true, paired_iff rest, lowAt_zero,
            Letter.isLow_of_isHigh hhigh]
          constructor
          · rintro ⟨hlow, hrest, hplaces⟩
            refine ⟨rfl, ?_⟩
            rintro (_ | _ | i)
            · exact hhigh.trans hlow.symm
            · exact (Letter.isHigh_of_isLow hlow).trans hrest.symm
            · exact hplaces i
          · rintro ⟨-, hplaces⟩
            have hlow : second.isLow = true := (hplaces 0).symm.trans hhigh
            exact ⟨hlow, (hplaces 1).symm.trans (Letter.isHigh_of_isLow hlow),
              fun i => hplaces (i + 2)⟩
      | false =>
          rw [paired_cons hhigh, Bool.and_eq_true, Bool.not_eq_true', paired_iff (second :: rest)]
          constructor
          · rintro ⟨hlow, hrest, hplaces⟩
            refine ⟨hlow, ?_⟩
            rintro (_ | i)
            · exact hhigh.trans hrest.symm
            · exact hplaces i
          · rintro ⟨hlow, hplaces⟩
            exact ⟨hlow, (hplaces 0).symm.trans hhigh, fun i => hplaces (i + 1)⟩

/-- **A literal that is malformed has a surrogate out of its pair.** -/
theorem paired_eq_false_iff (letters : Letters) : letters.paired = false ↔ letters.Unpaired := by
  rw [← Bool.not_eq_true, paired_iff]
  constructor
  · intro h
    cases hzero : letters.lowAt 0 with
    | true => exact .inr ⟨0, hzero, nofun⟩
    | false =>
        obtain ⟨i, hi⟩ := Classical.not_forall.1 fun hplaces => h ⟨hzero, hplaces⟩
        cases hhigh : letters.highAt i with
        | true =>
            rw [hhigh] at hi
            exact .inl ⟨i, hhigh, Bool.eq_false_iff.2 (Ne.symm hi)⟩
        | false =>
            rw [hhigh] at hi
            refine .inr ⟨i + 1, Bool.ne_false_iff.1 (Ne.symm hi), ?_⟩
            rintro before ⟨⟩
            exact hhigh
  · rintro (⟨i, hhigh, hlow⟩ | ⟨i, hlow, hbefore⟩) ⟨hzero, hplaces⟩
    · rw [hplaces i, hlow] at hhigh
      cases hhigh
    · cases i with
      | zero =>
          rw [hzero] at hlow
          cases hlow
      | succ i =>
          rw [← hplaces i, hbefore i rfl] at hlow
          cases hlow

/-! ### Reading -/

/-- Without escapes, a literal denotes its own bytes. -/
theorem complete_of_forall_ne {letters : Letters} (h : ∀ b ∈ letters.bytes, b ≠ Ascii.backslash) :
    letters.complete = letters.bytes := by
  induction letters with
  | nil => rfl
  | cons letter letters ih =>
      rw [bytes_cons] at h
      have hrest := ih fun b hb => h b (List.mem_append_right _ hb)
      cases letter with
      | plain byte ok =>
          rw [complete_cons rfl, hrest]
          rfl
      | escape letter ok => exact absurd rfl (h Ascii.backslash (by simp [Letter.bytes]))
      | unit a b c d ok => exact absurd rfl (h Ascii.backslash (by simp [Letter.bytes]))

/-- **All letters but those of the final run are read**, from any point of a literal on. -/
theorem exists_of_unescapeFrom (letters : Letters) (hpaired : letters.paired = true)
    (out : Array UInt8) :
    ∃ content run : Bytes, Literal.unescapeFrom out letters.bytes = some (out ++ content) ∧
      letters.complete = content ++ run ∧ FinalRun letters.bytes run := by
  -- By the number of letters, as a pair of surrogates takes two at once.
  match letters with
  | [] =>
      refine ⟨[], [], ?_, rfl, Utf8.finalRun_nil⟩
      rw [bytes_nil, Literal.unescapeFrom_nil]
      simp
  | .plain b ok :: rest =>
      rw [paired_cons rfl] at hpaired
      rw [bytes_cons, Letter.bytes, List.singleton_append, Literal.unescapeFrom_plain _ _ ok.2.2,
        complete_cons rfl]
      by_cases hcut : Utf8.shape b (bytes rest) = .cut
      · have hplain : ∀ c ∈ bytes rest, c ≠ Ascii.backslash := by
          rintro c hc rfl
          cases Utf8.isContinuation_of_cut hcut _ hc
        refine ⟨[], b :: bytes rest, by rw [if_pos hcut]; simp, ?_, List.suffix_rfl,
          .inl ((Utf8.shape_eq_cut_iff ..).1 hcut)⟩
        rw [complete_of_forall_ne hplain]
        rfl
      · obtain ⟨content, run, hread, hcomplete, hrun⟩ :=
          exists_of_unescapeFrom rest hpaired (out.push b)
        refine ⟨b :: content, run, ?_, ?_, hrun.cons (mt (Utf8.shape_eq_cut_iff ..).2 hcut)⟩
        · rw [if_neg hcut, hread]
          simp
        · rw [hcomplete]
          rfl
  | .escape letter ok :: rest =>
      obtain ⟨byte, -, hbyte, halone, hletter, hu⟩ := Letter.exists_mem_escapes ok
      rw [paired_cons rfl] at hpaired
      obtain ⟨content, run, hread, hcomplete, hrun⟩ :=
        exists_of_unescapeFrom rest hpaired (out.push byte)
      have hascii : ∀ c ∈ [Ascii.backslash, letter], c < 0x80 :=
        List.forall_mem_cons.2 ⟨by decide, List.forall_mem_singleton.2 hletter⟩
      refine ⟨byte :: content, run, ?_, ?_, hrun.append hascii⟩
      · rw [bytes_cons, Letter.bytes, List.cons_append, List.singleton_append,
          Literal.unescapeFrom_escape _ _ hu, hbyte, Option.bind_some, hread]
        simp
      · rw [complete_cons rfl, halone, hcomplete]
        rfl
  | .unit a b c d ok :: rest =>
      cases hhigh : (Letter.unit a b c d ok).isHigh with
      | false =>
          rw [paired_cons hhigh, Bool.and_eq_true, Bool.not_eq_true'] at hpaired
          obtain ⟨hlow, hrest⟩ := hpaired
          obtain ⟨content, run, hread, hcomplete, hrun⟩ :=
            exists_of_unescapeFrom rest hrest (out ++ (Letter.unit a b c d ok).alone)
          refine ⟨(Letter.unit a b c d ok).alone ++ content, run, ?_, ?_,
            hrun.append (Letter.lt_of_mem_unit ok)⟩
          · rw [bytes_cons, Letter.bytes, ← Bytes.append_append]
            simp only [List.cons_append, List.nil_append]
            rw [Literal.unescapeFrom_unit, unicodeEscape?_alone hhigh hlow, Option.bind_some]
            exact hread
          · rw [complete_cons hhigh, hcomplete, List.append_assoc]
      | true =>
          cases rest with
          | nil => simp [paired, hhigh] at hpaired
          | cons low rest =>
              rw [paired, if_pos hhigh, Bool.and_eq_true] at hpaired
              obtain ⟨hlow, hrest⟩ := hpaired
              obtain ⟨content, run, hread, hcomplete, hrun⟩ :=
                exists_of_unescapeFrom rest hrest (out ++ (Letter.unit a b c d ok).pair low)
              refine ⟨(Letter.unit a b c d ok).pair low ++ content, run, ?_, ?_,
                (hrun.append (Letter.lt_of_mem_of_isLow hlow)).append (Letter.lt_of_mem_unit ok)⟩
              · rw [bytes_cons, Letter.bytes, bytes_cons, ← Bytes.append_append]
                simp only [List.cons_append, List.nil_append]
                rw [Literal.unescapeFrom_unit, unicodeEscape?_pair hhigh hlow, Option.bind_some]
                exact hread
              · rw [complete_pair hhigh, hcomplete, List.append_assoc]
termination_by letters.length

/-- **A literal is read as what it denotes but for its final run**, and as nothing if it denotes
nothing. -/
theorem decode?_raw_iff (letters : Letters) (content : Bytes) :
    Literal.decode? letters.raw = some content ↔
      ∃ run, letters.Denotes (content ++ run) ∧ FinalRun letters.raw run := by
  have hquote : ¬Utf8.CutOff letters.raw := Utf8.not_cutOff_of_ascii (by decide) letters.bytes
  have hread (hpaired : letters.paired = true) :
      ∃ content run, Literal.decode? letters.raw = some content ∧
        letters.complete = content ++ run ∧ FinalRun letters.raw run := by
    obtain ⟨content, run, hread, hcomplete, hrun⟩ := exists_of_unescapeFrom letters hpaired #[]
    refine ⟨content, run, ?_, hcomplete, hrun.cons hquote⟩
    change (Literal.unescapeFrom #[] letters.bytes).map Array.toList = _
    rw [hread]
    simp
  constructor
  · intro h
    have hpaired : letters.paired = true := by
      rw [← isSome_decode?_raw, h]
      rfl
    obtain ⟨found, run, hdecode, hcomplete, hrun⟩ := hread hpaired
    obtain rfl : content = found := Option.some.inj (h.symm.trans hdecode)
    exact ⟨run, (denotes_iff ..).2 ⟨hpaired, hcomplete.symm⟩, hrun⟩
  · rintro ⟨run, hdenotes, hrun⟩
    obtain ⟨hpaired, hcomplete⟩ := (denotes_iff ..).1 hdenotes
    obtain ⟨found, run', hdecode, hcomplete', hrun'⟩ := hread hpaired
    obtain rfl := hrun.unique hrun'
    rw [hdecode, List.append_cancel_right (hcomplete'.symm.trans hcomplete.symm)]

end Letters

end Grammar

end DocCodec
