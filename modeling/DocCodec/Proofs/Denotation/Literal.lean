/-
**Which literals denote a byte string.**

The letters of a literal are read one by one, and all of them can be read but surrogates out of
their pairs: the escape of a high surrogate must be followed at once by the escape of a low one,
and that of a low one must not stand alone.  A multi-byte sequence that the end of the literal
cuts off ends the reading early; only continuation bytes follow its lead byte, so no escape is
passed over.

Main definitions:

* `DocCodec.Grammar.Letters.paired` — **whether all surrogates of a literal are in pairs**.

Main results:

* `DocCodec.Grammar.Letters.isSome_decode?_raw` — **a literal is read if and only if its surrogates
  are in pairs**.
-/

import DocCodec.Literal.Unescape
import DocCodec.Proofs.Grammar
import DocCodec.Proofs.Hex

set_option relaxedAutoImplicit false
set_option autoImplicit false

namespace DocCodec

namespace Literal

/-! ### Code units -/

theorem isSome_character?_iff (codePoint : Nat) :
    (character? codePoint).isSome = true ↔ codePoint.isValidChar := by
  unfold character?
  split <;> simp_all

/-- The code unit of a character of its own is neither half of a pair. -/
theorem isSome_character?_unit {unit : Nat} (h : unit < 0x10000)
    (hhigh : isHighSurrogate unit = false) :
    (character? unit).isSome = !isLowSurrogate unit := by
  rw [Bool.eq_iff_iff, isSome_character?_iff]
  simp only [isHighSurrogate, isLowSurrogate, Nat.isValidChar, Bool.and_eq_false_iff,
    decide_eq_false_iff_not, Bool.not_eq_true'] at hhigh ⊢
  omega

/-- The two halves of a pair stand for a character. -/
theorem isSome_character?_combineSurrogates (high low : Nat) :
    (character? (combineSurrogates high low)).isSome = true := by
  rw [isSome_character?_iff]
  unfold combineSurrogates Nat.isValidChar
  omega

/-! ### One letter -/

/-- A high surrogate is read together with what follows it. -/
theorem unicodeEscape?_of_high {bytes rest : Bytes} {unit : Nat}
    (h : codeUnit? bytes = some (unit, rest)) (hhigh : isHighSurrogate unit = true) :
    unicodeEscape? bytes = (lowSurrogate? rest).bind fun p =>
      (character? (combineSurrogates unit p.1)).map fun c => (c, p.2) := by
  simp only [unicodeEscape?, h, hhigh]
  cases lowSurrogate? rest <;> rfl

/-- Any other code unit is read by itself. -/
theorem unicodeEscape?_of_not_high {bytes rest : Bytes} {unit : Nat}
    (h : codeUnit? bytes = some (unit, rest)) (hhigh : isHighSurrogate unit = false) :
    unicodeEscape? bytes = (character? unit).map fun c => (c, rest) := by
  simp only [unicodeEscape?, h, hhigh, Bool.false_eq_true, if_false]

theorem codeUnit?_cons {a b c d : UInt8} {unit : Nat} (h : Hex.four? a b c d = some unit)
    (rest : Bytes) : codeUnit? (a :: b :: c :: d :: rest) = some (unit, rest) := by
  simp only [codeUnit?, h, Option.map_some]

/-! ### Byte by byte -/

/-- Reading byte by byte: the bytes that the rest of a literal stands for, after those in `out`.  No
sequence is passed over, and a sequence is only looked at to find out whether the end cuts it off. -/
def bytewiseFrom (out : Array UInt8) (text : Bytes) : Option (Array UInt8) :=
  match text with
  | [] => some out
  | b :: rest =>
    if b = Ascii.backslash then
      match rest with
      | [] => none
      | letter :: rest =>
        if letter = Ascii.byte 'u' then
          match _h : unicodeEscape? rest with
          | some (c, rest) => bytewiseFrom (out ++ String.utf8EncodeChar c) rest
          | none => none
        else
          match simpleEscape? letter with
          | some byte => bytewiseFrom (out.push byte) rest
          | none => none
    else if Utf8.shape b rest = .cut then some out
    else bytewiseFrom (out.push b) rest
termination_by text.length
decreasing_by
  · have := length_lt_of_unicodeEscape? _h
    simp only [List.length_cons]
    omega
  · simp only [List.length_cons]
    omega
  · simp only [List.length_cons]
    omega

section

variable (out : Array UInt8) (rest : Bytes)

theorem bytewiseFrom_plain {b : UInt8} (hb : b ≠ Ascii.backslash) :
    bytewiseFrom out (b :: rest) =
      if Utf8.shape b rest = .cut then some out else bytewiseFrom (out.push b) rest := by
  rw [bytewiseFrom.eq_def]
  exact if_neg hb

/-- A byte that begins a sequence, or none, is copied unless the end cuts the sequence off. -/
theorem bytewiseFrom_push {b : UInt8} (hb : b ≠ Ascii.backslash) (h : Utf8.shape b rest ≠ .cut) :
    bytewiseFrom out (b :: rest) = bytewiseFrom (out.push b) rest := by
  rw [bytewiseFrom_plain out rest hb, if_neg h]

/-- Continuation bytes are copied one by one: none of them is a backslash or a lead byte. -/
theorem bytewiseFrom_trailing {trailing : Bytes}
    (h : ∀ b ∈ trailing, Utf8.isContinuation b = true) :
    bytewiseFrom out (trailing ++ rest) = bytewiseFrom (out ++ trailing) rest := by
  induction trailing generalizing out with
  | nil => simp
  | cons b trailing ih =>
      obtain ⟨hb, htrailing⟩ := List.forall_mem_cons.1 h
      have hplain : b ≠ Ascii.backslash := by
        rintro rfl
        cases hb
      have hstray : Utf8.shape b (trailing ++ rest) ≠ .cut := by
        rw [Utf8.shape_continuation hb]
        exact nofun
      rw [List.cons_append, bytewiseFrom_push _ _ hplain hstray, ih _ htrailing]
      simp

end

/-- **Skipping sequences loses nothing**: to copy a sequence whole is to copy its bytes one by one. -/
theorem unescapeFrom_eq_bytewiseFrom (out : Array UInt8) (text : Bytes) :
    unescapeFrom out text = bytewiseFrom out text := by
  fun_induction unescapeFrom out text with
  | case1 out => rw [bytewiseFrom]
  | case2 out => rw [bytewiseFrom, if_pos rfl]
  | case3 out rest c behind hescape ih =>
      rw [ih, bytewiseFrom, if_pos rfl]
      simp only [if_true]
      split
      · next h =>
          cases hescape.symm.trans h
          rfl
      · next h => cases hescape.symm.trans h
  | case4 out rest hescape =>
      rw [bytewiseFrom, if_pos rfl]
      simp only [if_true]
      split
      · next h => cases hescape.symm.trans h
      · rfl
  | case5 out letter rest hu byte hbyte ih =>
      rw [ih, bytewiseFrom, if_pos rfl]
      simp only [hu, if_false, hbyte]
  | case6 out letter rest hu hbyte =>
      rw [bytewiseFrom, if_pos rfl]
      simp only [hu, if_false, hbyte]
  | case7 out b rest hb hcut => rw [bytewiseFrom_plain out rest hb, if_pos hcut]
  | case8 out b rest hb hstray ih =>
      rw [ih, bytewiseFrom_push out rest hb (by rw [hstray]; exact nofun)]
  | case9 out b rest hb trailing hwhole ih =>
      obtain ⟨-, -, hall⟩ := (Utf8.shape_eq_whole_iff ..).1 hwhole
      rw [ih, bytewiseFrom_push out rest hb (by rw [hwhole]; exact nofun),
        ← bytewiseFrom_trailing _ _ hall, List.take_append_drop]

section

variable (out : Array UInt8) (rest : Bytes)

theorem unescapeFrom_nil : unescapeFrom out [] = some out := by rw [unescapeFrom]

/-- A byte that begins no escape is copied, and the reading may go on with the byte after it. -/
theorem unescapeFrom_plain {b : UInt8} (hb : b ≠ Ascii.backslash) :
    unescapeFrom out (b :: rest) =
      if Utf8.shape b rest = .cut then some out else unescapeFrom (out.push b) rest := by
  rw [unescapeFrom_eq_bytewiseFrom, unescapeFrom_eq_bytewiseFrom, bytewiseFrom_plain out rest hb]

/-- A whole sequence is copied at once. -/
theorem unescapeFrom_whole {b : UInt8} {trailing : Nat} (hb : b ≠ Ascii.backslash)
    (h : Utf8.shape b rest = .whole trailing) :
    unescapeFrom out (b :: rest) =
      unescapeFrom (out.push b ++ rest.take trailing) (rest.drop trailing) := by
  rw [unescapeFrom.eq_def]
  simp only [if_neg hb, h]

theorem unescapeFrom_escape {letter : UInt8} (hletter : letter ≠ Ascii.byte 'u') :
    unescapeFrom out (Ascii.backslash :: letter :: rest) =
      (simpleEscape? letter).bind fun byte => unescapeFrom (out.push byte) rest := by
  rw [unescapeFrom, if_pos rfl]
  simp only [hletter, if_false]
  cases simpleEscape? letter <;> rfl

theorem unescapeFrom_unit :
    unescapeFrom out (Ascii.backslash :: Ascii.byte 'u' :: rest) =
      (unicodeEscape? rest).bind fun p => unescapeFrom (out ++ String.utf8EncodeChar p.1) p.2 := by
  rw [unescapeFrom, if_pos rfl]
  simp only [if_true]
  split
  · next h => rw [h]; rfl
  · next h => rw [h]; rfl

end

end Literal

namespace Grammar

/-! ### Surrogates in pairs -/

/-- The code unit of an escape by number. -/
def Letter.unit? : Letter → Option Nat
  | unit a b c d _ => some (Hex.number a b c d)
  | _ => none

/-- Whether a letter is the escape of the first half of a surrogate pair. -/
def Letter.isHigh (letter : Letter) : Bool := letter.unit?.any Literal.isHighSurrogate

/-- Whether a letter is the escape of the second half of a surrogate pair. -/
def Letter.isLow (letter : Letter) : Bool := letter.unit?.any Literal.isLowSurrogate

namespace Letters

/-- **Whether all surrogates of a literal are in pairs**, a high one and at once a low one. -/
def paired : Letters → Bool
  | [] => true
  | [letter] => !letter.isHigh && !letter.isLow
  | first :: second :: rest =>
    if first.isHigh then second.isLow && paired rest
    else !first.isLow && paired (second :: rest)

theorem paired_cons {letter : Letter} (h : letter.isHigh = false) (rest : Letters) :
    paired (letter :: rest) = (!letter.isLow && paired rest) := by
  cases rest with
  | nil => simp [paired, h]
  | cons second rest => simp [paired, h]

/-- Without escapes there are no surrogates. -/
theorem paired_of_forall_ne {letters : Letters} (h : ∀ b ∈ letters.bytes, b ≠ Ascii.backslash) :
    letters.paired = true := by
  induction letters with
  | nil => rfl
  | cons letter letters ih =>
      rw [bytes_cons] at h
      have hrest := ih fun b hb => h b (List.mem_append_right _ hb)
      cases letter with
      | plain byte ok =>
          rw [paired_cons rfl, hrest]
          rfl
      | escape letter ok => exact absurd rfl (h Ascii.backslash (by simp [Letter.bytes]))
      | unit a b c d ok => exact absurd rfl (h Ascii.backslash (by simp [Letter.bytes]))

/-! ### Reading -/

/-- The escape of a low surrogate is found where it is next. -/
theorem exists_lowSurrogate? {letter : Letter} (h : letter.isLow = true) (rest : Bytes) :
    ∃ low, Literal.lowSurrogate? (letter.bytes ++ rest) = some (low, rest) := by
  cases letter with
  | plain byte ok => cases h
  | escape letter ok => cases h
  | unit a b c d ok =>
      have hclass : Literal.isLowSurrogate (Hex.number a b c d) = true := h
      exact ⟨Hex.number a b c d, by
        simp [Letter.bytes, Literal.lowSurrogate?, Literal.codeUnit?, Hex.four?_eq ok, hclass]⟩

/-- Nothing else is taken for one. -/
theorem lowSurrogate?_eq_none {letter : Letter} (h : letter.isLow = false) (rest : Bytes) :
    Literal.lowSurrogate? (letter.bytes ++ rest) = none := by
  cases letter with
  | plain byte ok => cases rest <;> simp [Letter.bytes, Literal.lowSurrogate?, ok.2.2]
  | escape letter ok =>
      have hu : letter ≠ Ascii.byte 'u' := by
        rintro rfl
        revert ok
        decide
      simp [Letter.bytes, Literal.lowSurrogate?, hu]
  | unit a b c d ok =>
      have hclass : Literal.isLowSurrogate (Hex.number a b c d) = false := h
      simp [Letter.bytes, Literal.lowSurrogate?, Literal.codeUnit?, Hex.four?_eq ok, hclass]

/-- A high surrogate is read together with the low one after it. -/
theorem unicodeEscape?_high {a b c d : UInt8} {ok} (h : (Letter.unit a b c d ok).isHigh = true)
    (letters : Letters) :
    (Literal.unicodeEscape? (a :: b :: c :: d :: letters.bytes) = none ∧
        ∀ second ∈ letters.head?, second.isLow = false) ∨
      ∃ second rest character, letters = second :: rest ∧ second.isLow = true ∧
        Literal.unicodeEscape? (a :: b :: c :: d :: letters.bytes) =
          some (character, bytes rest) := by
  rw [Literal.unicodeEscape?_of_high (Literal.codeUnit?_cons (Hex.four?_eq ok) _) h]
  cases letters with
  | nil => exact .inl ⟨rfl, by simp⟩
  | cons second rest =>
      cases hlow : second.isLow with
      | false =>
          refine .inl ⟨?_, by simp [hlow]⟩
          rw [bytes_cons, lowSurrogate?_eq_none hlow]
          rfl
      | true =>
          obtain ⟨low, hnext⟩ := exists_lowSurrogate? hlow (bytes rest)
          obtain ⟨character, hcharacter⟩ := Option.isSome_iff_exists.1
            (Literal.isSome_character?_combineSurrogates (Hex.number a b c d) low)
          refine .inr ⟨second, rest, character, rfl, hlow, ?_⟩
          rw [bytes_cons, hnext, Option.bind_some, hcharacter]
          rfl

/-- Every other code unit but a low surrogate is read as a character of its own. -/
theorem unicodeEscape?_unit {a b c d : UInt8} {ok} (h : (Letter.unit a b c d ok).isHigh = false)
    (rest : Bytes) :
    (Literal.unicodeEscape? (a :: b :: c :: d :: rest) = none ∧
        (Letter.unit a b c d ok).isLow = true) ∨
      ∃ character, Literal.unicodeEscape? (a :: b :: c :: d :: rest) = some (character, rest) ∧
        (Letter.unit a b c d ok).isLow = false := by
  have hlow : (Letter.unit a b c d ok).isLow = Literal.isLowSurrogate (Hex.number a b c d) := rfl
  have hcharacter := Literal.isSome_character?_unit (Hex.number_lt ok) h
  rw [Literal.unicodeEscape?_of_not_high (Literal.codeUnit?_cons (Hex.four?_eq ok) _) h, hlow]
  cases hfound : Literal.character? (Hex.number a b c d) with
  | none =>
      rw [hfound] at hcharacter
      exact .inl ⟨rfl, by simpa using hcharacter⟩
  | some character =>
      rw [hfound] at hcharacter
      exact .inr ⟨character, rfl, by simpa using hcharacter⟩

/-- **The rest of a literal is read if and only if its surrogates are in pairs.** -/
theorem isSome_unescapeFrom (letters : Letters) (out : Array UInt8) :
    (Literal.unescapeFrom out letters.bytes).isSome = letters.paired := by
  -- By the number of letters, as a pair of surrogates takes two at once.
  match letters with
  | [] => rw [bytes_nil, Literal.unescapeFrom_nil]; rfl
  | .plain byte ok :: rest =>
      rw [bytes_cons, Letter.bytes, List.cons_append, List.nil_append,
        Literal.unescapeFrom_plain _ _ ok.2.2, paired_cons rfl]
      split
      · next hcut =>
          have hpaired : paired rest = true := by
            refine paired_of_forall_ne ?_
            intro b hb
            rintro rfl
            have h := Utf8.isContinuation_of_cut hcut _ hb
            cases h
          rw [hpaired]
          rfl
      · rw [isSome_unescapeFrom rest]
        rfl
  | .escape letter ok :: rest =>
      have hu : letter ≠ Ascii.byte 'u' := by
        rintro rfl
        revert ok
        decide
      obtain ⟨byte, hbyte⟩ : ∃ byte, Literal.simpleEscape? letter = some byte := by
        simp only [List.mem_cons, List.not_mem_nil, or_false] at ok
        rcases ok with rfl | rfl | rfl | rfl | rfl | rfl | rfl | rfl <;> exact ⟨_, rfl⟩
      rw [bytes_cons, Letter.bytes, List.cons_append, List.cons_append, List.nil_append,
        Literal.unescapeFrom_escape _ _ hu, hbyte, Option.bind_some, isSome_unescapeFrom rest,
        paired_cons rfl]
      rfl
  | .unit a b c d ok :: rest =>
      rw [bytes_cons, Letter.bytes]
      simp only [List.cons_append, List.nil_append]
      rw [Literal.unescapeFrom_unit]
      cases hhigh : (Letter.unit a b c d ok).isHigh with
      | true =>
          rcases unicodeEscape?_high hhigh rest with ⟨hread, hlow⟩ | ⟨second, more, character, rfl,
            hlow, hread⟩
          · rw [hread]
            cases rest with
            | nil => simp [paired, hhigh]
            | cons second rest => simp [paired, hhigh, hlow second rfl]
          · rw [hread, Option.bind_some, isSome_unescapeFrom more]
            simp [paired, hhigh, hlow]
      | false =>
          rw [paired_cons hhigh]
          rcases unicodeEscape?_unit hhigh (bytes rest) with
            ⟨hread, hlow⟩ | ⟨character, hread, hlow⟩
          · rw [hread, hlow]
            rfl
          · rw [hread, hlow, Option.bind_some, isSome_unescapeFrom rest]
            rfl
termination_by letters.length

/-- **A literal is read if and only if its surrogates are in pairs.** -/
theorem isSome_decode?_raw (letters : Letters) :
    (Literal.decode? letters.raw).isSome = letters.paired := by
  rw [Literal.decode?, Option.isSome_map, ← isSome_unescapeFrom letters #[]]
  rfl

end Letters

end Grammar

end DocCodec
