/-
**What a byte string is read back as.**

The text of a string literal is written piece by piece: a whole sequence as it is or as an escape,
the replacement character for a byte that begins no sequence, and nothing for a sequence that the
end cuts off.  It consists of letters of the grammar, and it is read back as the repaired byte
string: whole sequences as they are, and the replacement character for each other byte before the
end.  A byte string that is valid UTF-8 consists of whole sequences and is read back as it is.

Main definitions:

* `DocCodec.Utf8.repair` — **the repaired byte string**;
* `DocCodec.Literal.pieceText` — the text of a piece.

Main results:

* `DocCodec.Literal.encode_eq_flatMap` — the text of a byte string, piece by piece;
* `DocCodec.Literal.exists_letters` — it consists of letters of the grammar;
* `DocCodec.Literal.unescapeFrom_encode` — **it is read back as the repaired byte string**;
* `DocCodec.Utf8.repair_encode` — a text needs no repair.
-/

import DocCodec.Literal.Escape
import DocCodec.Proofs.Denotation.Literal
import DocCodec.Proofs.Utf8

set_option relaxedAutoImplicit false
set_option autoImplicit false

namespace DocCodec

/-! ### Repair -/

namespace Utf8

/-- The bytes of U+FFFD, the replacement character. -/
def replacementBytes : Bytes := [0xEF, 0xBF, 0xBD]

/-- What remains of a piece. -/
def Piece.repaired : Piece → Bytes
  | .whole lead trailing => lead :: trailing
  | .stray _ => replacementBytes
  | .cut _ => []

/-- **The repaired byte string**: each byte that begins no sequence is replaced by U+FFFD, and a
sequence that the end cuts off is left out. -/
def repair (bytes : Bytes) : Bytes := (pieces bytes).flatMap Piece.repaired

/-- A whole sequence at the front is the first piece. -/
theorem pieces_whole {lead : UInt8} {trailing : Bytes}
    (hlength : sequenceLength lead = trailing.length + 1)
    (hall : ∀ b ∈ trailing, isContinuation b = true) (rest : Bytes) :
    pieces (lead :: (trailing ++ rest)) = .whole lead trailing :: pieces rest := by
  have hshape : shape lead (trailing ++ rest) = .whole trailing.length :=
    (shape_eq_whole_iff ..).2 ⟨hlength, by simp, by simpa using hall⟩
  rw [pieces, hshape]
  simp

theorem sequenceLength_ofNat {n : Nat} (h : n < 256) :
    sequenceLength (UInt8.ofNat n) =
      if n < 128 then 1
      else if n < 192 then 0
      else if n < 224 then 2
      else if n < 240 then 3
      else if n < 248 then 4
      else 0 := by
  have hn : (UInt8.ofNat n).toNat = n := UInt8.toNat_ofNat_of_lt' h
  simp only [sequenceLength, UInt8.lt_iff_toNat_lt, hn]
  rfl

theorem isContinuation_ofNat (n : Nat) : isContinuation (UInt8.ofNat (n % 64 + 128)) = true := by
  have hlt : n % 64 + 128 < 256 := by omega
  have hn : (UInt8.ofNat (n % 64 + 128)).toNat = n % 64 + 128 := UInt8.toNat_ofNat_of_lt' hlt
  simp only [isContinuation, Bool.and_eq_true, decide_eq_true_eq, UInt8.le_iff_toNat_le,
    UInt8.lt_iff_toNat_lt, hn]
  refine ⟨Nat.le_add_left 128 _, ?_⟩
  change n % 64 + 128 < 192
  omega

/-- The bytes of a character are a whole sequence. -/
theorem utf8EncodeChar_whole (c : Char) :
    ∃ lead trailing, String.utf8EncodeChar c = lead :: trailing ∧
      sequenceLength lead = trailing.length + 1 ∧
      ∀ b ∈ trailing, isContinuation b = true := by
  obtain ⟨v, hv⟩ : ∃ v, v = c.val.toNat := ⟨_, rfl⟩
  unfold String.utf8EncodeChar
  simp only [← hv]
  split
  · next h =>
      refine ⟨_, _, rfl, ?_, by simp⟩
      rw [sequenceLength_ofNat (by omega), if_pos (by omega)]
      rfl
  · split
    · next h =>
        refine ⟨_, _, rfl, ?_, List.forall_mem_singleton.2 (isContinuation_ofNat _)⟩
        rw [sequenceLength_ofNat (by omega), if_neg (by omega), if_neg (by omega),
          if_pos (by omega)]
        rfl
    · split
      · next h =>
          refine ⟨_, _, rfl, ?_, List.forall_mem_cons.2 ⟨isContinuation_ofNat _,
            List.forall_mem_singleton.2 (isContinuation_ofNat _)⟩⟩
          rw [sequenceLength_ofNat (by omega), if_neg (by omega), if_neg (by omega),
            if_neg (by omega), if_pos (by omega)]
          rfl
      · next h =>
          refine ⟨_, _, rfl, ?_, List.forall_mem_cons.2 ⟨isContinuation_ofNat _,
            List.forall_mem_cons.2 ⟨isContinuation_ofNat _,
              List.forall_mem_singleton.2 (isContinuation_ofNat _)⟩⟩⟩
          rw [sequenceLength_ofNat (by omega), if_neg (by omega), if_neg (by omega),
            if_neg (by omega), if_neg (by omega), if_pos (by omega)]
          rfl

/-- **A text needs no repair.** -/
theorem repair_encode (text : String) : repair (encode text) = encode text := by
  rw [encode_eq_flatMap]
  induction text.toList with
  | nil => rw [List.flatMap_nil, repair, pieces, List.flatMap_nil]
  | cons c chars ih =>
      obtain ⟨lead, trailing, hc, hlength, hall⟩ := utf8EncodeChar_whole c
      unfold repair at ih ⊢
      rw [List.flatMap_cons, hc, List.cons_append, pieces_whole hlength hall, List.flatMap_cons, ih]
      rfl

end Utf8

namespace Literal

/-! ### The text of a byte string -/

/-- The text of a piece. -/
def pieceText : Utf8.Piece → Bytes
  | .whole lead trailing => (escape? lead).getD (lead :: trailing)
  | .stray _ => replacement
  | .cut _ => []

/-- The bytes that have one-letter escapes. -/
theorem cases_of_shortEscape? {b : UInt8} {text : Bytes} (h : shortEscape? b = some text) :
    b = Ascii.quote ∨ b = Ascii.backslash ∨ b = 0x08 ∨ b = 0x0C ∨ b = 0x0A ∨ b = 0x0D ∨
      b = 0x09 := by
  by_cases hb : b = Ascii.quote ∨ b = Ascii.backslash
  · rcases hb with hb | hb
    · exact .inl hb
    · exact .inr (.inl hb)
  · simp only [shortEscape?, hb, if_false] at h
    refine .inr (.inr ?_)
    by_cases h₁ : b = 0x08
    · exact .inl h₁
    by_cases h₂ : b = 0x0C
    · exact .inr (.inl h₂)
    by_cases h₃ : b = 0x0A
    · exact .inr (.inr (.inl h₃))
    by_cases h₄ : b = 0x0D
    · exact .inr (.inr (.inr (.inl h₄)))
    by_cases h₅ : b = 0x09
    · exact .inr (.inr (.inr (.inr h₅)))
    simp only [h₁, h₂, h₃, h₄, h₅, if_false] at h
    cases h

/-- Only single bytes have escapes. -/
theorem lt_of_escape? {b : UInt8} {text : Bytes} (h : escape? b = some text) : b < 0x80 := by
  unfold escape? at h
  split at h
  · next hshort =>
      rcases cases_of_shortEscape? hshort with rfl | rfl | rfl | rfl | rfl | rfl | rfl <;> decide
  · split at h
    · next hcontrol =>
        simp only [Ascii.isControl, decide_eq_true_eq] at hcontrol
        exact UInt8.lt_trans hcontrol (by decide)
    · cases h

theorem toList_extract (source : Bytes) (start stop : Nat) :
    (source.toArray.extract start stop).toList = (source.drop start).take (stop - start) := by
  simp [List.extract]

/-- A run that grows by some bytes. -/
theorem extract_add (source : Bytes) {start pos : Nat} (hle : start ≤ pos) (count : Nat) :
    (source.toArray.extract start (pos + count)).toList =
      (source.toArray.extract start pos).toList ++ (source.drop pos).take count := by
  have hcount : pos + count - start = (pos - start) + count := by omega
  have hpos : start + (pos - start) = pos := by omega
  rw [toList_extract, toList_extract, hcount, List.take_add, List.drop_drop, hpos]

/-- **The fragments that are still to come** are the rest of the current run and the texts of the
pieces. -/
theorem bytes_fragmentsFrom (source : Bytes) (written : Array Fragment) {start pos : Nat}
    {bytes : Bytes} (hle : start ≤ pos) (hpos : source.drop pos = bytes) :
    (fragmentsFrom written start pos bytes).toList.flatMap (Fragment.bytes source.toArray) =
      written.toList.flatMap (Fragment.bytes source.toArray) ++
        ((source.toArray.extract start pos).toList ++
          (Utf8.pieces bytes).flatMap pieceText) := by
  have hnext (count : Nat) : source.drop (pos + count) = bytes.drop count := by
    rw [← List.drop_drop, hpos]
  fun_induction fragmentsFrom written start pos bytes with
  | case1 written start pos =>
      rw [Utf8.pieces]
      simp [Fragment.bytes]
  | case2 written start pos b rest h =>
      rw [Utf8.pieces, h]
      simp [Fragment.bytes, pieceText]
  | case3 written start pos b rest h ih =>
      have hrest := ih (Nat.le_refl _) (hnext 1) fun count => by
        rw [Nat.add_assoc, hnext, Nat.add_comm]
        rfl
      rw [hrest, Utf8.pieces, h]
      simp [Fragment.bytes, pieceText]
  | case4 written start pos b rest trailing h text htext ih =>
      have hrest := ih (Nat.le_refl _) (hnext 1) fun count => by
        rw [Nat.add_assoc, hnext, Nat.add_comm]
        rfl
      have hlength := ((Utf8.shape_eq_whole_iff ..).1 h).1
      rw [Utf8.sequenceLength_of_ascii (lt_of_escape? htext)] at hlength
      obtain rfl : trailing = 0 := by omega
      rw [hrest, Utf8.pieces, h]
      simp [Fragment.bytes, pieceText, htext]
  | case5 written start pos b rest trailing h htext ih =>
      -- The run grows by the sequence.
      have hdrop : source.drop (pos + 1 + trailing) = rest.drop trailing := by
        rw [Nat.add_assoc, hnext, Nat.add_comm]
        rfl
      have hrest := ih (by omega) hdrop fun count => by
        rw [← List.drop_drop, hdrop]
      rw [hrest, Utf8.pieces, h, Nat.add_assoc, extract_add source hle, hpos, Nat.add_comm 1]
      simp [pieceText, htext]

/-- **The text of a byte string, piece by piece.** -/
theorem encode_eq_flatMap (bytes : Bytes) :
    encode bytes = (Utf8.pieces bytes).flatMap pieceText := by
  have h := bytes_fragmentsFrom bytes #[] (Nat.le_refl 0) (List.drop_zero ..)
  have hempty : (bytes.toArray.extract 0 0).toList = [] := by rw [toList_extract]; rfl
  rw [hempty, List.nil_append] at h
  exact h

/-! ### Escapes that are written -/

/-- A one-letter escape that is written is read as the byte it is written for. -/
theorem exists_letter_of_shortEscape? {b : UInt8} {text : Bytes} (h : shortEscape? b = some text) :
    ∃ letter ok, (Grammar.Letter.escape letter ok).bytes = text ∧ letter ≠ Ascii.byte 'u' ∧
      simpleEscape? letter = some b := by
  rcases cases_of_shortEscape? h with rfl | rfl | rfl | rfl | rfl | rfl | rfl <;> cases h
  · exact ⟨Ascii.quote, by decide, rfl, by decide, rfl⟩
  · exact ⟨Ascii.backslash, by decide, rfl, by decide, rfl⟩
  · exact ⟨Ascii.byte 'b', by decide, rfl, by decide, rfl⟩
  · exact ⟨Ascii.byte 'f', by decide, rfl, by decide, rfl⟩
  · exact ⟨Ascii.byte 'n', by decide, rfl, by decide, rfl⟩
  · exact ⟨Ascii.byte 'r', by decide, rfl, by decide, rfl⟩
  · exact ⟨Ascii.byte 't', by decide, rfl, by decide, rfl⟩

/-- An escape by number that is written is read as the byte it is written for. -/
theorem unicodeEscape?_controlEscape {b : UInt8} (h : b < 0x20) (rest : Bytes) :
    unicodeEscape? (Ascii.zero :: Ascii.zero :: (Hex.pair b ++ rest)) =
      some (Char.ofNat b.toNat, rest) := by
  have hlt : b.toNat < 32 := UInt8.lt_iff_toNat_lt.1 h
  have hfour : Hex.four? Ascii.zero Ascii.zero (Hex.digit (b.toNat / 16))
      (Hex.digit (b.toNat % 16)) = some b.toNat := by
    have hzero : Hex.value? Ascii.zero = some 0 := rfl
    have hhigh := Hex.value?_digit (b.toNat / 16) (by omega)
    have hlow := Hex.value?_digit (b.toNat % 16) (by omega)
    simp only [Hex.four?, hzero, hhigh, hlow, Option.bind_eq_bind, Option.bind_some,
      Option.pure_def]
    congr 1
    omega
  have hhigh : isHighSurrogate b.toNat = false := by
    simp only [isHighSurrogate, Bool.and_eq_false_iff, decide_eq_false_iff_not]
    omega
  have hcharacter : character? b.toNat = some (Char.ofNat b.toNat) := if_pos (.inl (by omega))
  have hread := unicodeEscape?_of_not_high (codeUnit?_cons hfour rest) hhigh
  rw [hcharacter] at hread
  exact hread

/-- **An escape that is written** is a letter, and is read as the byte it is written for. -/
theorem exists_letter_of_escape? {b : UInt8} {text : Bytes} (h : escape? b = some text) :
    ∃ letter : Grammar.Letter, letter.bytes = text ∧
      ∀ (out : Array UInt8) (rest : Bytes),
        unescapeFrom out (text ++ rest) = unescapeFrom (out.push b) rest := by
  unfold escape? at h
  split at h
  · next hshort =>
      cases h
      obtain ⟨letter, ok, rfl, hu, hbyte⟩ := exists_letter_of_shortEscape? hshort
      refine ⟨.escape letter ok, rfl, ?_⟩
      intro out rest
      have hread := unescapeFrom_escape out rest hu
      rw [hbyte] at hread
      exact hread
  · split at h
    · next hcontrol =>
        cases h
        have hb : b < 0x20 := by simpa [Ascii.isControl] using hcontrol
        have hlt : b.toNat < 32 := UInt8.lt_iff_toNat_lt.1 hb
        refine ⟨.unit Ascii.zero Ascii.zero (Hex.digit (b.toNat / 16))
          (Hex.digit (b.toNat % 16)) ?_, rfl, ?_⟩
        · simp only [List.forall_mem_cons, Hex.isDigit, Hex.value?_digit (b.toNat / 16) (by omega),
            Hex.value?_digit (b.toNat % 16) (by omega)]
          exact ⟨rfl, rfl, rfl, rfl, List.forall_mem_nil _⟩
        · intro out rest
          have hascii : String.utf8EncodeChar (Char.ofNat b.toNat) = [b] :=
            Utf8.utf8EncodeChar_of_ascii (UInt8.lt_trans hb (by decide))
          have hread := unescapeFrom_unit out (Ascii.zero :: Ascii.zero :: (Hex.pair b ++ rest))
          rw [unicodeEscape?_controlEscape hb, Option.bind_some, hascii] at hread
          simpa [controlEscape_eq] using hread
    · cases h

/-! ### Reading back -/

/-- A byte without an escape may stand in a literal. -/
theorem plain_of_escape? {b : UInt8} (h : escape? b = none) :
    0x20 ≤ b ∧ b ≠ Ascii.quote ∧ b ≠ Ascii.backslash := by
  refine ⟨UInt8.not_lt.1 ?_, ?_, ?_⟩
  · intro hlt
    have hcontrol : Ascii.isControl b = true := by simpa [Ascii.isControl] using hlt
    unfold escape? at h
    split at h
    · cases h
    · rw [if_pos hcontrol] at h
      cases h
  · rintro rfl
    cases h
  · rintro rfl
    cases h

/-- The replacement character is read as its bytes. -/
theorem unescapeFrom_replacement (out : Array UInt8) (rest : Bytes) :
    unescapeFrom out (replacement ++ rest) = unescapeFrom (out ++ Utf8.replacementBytes) rest := by
  have hfour : Hex.four? (Ascii.byte 'f') (Ascii.byte 'f') (Ascii.byte 'f') (Ascii.byte 'd') =
      some 0xFFFD := rfl
  have hread := unescapeFrom_unit out (Ascii.byte 'f' :: Ascii.byte 'f' :: Ascii.byte 'f' ::
    Ascii.byte 'd' :: rest)
  have hcharacter : character? 0xFFFD = some '\uFFFD' := rfl
  have hbytes : String.utf8EncodeChar '\uFFFD' = Utf8.replacementBytes := by decide
  rw [unicodeEscape?_of_not_high (codeUnit?_cons hfour rest) rfl, hcharacter, Option.map_some,
    Option.bind_some, hbytes] at hread
  exact hread

/-- **A piece is read as what remains of it**, whatever pieces follow. -/
theorem unescapeFrom_pieces (bytes : Bytes) (out : Array UInt8) :
    unescapeFrom out ((Utf8.pieces bytes).flatMap pieceText) =
      some (out ++ (Utf8.pieces bytes).flatMap Utf8.Piece.repaired) := by
  fun_induction Utf8.pieces bytes generalizing out with
  | case1 => simp [unescapeFrom_nil]
  | case2 b rest trailing h ih =>
      obtain ⟨hlength, hle, hall⟩ := (Utf8.shape_eq_whole_iff ..).1 h
      rw [List.flatMap_cons, List.flatMap_cons, pieceText, Utf8.Piece.repaired]
      cases hescape : escape? b with
      | some text =>
          -- A byte that has an escape is a sequence by itself.
          obtain ⟨letter, -, hread⟩ := exists_letter_of_escape? hescape
          rw [Utf8.sequenceLength_of_ascii (lt_of_escape? hescape)] at hlength
          obtain rfl : trailing = 0 := by omega
          rw [Option.getD_some, hread, ih]
          simp
      | none =>
          -- The sequence is whole in front of what is written of the rest, too.
          have hshape : Utf8.shape b (rest.take trailing ++
              (Utf8.pieces (rest.drop trailing)).flatMap pieceText) = .whole trailing := by
            refine (Utf8.shape_eq_whole_iff ..).2 ⟨hlength, by simp [hle], ?_⟩
            rw [List.take_append_of_le_length (by simp [hle]), List.take_take, Nat.min_self]
            exact hall
          have htrailing : (rest.take trailing).length = trailing := List.length_take_of_le hle
          rw [Option.getD_none, List.cons_append,
            unescapeFrom_whole _ _ (plain_of_escape? hescape).2.2 hshape,
            List.take_left' htrailing, List.drop_left' htrailing, ih]
          simp [Bytes.append_append]
  | case3 b rest h ih =>
      rw [List.flatMap_cons, List.flatMap_cons, pieceText, unescapeFrom_replacement, ih,
        Bytes.append_append]
      rfl
  | case4 b rest h => simp [pieceText, Utf8.Piece.repaired, unescapeFrom_nil]

/-- **The text of a byte string is read back as the repaired byte string.** -/
theorem unescapeFrom_encode (bytes : Bytes) (out : Array UInt8) :
    unescapeFrom out (encode bytes) = some (out ++ Utf8.repair bytes) := by
  rw [encode_eq_flatMap]
  exact unescapeFrom_pieces bytes out

/-! ### Letters -/

/-- Continuation bytes are letters. -/
theorem exists_letters_of_trailing {trailing : Bytes}
    (hall : ∀ b ∈ trailing, Utf8.isContinuation b = true) :
    ∃ letters : Grammar.Letters, letters.bytes = trailing := by
  induction trailing with
  | nil => exact ⟨[], rfl⟩
  | cons b trailing ih =>
      obtain ⟨letters, rfl⟩ := ih fun c hc => hall c (by simp [hc])
      have hb := hall b (by simp)
      simp only [Utf8.isContinuation, Bool.and_eq_true, decide_eq_true_eq] at hb
      have hplain : 0x20 ≤ b ∧ b ≠ Ascii.quote ∧ b ≠ Ascii.backslash := by
        refine ⟨UInt8.le_trans (by decide) hb.1, ?_, ?_⟩
        · rintro rfl
          exact absurd hb.1 (by decide)
        · rintro rfl
          exact absurd hb.1 (by decide)
      exact ⟨.plain b hplain :: letters, rfl⟩

/-- **The text of a byte string consists of letters of the grammar.** -/
theorem exists_letters (bytes : Bytes) :
    ∃ letters : Grammar.Letters, letters.bytes = encode bytes := by
  rw [encode_eq_flatMap]
  fun_induction Utf8.pieces bytes with
  | case1 => exact ⟨[], rfl⟩
  | case2 b rest trailing h ih =>
      obtain ⟨more, hmore⟩ := ih
      obtain ⟨-, -, hall⟩ := (Utf8.shape_eq_whole_iff ..).1 h
      rw [List.flatMap_cons, ← hmore, pieceText]
      cases hescape : escape? b with
      | some text =>
          obtain ⟨letter, rfl, -⟩ := exists_letter_of_escape? hescape
          exact ⟨letter :: more, rfl⟩
      | none =>
          obtain ⟨letters, hletters⟩ := exists_letters_of_trailing hall
          refine ⟨.plain b (plain_of_escape? hescape) :: (letters ++ more), ?_⟩
          rw [← hletters]
          simp [Grammar.Letters.bytes, Grammar.Letter.bytes]
  | case3 b rest h ih =>
      obtain ⟨more, hmore⟩ := ih
      rw [List.flatMap_cons, ← hmore]
      exact ⟨.unit (Ascii.byte 'f') (Ascii.byte 'f') (Ascii.byte 'f') (Ascii.byte 'd')
        (List.all_eq_true.1 rfl) :: more, rfl⟩
  | case4 b rest h => exact ⟨[], rfl⟩

/-- Bytes of ASCII without escapes are written and read back as they are. -/
theorem encode_of_plain {bytes : Bytes} (h : ∀ b ∈ bytes, b < 0x80 ∧ escape? b = none) :
    encode bytes = bytes ∧ Utf8.repair bytes = bytes := by
  rw [encode_eq_flatMap]
  unfold Utf8.repair
  induction bytes with
  | nil => simp [Utf8.pieces]
  | cons b bytes ih =>
      obtain ⟨hencode, hrepair⟩ := ih fun c hc => h c (by simp [hc])
      obtain ⟨hascii, hescape⟩ := h b (by simp)
      have hnone : ∀ c ∈ ([] : Bytes), Utf8.isContinuation c = true := by simp
      have hpieces : Utf8.pieces (b :: bytes) = .whole b [] :: Utf8.pieces bytes :=
        Utf8.pieces_whole (Utf8.sequenceLength_of_ascii hascii) hnone bytes
      rw [hpieces, List.flatMap_cons, List.flatMap_cons, hencode, hrepair, pieceText, hescape]
      exact ⟨rfl, rfl⟩

end Literal

end DocCodec
