/-
**Literals that are read completely.**

Every letter of a literal contributes to what it denotes: a byte, the byte of an escape, or the
character of a code unit; the escapes of a surrogate pair contribute one character together.  The
reader may drop a sequence of bytes that the end of the literal cuts off, but in a literal that is
valid UTF-8 nothing is cut off, so nothing is dropped.

Reading byte by byte, which gives the same, may stand within a character, where the rest of the
literal is not valid by itself: it is then the rest of the character and something valid.  Escapes
are ASCII, so they stand between characters, and they stand for whole ones; so what is read is valid
too.

Main definitions:

* `DocCodec.Grammar.Letters.complete` — **what all letters of a literal denote together**.

Main results:

* `DocCodec.Literal.within_of_unescapeFrom` — what is read from any point of a valid literal;
* `DocCodec.Literal.valid_of_decode?` — what is read from a valid literal is valid;
* `DocCodec.Grammar.Letters.content_eq_complete` — **a valid literal is read completely**.
-/

import DocCodec.Proofs.Denotation.Tree
import DocCodec.Proofs.Utf8.Valid

set_option relaxedAutoImplicit false
set_option autoImplicit false

namespace DocCodec

namespace Literal

/-! ### Escapes are ASCII -/

/-- The letter of an escape and the byte that it stands for. -/
theorem lt_of_simpleEscape? {letter byte : UInt8} (h : simpleEscape? letter = some byte) :
    letter < 0x80 ∧ byte < 0x80 := by
  unfold simpleEscape? at h
  split at h
  · next hletter =>
      cases h
      rcases hletter with rfl | rfl | rfl <;> decide
  repeat
    split at h
    · next hletter =>
        cases h
        exact ⟨by rw [hletter]; decide, by decide⟩
  cases h

/-- The digits of a code unit. -/
theorem exists_digits_of_codeUnit? {bytes rest : Bytes} {unit : Nat}
    (h : codeUnit? bytes = some (unit, rest)) :
    ∃ digits, bytes = digits ++ rest ∧ ∀ b ∈ digits, b < 0x80 := by
  unfold codeUnit? at h
  split at h
  · next a b c d rest =>
      obtain ⟨n, hfour, hn⟩ := Option.map_eq_some_iff.1 h
      cases hn
      simp only [Hex.four?, Option.bind_eq_bind, Option.bind_eq_some_iff] at hfour
      obtain ⟨w, ha, x, hb, y, hc, z, hd, -⟩ := hfour
      have hdigit {digit : UInt8} {n : Nat} (hn : Hex.value? digit = some n) : digit < 0x80 :=
        (Hex.bounds_of_isDigit (by rw [Hex.isDigit, hn]; rfl)).2
      refine ⟨[a, b, c, d], rfl, ?_⟩
      intro digit hmem
      simp only [List.mem_cons, List.not_mem_nil, or_false] at hmem
      rcases hmem with rfl | rfl | rfl | rfl
      · exact hdigit ha
      · exact hdigit hb
      · exact hdigit hc
      · exact hdigit hd
  · cases h

/-- The escape of a low surrogate. -/
theorem exists_escape_of_lowSurrogate? {bytes rest : Bytes} {unit : Nat}
    (h : lowSurrogate? bytes = some (unit, rest)) :
    ∃ escape, bytes = escape ++ rest ∧ ∀ b ∈ escape, b < 0x80 := by
  unfold lowSurrogate? at h
  split at h
  · next b c behind =>
      split at h
      · next hmark =>
          obtain ⟨rfl, rfl⟩ := hmark
          split at h
          · next low after hunit =>
              obtain ⟨digits, rfl, hdigits⟩ := exists_digits_of_codeUnit? hunit
              split at h
              · cases h
                exact ⟨Ascii.backslash :: Ascii.byte 'u' :: digits, rfl,
                  List.forall_mem_cons.2 ⟨by decide, List.forall_mem_cons.2 ⟨by decide, hdigits⟩⟩⟩
              · cases h
          · cases h
      · cases h
  · cases h

/-- An escape by number, with that of the low surrogate if there is one. -/
theorem exists_escape_of_unicodeEscape? {bytes rest : Bytes} {c : Char}
    (h : unicodeEscape? bytes = some (c, rest)) :
    ∃ escape, bytes = escape ++ rest ∧ ∀ b ∈ escape, b < 0x80 := by
  unfold unicodeEscape? at h
  split at h
  · cases h
  · next unit behind hunit =>
      obtain ⟨digits, rfl, hdigits⟩ := exists_digits_of_codeUnit? hunit
      split at h
      · split at h
        · next low after hlow =>
            obtain ⟨escape, rfl, hescape⟩ := exists_escape_of_lowSurrogate? hlow
            obtain ⟨found, -, hfound⟩ := Option.map_eq_some_iff.1 h
            cases hfound
            exact ⟨digits ++ escape, by rw [List.append_assoc],
              List.forall_mem_append.2 ⟨hdigits, hescape⟩⟩
        · cases h
      · obtain ⟨found, -, hfound⟩ := Option.map_eq_some_iff.1 h
        cases hfound
        exact ⟨digits, rfl, hdigits⟩

/-! ### Reading valid literals -/

/-- **What is read from any point of a valid literal** goes on with the character there and is then
valid. -/
theorem within_of_unescapeFrom {text : Bytes} {out result : Array UInt8}
    (h : unescapeFrom out text = some result) {trailing : Bytes} (hw : Utf8.Within trailing text) :
    ∃ more : Bytes, result = out ++ more ∧ Utf8.Within trailing more := by
  -- Byte by byte, as the reader may stand within a character.
  rw [unescapeFrom_eq_bytewiseFrom] at h
  fun_induction bytewiseFrom out text generalizing trailing with
  | case1 out =>
      cases h
      exact ⟨[], by simp, hw⟩
  | case2 out => cases h
  | case3 out rest c behind hescape ih =>
      obtain ⟨escape, rfl, hascii⟩ := exists_escape_of_unicodeEscape? hescape
      have hmark : ∀ b ∈ Ascii.backslash :: Ascii.byte 'u' :: escape, b < 0x80 :=
        List.forall_mem_cons.2 ⟨by decide, List.forall_mem_cons.2 ⟨by decide, hascii⟩⟩
      obtain ⟨rfl, hbehind⟩ := hw.of_ascii_append hmark
      obtain ⟨more, hmore, hvalid⟩ := ih h (Utf8.within_nil.2 hbehind)
      refine ⟨String.utf8EncodeChar c ++ more, by rw [hmore, Bytes.append_append], ?_⟩
      exact Utf8.within_nil.2 ((Utf8.valid_char c).append (Utf8.within_nil.1 hvalid))
  | case4 out rest hescape => cases h
  | case5 out letter rest hu byte hbyte ih =>
      obtain ⟨hletter, hlt⟩ := lt_of_simpleEscape? hbyte
      have hascii : ∀ b ∈ [Ascii.backslash, letter], b < 0x80 :=
        List.forall_mem_cons.2 ⟨by decide, List.forall_mem_singleton.2 hletter⟩
      obtain ⟨rfl, hbehind⟩ := hw.of_ascii_append hascii
      obtain ⟨more, hmore, hvalid⟩ := ih h (Utf8.within_nil.2 hbehind)
      exact ⟨byte :: more, by simp [hmore], Utf8.within_nil.2 ((Utf8.within_nil.1 hvalid).cons hlt)⟩
  | case6 out letter rest hu hbyte => cases h
  | case7 out b rest hb hcut => exact absurd hcut hw.next.1
  | case8 out b rest hb hcut ih =>
      obtain ⟨-, others, hothers, hback⟩ := hw.next
      obtain ⟨more, hmore, hvalid⟩ := ih h hothers
      exact ⟨b :: more, by simp [hmore], hback more hvalid⟩

/-- **What is read from a valid literal is valid.** -/
theorem valid_of_decode? {text content : Bytes} (h : Utf8.Valid text)
    (hread : decode? (Ascii.quote :: text) = some content) : Utf8.Valid content := by
  obtain ⟨result, hresult, rfl⟩ := Option.map_eq_some_iff.1 hread
  obtain ⟨more, rfl, hmore⟩ := within_of_unescapeFrom hresult (Utf8.within_nil.2 h)
  simpa using Utf8.within_nil.1 hmore

end Literal

namespace Grammar

/-! ### All letters -/

/-- The code unit of an escape by number, and zero for any other letter. -/
def Letter.codeUnit (letter : Letter) : Nat := letter.unit?.getD 0

/-- The letters of escapes with the bytes that they stand for. -/
def Letter.escapes : List (UInt8 × UInt8) :=
  [(Ascii.quote, 0x22), (Ascii.backslash, 0x5C), (Ascii.byte '/', 0x2F), (Ascii.byte 'b', 0x08),
    (Ascii.byte 'f', 0x0C), (Ascii.byte 'n', 0x0A), (Ascii.byte 'r', 0x0D), (Ascii.byte 't', 0x09)]

/-- What a letter denotes that is not part of a surrogate pair. -/
def Letter.alone (letter : Letter) : Bytes :=
  match letter with
  | plain byte _ => [byte]
  | escape letter _ => (escapes.lookup letter).toList
  | unit _ _ _ _ _ => String.utf8EncodeChar (Char.ofNat letter.codeUnit)

/-- What two letters denote that are a surrogate pair. -/
def Letter.pair (high low : Letter) : Bytes :=
  String.utf8EncodeChar (Char.ofNat (Literal.combineSurrogates high.codeUnit low.codeUnit))

namespace Letters

/-- **What all letters of a literal denote together.** -/
def complete : Letters → Bytes
  | [] => []
  | [letter] => letter.alone
  | first :: second :: rest =>
    if first.isHigh then first.pair second ++ complete rest
    else first.alone ++ complete (second :: rest)

theorem complete_cons {letter : Letter} (h : letter.isHigh = false) (rest : Letters) :
    complete (letter :: rest) = letter.alone ++ complete rest := by
  cases rest with
  | nil => rw [complete, complete, List.append_nil]
  | cons second rest => rw [complete, if_neg (by rw [h]; exact Bool.false_ne_true)]

theorem complete_pair {high low : Letter} (h : high.isHigh = true) (rest : Letters) :
    complete (high :: low :: rest) = high.pair low ++ complete rest := by
  rw [complete, if_pos h]

end Letters

/-! ### The letters of escapes -/

theorem Letter.lt_of_mem_unit {a b c d : UInt8} (ok) :
    ∀ byte ∈ (Letter.unit a b c d ok).bytes, byte < 0x80 := by
  intro byte hbyte
  rcases List.mem_cons.1 hbyte with rfl | hbyte
  · decide
  rcases List.mem_cons.1 hbyte with rfl | hbyte
  · decide
  · exact (Hex.bounds_of_isDigit (ok byte hbyte)).2

theorem Letter.lt_of_mem_of_isLow {letter : Letter} (h : letter.isLow = true) :
    ∀ byte ∈ letter.bytes, byte < 0x80 := by
  cases letter with
  | plain byte ok => cases h
  | escape letter ok => cases h
  | unit a b c d ok => exact lt_of_mem_unit ok

/-- An escape of one letter is read as the byte it stands for. -/
theorem Letter.of_mem_escapes {letter byte : UInt8} (h : (letter, byte) ∈ escapes) :
    Literal.simpleEscape? letter = some byte ∧ (∀ ok, (Letter.escape letter ok).alone = [byte]) ∧
      letter < 0x80 ∧ letter ≠ Ascii.byte 'u' := by
  simp only [escapes, List.mem_cons, List.not_mem_nil, or_false, Prod.mk.injEq] at h
  rcases h with ⟨rfl, rfl⟩ | ⟨rfl, rfl⟩ | ⟨rfl, rfl⟩ | ⟨rfl, rfl⟩ | ⟨rfl, rfl⟩ | ⟨rfl, rfl⟩ |
    ⟨rfl, rfl⟩ | ⟨rfl, rfl⟩ <;>
    exact ⟨rfl, fun _ => rfl, by decide, by decide⟩

/-- Every letter of an escape stands for a byte. -/
theorem Letter.exists_mem_escapes {letter : UInt8} (ok) :
    ∃ byte, (letter, byte) ∈ escapes ∧ Literal.simpleEscape? letter = some byte ∧
      (Letter.escape letter ok).alone = [byte] ∧ letter < 0x80 ∧ letter ≠ Ascii.byte 'u' := by
  have hletters : escapes.map Prod.fst = [Ascii.quote, Ascii.backslash, Ascii.byte '/',
      Ascii.byte 'b', Ascii.byte 'f', Ascii.byte 'n', Ascii.byte 'r', Ascii.byte 't'] := rfl
  have hmem := ok
  rw [← hletters] at hmem
  obtain ⟨entry, hentry, hletter⟩ := List.mem_map.1 hmem
  obtain ⟨hread, halone, hrest⟩ := of_mem_escapes hentry
  subst hletter
  exact ⟨entry.2, hentry, hread, halone ok, hrest⟩

/-! ### Code units -/

namespace Letters

theorem character?_of_isSome {codePoint : Nat} (h : (Literal.character? codePoint).isSome = true) :
    Literal.character? codePoint = some (Char.ofNat codePoint) :=
  if_pos ((Literal.isSome_character?_iff codePoint).1 h)

/-- The escape of a low surrogate is read as its code unit where it is next. -/
theorem lowSurrogate?_bytes {letter : Letter} (h : letter.isLow = true) (rest : Bytes) :
    Literal.lowSurrogate? (letter.bytes ++ rest) = some (letter.codeUnit, rest) := by
  cases letter with
  | plain byte ok => cases h
  | escape letter ok => cases h
  | unit a b c d ok =>
      have hclass : Literal.isLowSurrogate (Hex.number a b c d) = true := h
      simp [Letter.bytes, Letter.codeUnit, Letter.unit?, Literal.lowSurrogate?,
        Literal.codeUnit?, Hex.four?_eq ok, hclass]

/-- A surrogate pair is read as one character. -/
theorem unicodeEscape?_pair {a b c d : UInt8} {ok} {low : Letter}
    (hhigh : (Letter.unit a b c d ok).isHigh = true) (hlow : low.isLow = true) (rest : Bytes) :
    Literal.unicodeEscape? (a :: b :: c :: d :: (low.bytes ++ rest)) =
      some (Char.ofNat (Literal.combineSurrogates (Letter.unit a b c d ok).codeUnit low.codeUnit),
        rest) := by
  have hcharacter := character?_of_isSome
    (Literal.isSome_character?_combineSurrogates (Hex.number a b c d) low.codeUnit)
  rw [Literal.unicodeEscape?_of_high (Literal.codeUnit?_cons (Hex.four?_eq ok) _) hhigh,
    lowSurrogate?_bytes hlow, Option.bind_some, hcharacter]
  rfl

/-- Any other code unit is read as a character of its own. -/
theorem unicodeEscape?_alone {a b c d : UInt8} {ok}
    (hhigh : (Letter.unit a b c d ok).isHigh = false)
    (hlow : (Letter.unit a b c d ok).isLow = false) (rest : Bytes) :
    Literal.unicodeEscape? (a :: b :: c :: d :: rest) =
      some (Char.ofNat (Letter.unit a b c d ok).codeUnit, rest) := by
  have hlowUnit : Literal.isLowSurrogate (Hex.number a b c d) = false := hlow
  have hsome := Literal.isSome_character?_unit (Hex.number_lt ok) hhigh
  rw [hlowUnit] at hsome
  rw [Literal.unicodeEscape?_of_not_high (Literal.codeUnit?_cons (Hex.four?_eq ok) _) hhigh,
    character?_of_isSome hsome]
  rfl

/-! ### Reading completely -/

/-- **All letters are read** from any point of a valid literal on. -/
theorem unescapeFrom_complete (letters : Letters) (hpaired : letters.paired = true)
    {trailing : Bytes} (h : Utf8.Within trailing letters.bytes) (out : Array UInt8) :
    Literal.unescapeFrom out letters.bytes = some (out ++ letters.complete) := by
  -- By the number of letters, as a pair of surrogates takes two at once.
  match letters with
  | [] =>
      rw [bytes_nil, Literal.unescapeFrom_nil, complete]
      simp
  | .plain b ok :: rest =>
      rw [paired_cons rfl] at hpaired
      rw [bytes_cons, Letter.bytes, List.singleton_append] at h ⊢
      obtain ⟨hcut, others, hothers, -⟩ := h.next
      rw [Literal.unescapeFrom_plain _ _ ok.2.2, if_neg hcut,
        unescapeFrom_complete rest hpaired hothers, complete_cons rfl]
      simp [Letter.alone]
  | .escape letter ok :: rest =>
      obtain ⟨byte, -, hbyte, halone, hletter, hu⟩ := Letter.exists_mem_escapes ok
      rw [paired_cons rfl] at hpaired
      have hascii : ∀ c ∈ [Ascii.backslash, letter], c < 0x80 :=
        List.forall_mem_cons.2 ⟨by decide, List.forall_mem_singleton.2 hletter⟩
      rw [bytes_cons, Letter.bytes] at h ⊢
      obtain ⟨rfl, hbehind⟩ := h.of_ascii_append hascii
      rw [List.cons_append, List.singleton_append, Literal.unescapeFrom_escape _ _ hu, hbyte,
        Option.bind_some, unescapeFrom_complete rest hpaired (Utf8.within_nil.2 hbehind),
        complete_cons rfl, halone]
      simp
  | .unit a b c d ok :: rest =>
      have hsplit := h
      rw [bytes_cons] at hsplit
      obtain ⟨rfl, hbehind⟩ := hsplit.of_ascii_append (Letter.lt_of_mem_unit ok)
      cases hhigh : (Letter.unit a b c d ok).isHigh with
      | false =>
          rw [paired_cons hhigh, Bool.and_eq_true, Bool.not_eq_true'] at hpaired
          obtain ⟨hlow, hrest⟩ := hpaired
          have hread := unescapeFrom_complete rest hrest (Utf8.within_nil.2 hbehind)
            (out ++ (Letter.unit a b c d ok).alone)
          rw [bytes_cons, Letter.bytes, complete_cons hhigh, ← Bytes.append_append]
          simp only [List.cons_append, List.nil_append]
          rw [Literal.unescapeFrom_unit, unicodeEscape?_alone hhigh hlow, Option.bind_some]
          exact hread
      | true =>
          cases rest with
          | nil => simp [paired, hhigh] at hpaired
          | cons low rest =>
              rw [paired, if_pos hhigh, Bool.and_eq_true] at hpaired
              obtain ⟨hlow, hrest⟩ := hpaired
              rw [bytes_cons] at hbehind
              have hlast := hbehind.of_ascii_append (Letter.lt_of_mem_of_isLow hlow)
              have hread := unescapeFrom_complete rest hrest (Utf8.within_nil.2 hlast)
                (out ++ (Letter.unit a b c d ok).pair low)
              rw [bytes_cons, Letter.bytes, bytes_cons, complete_pair hhigh, ← Bytes.append_append]
              simp only [List.cons_append, List.nil_append]
              rw [Literal.unescapeFrom_unit, unicodeEscape?_pair hhigh hlow, Option.bind_some]
              exact hread
termination_by letters.length

/-- **A valid literal is read completely**, and what is read is valid. -/
theorem content_eq_complete {letters : Letters} (hpaired : letters.paired = true)
    (h : Utf8.Valid letters.bytes) :
    letters.content = letters.complete ∧ Utf8.Valid letters.content := by
  refine ⟨?_, Literal.valid_of_decode? h (decode?_raw hpaired)⟩
  have hdecode : Literal.decode? letters.raw = some letters.complete := by
    change (Literal.unescapeFrom #[] letters.bytes).map Array.toList = _
    rw [unescapeFrom_complete letters hpaired (Utf8.within_nil.2 h)]
    simp
  rw [content, hdecode]
  rfl

end Letters

end Grammar

end DocCodec
