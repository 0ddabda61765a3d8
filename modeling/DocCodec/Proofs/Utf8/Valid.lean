/-
**Valid UTF-8.**

A byte string is valid if it is the bytes of a text, a text being any characters one after another.
There are no characters for surrogates or above U+10FFFF, and every character has one encoding, so
this is UTF-8 in the strict sense.

The first byte of a character of more than one byte is a lead byte, and the others are continuation
bytes; none of them is ASCII.  So a valid byte string may be cut at every byte of ASCII, and what is
left on both sides is valid.

Main definitions:

* `DocCodec.Utf8.Valid` — **valid byte strings**;
* `DocCodec.Utf8.Within` — the rest of one from a point on, which may be within a character.

Main results:

* `DocCodec.Utf8.valid_iff_decode` — they are those that are read as texts;
* `DocCodec.Utf8.Valid.exists_whole` — a valid byte string begins with a whole character;
* `DocCodec.Utf8.Valid.of_append_cons` — **it may be cut at every byte of ASCII**;
* `DocCodec.Utf8.Within.next` — at no point a character is cut off.
-/

import DocCodec.Proofs.Literal.Repair

set_option relaxedAutoImplicit false
set_option autoImplicit false

namespace DocCodec.Utf8

/-- **Valid byte strings**: the bytes of texts. -/
def Valid (bytes : Bytes) : Prop := ∃ text : String, encode text = bytes

theorem valid_encode (text : String) : Valid (encode text) := ⟨text, rfl⟩

/-- A byte string is valid if and only if it is read as a text. -/
theorem valid_iff_decode (bytes : Bytes) : Valid bytes ↔ ∃ text, decode bytes = .ok text := by
  constructor
  · intro h
    obtain ⟨text, rfl⟩ := h
    exact ⟨text, decode_encode text⟩
  · intro h
    obtain ⟨text, htext⟩ := h
    exact ⟨text, encode_of_decode htext⟩

/-- Characters one after another. -/
theorem valid_iff_chars (bytes : Bytes) :
    Valid bytes ↔ ∃ chars : List Char, chars.flatMap String.utf8EncodeChar = bytes := by
  constructor
  · intro h
    obtain ⟨text, rfl⟩ := h
    exact ⟨text.toList, (encode_eq_flatMap text).symm⟩
  · intro h
    obtain ⟨chars, rfl⟩ := h
    exact ⟨String.ofList chars, encode_ofList chars⟩

theorem valid_nil : Valid [] := (valid_iff_chars []).2 ⟨[], rfl⟩

theorem valid_char (c : Char) : Valid (String.utf8EncodeChar c) :=
  (valid_iff_chars _).2 ⟨[c], List.flatMap_singleton ..⟩

theorem Valid.append {first second : Bytes} (hfirst : Valid first) (hsecond : Valid second) :
    Valid (first ++ second) := by
  rw [valid_iff_chars] at hfirst hsecond ⊢
  obtain ⟨chars, rfl⟩ := hfirst
  obtain ⟨more, rfl⟩ := hsecond
  exact ⟨chars ++ more, List.flatMap_append⟩

theorem valid_of_ascii {bytes : Bytes} (h : ∀ b ∈ bytes, b < 0x80) : Valid bytes :=
  (valid_iff_decode bytes).2 (exists_decode_of_ascii h)

/-- Bytes that are looked through one by one. -/
theorem valid_of_all {bytes : Bytes} (h : bytes.all (· < 0x80) = true) : Valid bytes :=
  valid_of_ascii fun b hb => of_decide_eq_true (List.all_eq_true.1 h b hb)

/-- A byte of ASCII in front. -/
theorem Valid.cons {b : UInt8} (hb : b < 0x80) {bytes : Bytes} (h : Valid bytes) :
    Valid (b :: bytes) := by
  have hsingle : Valid [b] := valid_of_ascii (List.forall_mem_singleton.2 hb)
  exact hsingle.append h

/-- Parts that are valid join up to a valid whole. -/
theorem valid_flatMap {α : Type} {f : α → Bytes} {parts : List α} (h : ∀ a ∈ parts, Valid (f a)) :
    Valid (parts.flatMap f) := by
  induction parts with
  | nil => exact valid_nil
  | cons a parts ih =>
      obtain ⟨ha, hparts⟩ := List.forall_mem_cons.1 h
      rw [List.flatMap_cons]
      exact ha.append (ih hparts)

/-! ### The first character -/

/-- A valid byte string begins with a whole character. -/
theorem Valid.exists_whole {b : UInt8} {bytes : Bytes} (h : Valid (b :: bytes)) :
    ∃ trailing rest, bytes = trailing ++ rest ∧ sequenceLength b = trailing.length + 1 ∧
      (∀ c ∈ trailing, isContinuation c = true) ∧ Valid (b :: trailing) ∧ Valid rest := by
  obtain ⟨chars, hchars⟩ := (valid_iff_chars _).1 h
  cases chars with
  | nil => cases hchars
  | cons c chars =>
      obtain ⟨lead, trailing, hc, hlength, hall⟩ := utf8EncodeChar_whole c
      rw [List.flatMap_cons, hc, List.cons_append] at hchars
      obtain ⟨rfl, rfl⟩ := List.cons.inj hchars
      exact ⟨trailing, _, rfl, hlength, hall, hc ▸ valid_char c, (valid_iff_chars _).2 ⟨chars, rfl⟩⟩

/-- A continuation byte is not ASCII. -/
theorem not_lt_of_isContinuation {b : UInt8} (h : isContinuation b = true) : ¬ b < 0x80 := by
  simp only [isContinuation, Bool.and_eq_true, decide_eq_true_eq] at h
  exact UInt8.not_lt.2 h.1

/-- What follows a byte of ASCII is valid. -/
theorem Valid.tail {b : UInt8} (hb : b < 0x80) {bytes : Bytes} (h : Valid (b :: bytes)) :
    Valid bytes := by
  obtain ⟨trailing, rest, rfl, hlength, -, -, hrest⟩ := h.exists_whole
  rw [sequenceLength_of_ascii hb] at hlength
  have htrailing : trailing = [] := List.eq_nil_of_length_eq_zero (Nat.succ.inj hlength).symm
  rwa [htrailing]

/-- What follows bytes of ASCII is valid. -/
theorem Valid.of_ascii_append {first second : Bytes} (hfirst : ∀ b ∈ first, b < 0x80)
    (h : Valid (first ++ second)) : Valid second := by
  induction first with
  | nil => exact h
  | cons b first ih =>
      obtain ⟨hb, hfirst⟩ := List.forall_mem_cons.1 hfirst
      exact ih hfirst (h.tail hb)

/-- **A valid byte string may be cut at every byte of ASCII.** -/
theorem Valid.of_append_cons {first : Bytes} {b : UInt8} (hb : b < 0x80) {second : Bytes}
    (h : Valid (first ++ b :: second)) : Valid first ∧ Valid second := by
  -- By the length of the first part, as its characters have more than one byte.
  induction hsize : first.length using Nat.strongRecOn generalizing first with
  | ind size ih =>
      cases first with
      | nil => exact ⟨valid_nil, h.tail hb⟩
      | cons lead first =>
          obtain ⟨trailing, rest, hsplit, -, hall, hchar, hrest⟩ := Valid.exists_whole h
          rcases List.append_eq_append_iff.1 hsplit with ⟨more, rfl, hmore⟩ | ⟨more, rfl, hmore⟩
          · -- The byte is not one of the character.
            cases more with
            | nil =>
                rw [List.append_nil] at hchar
                rw [List.nil_append] at hmore
                rw [← hmore] at hrest
                exact ⟨hchar, hrest.tail hb⟩
            | cons c more =>
                obtain ⟨rfl, -⟩ := List.cons.inj hmore
                exact absurd hb (not_lt_of_isContinuation (hall b (by simp)))
          · have hshorter : more.length < size := by
              rw [← hsize, List.length_cons, List.length_append]
              omega
            rw [hmore] at hrest
            obtain ⟨hfirst, hsecond⟩ := ih more.length hshorter hrest rfl
            exact ⟨hchar.append hfirst, hsecond⟩

/-! ### Points within a character -/

/-- The rest of a valid byte string from a point on, where `trailing` is still to come of a
character. -/
def Within (trailing bytes : Bytes) : Prop :=
  (∀ b ∈ trailing, isContinuation b = true) ∧ ∃ rest, bytes = trailing ++ rest ∧ Valid rest

/-- Between two characters. -/
theorem within_nil {bytes : Bytes} : Within [] bytes ↔ Valid bytes := by
  constructor
  · intro h
    obtain ⟨-, rest, rfl, hrest⟩ := h
    exact hrest
  · intro h
    exact ⟨by simp, bytes, rfl, h⟩

/-- **One byte further.**  It goes on with a character or begins one, so nothing is cut off by the
end; and whatever may follow the byte may follow it here. -/
theorem Within.next {trailing : Bytes} {b : UInt8} {bytes : Bytes} (h : Within trailing (b :: bytes)) :
    shape b bytes ≠ .cut ∧ ∃ others, Within others bytes ∧
      ∀ more, Within others more → Within trailing (b :: more) := by
  obtain ⟨hall, rest, hsplit, hrest⟩ := h
  cases trailing with
  | nil =>
      rw [List.nil_append] at hsplit
      rw [← hsplit] at hrest
      obtain ⟨others, rest, rfl, hlength, hothers, hchar, hrest⟩ := hrest.exists_whole
      have hwhole : shape b (others ++ rest) = .whole others.length :=
        (shape_eq_whole_iff ..).2 ⟨hlength, by simp, by simpa using hothers⟩
      refine ⟨by simp [hwhole], others, ⟨hothers, rest, rfl, hrest⟩, ?_⟩
      intro more hmore
      obtain ⟨-, found, rfl, hfound⟩ := hmore
      exact within_nil.2 (hchar.append hfound)
  | cons c trailing =>
      obtain ⟨rfl, rfl⟩ := List.cons.inj hsplit
      obtain ⟨hb, hothers⟩ := List.forall_mem_cons.1 hall
      refine ⟨by simp [shape_continuation hb], trailing, ⟨hothers, rest, rfl, hrest⟩, ?_⟩
      intro more hmore
      obtain ⟨-, found, rfl, hfound⟩ := hmore
      exact ⟨hall, found, rfl, hfound⟩

/-- A point before bytes of ASCII is between two characters, and so is the point behind them. -/
theorem Within.of_ascii_append {trailing : Bytes} {b : UInt8} {first second : Bytes}
    (hfirst : ∀ c ∈ b :: first, c < 0x80) (h : Within trailing (b :: first ++ second)) :
    trailing = [] ∧ Valid second := by
  obtain ⟨hall, rest, hsplit, hrest⟩ := h
  cases trailing with
  | nil =>
      rw [List.nil_append] at hsplit
      rw [← hsplit] at hrest
      exact ⟨rfl, hrest.of_ascii_append hfirst⟩
  | cons c trailing =>
      obtain ⟨rfl, -⟩ := List.cons.inj hsplit
      exact absurd (hfirst b List.mem_cons_self)
        (not_lt_of_isContinuation (hall b List.mem_cons_self))

end DocCodec.Utf8
