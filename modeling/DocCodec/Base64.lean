/-
**Base64 with padding, in one go and in blocks.**

Three bytes are written as four digits of six bits each; a last group of one or two bytes is
filled up with padding.  The writer of documents does not hold the whole text: it writes blocks of
48 bytes, each of which fills a buffer of 64 digits exactly.  As 48 is a multiple of three, only
the last block can carry padding, so the blocks join up to the text of the whole.

Main definitions:

* `DocCodec.Base64.encode` — **the padded base64 text** of a byte string;
* `DocCodec.Base64.decode?` — reads such a text back;
* `DocCodec.Base64.blocks` — the texts written one block at a time;
* `DocCodec.Base64.Engine` — what puts the text of a block into a buffer;
* `DocCodec.Base64.encodeInto` — the text of a block, in a buffer that may be too small.

Main results:

* `DocCodec.Base64.length_encode` — four digits for every three bytes or part of three;
* `DocCodec.Base64.decode?_encode` — the text of a byte string is read as that byte string;
* `DocCodec.Base64.flatten_blocks` — the texts of blocks join up to the text of the whole.
-/

import DocCodec.Ascii
import DocCodec.Bytes

set_option relaxedAutoImplicit false
set_option autoImplicit false

namespace DocCodec.Base64

/-! ### Digits -/

/-- The digit for a value below 64: upper-case letters, lower-case letters, decimal digits, `+`,
`/`. -/
def digit (n : Nat) : UInt8 :=
  if n < 26 then UInt8.ofNat (65 + n)
  else if n < 52 then UInt8.ofNat (71 + n)
  else if n < 62 then UInt8.ofNat (n - 4)
  else if n = 62 then Ascii.plus
  else Ascii.byte '/'

/-- The value of a base64 digit. -/
def value? (b : UInt8) : Option Nat :=
  if Ascii.byte 'A' ≤ b ∧ b ≤ Ascii.byte 'Z' then some (b.toNat - 65)
  else if Ascii.byte 'a' ≤ b ∧ b ≤ Ascii.byte 'z' then some (b.toNat - 71)
  else if Ascii.byte '0' ≤ b ∧ b ≤ Ascii.byte '9' then some (b.toNat + 4)
  else if b = Ascii.plus then some 62
  else if b = Ascii.byte '/' then some 63
  else none

/-- The byte that fills up a short last group. -/
abbrev pad : UInt8 := 0x3D

theorem value?_digit : ∀ n < 64, value? (digit n) = some n := by decide

theorem digit_ne_pad : ∀ n < 64, digit n ≠ pad := by decide

/-! ### The text of a byte string -/

/-- The four digits of a full group. -/
def group (a b c : UInt8) : Bytes :=
  [digit (a.toNat / 4), digit (a.toNat % 4 * 16 + b.toNat / 16),
    digit (b.toNat % 16 * 4 + c.toNat / 64), digit (c.toNat % 64)]

/-- **The padded base64 text** of a byte string. -/
def encode : Bytes → Bytes
  | [] => []
  | [a] => [digit (a.toNat / 4), digit (a.toNat % 4 * 16), pad, pad]
  | [a, b] =>
    [digit (a.toNat / 4), digit (a.toNat % 4 * 16 + b.toNat / 16), digit (b.toNat % 16 * 4), pad]
  | a :: b :: c :: rest => group a b c ++ encode rest

/-- The byte string whose padded base64 text is given.  Padding may only end the text, and the bits
that it leaves over must be zero. -/
def decode? : Bytes → Option Bytes
  | [] => some []
  | a :: b :: c :: d :: rest =>
    if d = pad ∧ rest = [] then
      if c = pad then do
        let a ← value? a
        let b ← value? b
        if b % 16 = 0 then some [UInt8.ofNat (a * 4 + b / 16)] else none
      else do
        let a ← value? a
        let b ← value? b
        let c ← value? c
        if c % 4 = 0 then
          some [UInt8.ofNat (a * 4 + b / 16), UInt8.ofNat (b % 16 * 16 + c / 4)]
        else none
    else do
      let a ← value? a
      let b ← value? b
      let c ← value? c
      let d ← value? d
      let bytes ← decode? rest
      return UInt8.ofNat (a * 4 + b / 16) :: UInt8.ofNat (b % 16 * 16 + c / 4) ::
        UInt8.ofNat (c % 4 * 64 + d) :: bytes
  | _ => none

/-- Three bytes or fewer become four digits. -/
@[simp] theorem length_encode (bytes : Bytes) :
    (encode bytes).length = 4 * ((bytes.length + 2) / 3) := by
  fun_induction encode bytes with
  | case1 => rfl
  | case2 a => simp
  | case3 a b => simp
  | case4 a b c rest ih =>
    simp only [group, List.length_append, List.length_cons, List.length_nil, ih]
    omega

theorem ofNat_eq_of_eq_toNat {n : Nat} {b : UInt8} (h : n = b.toNat) : UInt8.ofNat n = b := by
  rw [h, UInt8.ofNat_toNat]

/-- The text of a byte string is read as that byte string. -/
@[simp] theorem decode?_encode (bytes : Bytes) : decode? (encode bytes) = some bytes := by
  fun_induction encode bytes with
  | case1 => rfl
  | case2 a =>
    have ha := a.toNat_lt
    have h₁ := value?_digit (a.toNat / 4) (by omega)
    have h₂ := value?_digit (a.toNat % 4 * 16) (by omega)
    simp only [decode?, h₁, h₂, Option.bind_eq_bind, Option.bind_some, and_self, if_true]
    rw [if_pos (by omega), ofNat_eq_of_eq_toNat (b := a) (by omega)]
  | case3 a b =>
    have ha := a.toNat_lt
    have hb := b.toNat_lt
    have hp := digit_ne_pad (b.toNat % 16 * 4) (by omega)
    have h₁ := value?_digit (a.toNat / 4) (by omega)
    have h₂ := value?_digit (a.toNat % 4 * 16 + b.toNat / 16) (by omega)
    have h₃ := value?_digit (b.toNat % 16 * 4) (by omega)
    simp only [decode?, hp, h₁, h₂, h₃, Option.bind_eq_bind, Option.bind_some, and_self, if_true,
      if_false]
    rw [if_pos (by omega), ofNat_eq_of_eq_toNat (b := a) (by omega),
      ofNat_eq_of_eq_toNat (b := b) (by omega)]
  | case4 a b c rest ih =>
    have ha := a.toNat_lt
    have hb := b.toNat_lt
    have hc := c.toNat_lt
    have hp := digit_ne_pad (c.toNat % 64) (by omega)
    have h₁ := value?_digit (a.toNat / 4) (by omega)
    have h₂ := value?_digit (a.toNat % 4 * 16 + b.toNat / 16) (by omega)
    have h₃ := value?_digit (b.toNat % 16 * 4 + c.toNat / 64) (by omega)
    have h₄ := value?_digit (c.toNat % 64) (by omega)
    simp only [group, List.cons_append, List.nil_append, decode?, hp, false_and, if_false, h₁, h₂,
      h₃, h₄, ih, Option.bind_eq_bind, Option.bind_some]
    rw [ofNat_eq_of_eq_toNat (b := a) (by omega), ofNat_eq_of_eq_toNat (b := b) (by omega),
      ofNat_eq_of_eq_toNat (b := c) (by omega)]
    rfl

/-! ### Blocks -/

/-- How many bytes are turned into text at a time; 64 digits are the text of a full block. -/
def blockSize : Nat := 48

/-- The texts of the blocks of a byte string, in order. -/
def blocks (bytes : Bytes) : List Bytes := (bytes.parts blockSize).map encode

/-- Only the end of a byte string is written with padding. -/
theorem encode_append {first : Bytes} (h : first.length % 3 = 0) (second : Bytes) :
    encode (first ++ second) = encode first ++ encode second := by
  fun_induction encode first with
  | case1 => rfl
  | case2 a => cases h
  | case3 a b => cases h
  | case4 a b c rest ih =>
    simp only [List.length_cons] at h
    rw [List.cons_append, List.cons_append, List.cons_append, encode, ih (by omega),
      List.append_assoc]

/-- The texts of blocks join up to the text of the whole. -/
theorem flatten_blocks (bytes : Bytes) : (blocks bytes).flatten = encode bytes := by
  unfold blocks
  fun_induction Bytes.parts bytes blockSize with
  | case1 => rfl
  | case2 b rest ih =>
    have hrest : b :: rest = (b :: rest.take (blockSize - 1)) ++ rest.drop (blockSize - 1) := by
      rw [List.cons_append, List.take_append_drop]
    rw [List.map_cons, List.flatten_cons, ih]
    -- A block is full, or it is the last one.
    rcases Nat.lt_or_ge rest.length (blockSize - 1) with hshort | hfull
    · rw [List.drop_of_length_le (Nat.le_of_lt hshort), List.take_of_length_le
        (Nat.le_of_lt hshort), encode, List.append_nil]
    · have hlength : (b :: rest.take (blockSize - 1)).length % 3 = 0 := by
        rw [List.length_cons, List.length_take, Nat.min_eq_left hfull]
        rfl
      rw [← encode_append hlength, ← hrest]

/-- What is given a buffer and a block and puts the digits of the block into the buffer: the buffer
afterwards, and how many digits they are. -/
abbrev Engine := Bytes → Bytes → Option (Bytes × Nat)

/-- Puts the digits of a block at the front of a buffer, if there is room for them: the buffer
afterwards, and how many digits they are. -/
def encodeInto (buffer block : Bytes) : Option (Bytes × Nat) :=
  let digits := encode block
  if digits.length ≤ buffer.length then some (digits ++ buffer.drop digits.length, digits.length)
  else none

end DocCodec.Base64
