/-
**From the text of a string literal to the bytes it stands for.**

Unescaped bytes stand for themselves, whether or not they are UTF-8.  A backslash starts an
escape: a letter for one byte, or `u` and four hexadecimal digits for a UTF-16 code unit.  A high
surrogate must be followed at once by the escape of a low one, and the two stand for one
character; a low surrogate must not stand alone.  Characters are written as UTF-8.

A multi-byte sequence is copied whole, and the reading goes on behind it.  There is one thing that a
literal may lose: a sequence that its end cuts off is dropped without a complaint.  As only
continuation bytes count towards a sequence, whole or cut off, no escape is ever passed over with
it.

Main definitions:

* `DocCodec.Literal.simpleEscape?` — the byte that a one-letter escape stands for;
* `DocCodec.Literal.unicodeEscape?` — the character that a `\u` escape stands for;
* `DocCodec.Literal.decode?` — **the bytes of a literal**, or nothing if an escape is malformed.
-/

import DocCodec.Ascii
import DocCodec.Hex
import DocCodec.Utf8.Shape

set_option relaxedAutoImplicit false
set_option autoImplicit false

namespace DocCodec.Literal

/-! ### Escapes of one letter -/

/-- The byte that a backslash and a letter stand for. -/
def simpleEscape? (letter : UInt8) : Option UInt8 :=
  if letter = Ascii.quote ∨ letter = Ascii.backslash ∨ letter = Ascii.byte '/' then some letter
  else if letter = Ascii.byte 'b' then some 0x08
  else if letter = Ascii.byte 'f' then some 0x0C
  else if letter = Ascii.byte 'n' then some 0x0A
  else if letter = Ascii.byte 'r' then some 0x0D
  else if letter = Ascii.byte 't' then some 0x09
  else none

/-! ### Escapes of a code unit -/

/-- Whether a code unit is the first half of a surrogate pair. -/
def isHighSurrogate (unit : Nat) : Bool := decide (0xD800 ≤ unit) && decide (unit ≤ 0xDBFF)

/-- Whether a code unit is the second half of a surrogate pair. -/
def isLowSurrogate (unit : Nat) : Bool := decide (0xDC00 ≤ unit) && decide (unit ≤ 0xDFFF)

/-- The code point of a surrogate pair: ten bits from each half, above the 65536 code points that
need no pair. -/
def combineSurrogates (high low : Nat) : Nat := 0x10000 + high % 0x400 * 0x400 + low % 0x400

/-- The character of a code point, unless it is a surrogate or too large. -/
def character? (codePoint : Nat) : Option Char :=
  if codePoint.isValidChar then some (Char.ofNat codePoint) else none

/-- The code unit of four hexadecimal digits at the front, and what follows them. -/
def codeUnit? : Bytes → Option (Nat × Bytes)
  | a :: b :: c :: d :: rest => (Hex.four? a b c d).map fun unit => (unit, rest)
  | _ => none

/-- The low surrogate that completes a pair: its escape must be next. -/
def lowSurrogate? : Bytes → Option (Nat × Bytes)
  | b :: c :: rest =>
    if b = Ascii.backslash ∧ c = Ascii.byte 'u' then
      match codeUnit? rest with
      | some (unit, rest) => if isLowSurrogate unit then some (unit, rest) else none
      | none => none
    else none
  | _ => none

/-- The character of a `\u` escape, read from behind the `u`, and what follows the escape. -/
def unicodeEscape? (bytes : Bytes) : Option (Char × Bytes) :=
  match codeUnit? bytes with
  | none => none
  | some (unit, rest) =>
    if isHighSurrogate unit then
      match lowSurrogate? rest with
      | some (low, rest) => (character? (combineSurrogates unit low)).map fun c => (c, rest)
      | none => none
    else (character? unit).map fun c => (c, rest)

theorem length_of_codeUnit? {bytes rest : Bytes} {unit : Nat}
    (h : codeUnit? bytes = some (unit, rest)) : rest.length + 4 = bytes.length := by
  unfold codeUnit? at h
  split at h
  · obtain ⟨_, _, h⟩ := Option.map_eq_some_iff.1 h
    cases h
    rfl
  · cases h

theorem length_of_lowSurrogate? {bytes rest : Bytes} {unit : Nat}
    (h : lowSurrogate? bytes = some (unit, rest)) : rest.length + 6 = bytes.length := by
  unfold lowSurrogate? at h
  split at h
  · split at h
    · split at h
      · rename_i hu
        split at h
        · cases h
          have := length_of_codeUnit? hu
          simp only [List.length_cons]
          omega
        · cases h
      · cases h
    · cases h
  · cases h

/-- Reading a `\u` escape uses up its digits. -/
theorem length_lt_of_unicodeEscape? {bytes rest : Bytes} {c : Char}
    (h : unicodeEscape? bytes = some (c, rest)) : rest.length < bytes.length := by
  unfold unicodeEscape? at h
  split at h
  · cases h
  · rename_i hu
    have := length_of_codeUnit? hu
    split at h
    · split at h
      · rename_i hl
        have := length_of_lowSurrogate? hl
        obtain ⟨_, _, h⟩ := Option.map_eq_some_iff.1 h
        cases h
        omega
      · cases h
    · obtain ⟨_, _, h⟩ := Option.map_eq_some_iff.1 h
      cases h
      omega

/-! ### The whole literal -/

/-- The bytes that the rest of a literal stands for, after those in `out`. -/
def unescapeFrom (out : Array UInt8) (text : Bytes) : Option (Array UInt8) :=
  match text with
  | [] => some out
  | b :: rest =>
    if b = Ascii.backslash then
      match rest with
      | [] => none
      | letter :: rest =>
        if letter = Ascii.byte 'u' then
          match _h : unicodeEscape? rest with
          | some (c, rest) => unescapeFrom (out ++ String.utf8EncodeChar c) rest
          | none => none
        else
          match simpleEscape? letter with
          | some byte => unescapeFrom (out.push byte) rest
          | none => none
    else
      match Utf8.shape b rest with
      | .cut => some out
      | .stray => unescapeFrom (out.push b) rest
      | .whole trailing => unescapeFrom (out.push b ++ rest.take trailing) (rest.drop trailing)
termination_by text.length
decreasing_by
  · have := length_lt_of_unicodeEscape? _h
    simp only [List.length_cons]
    omega
  · simp only [List.length_cons]
    omega
  · simp only [List.length_cons]
    omega
  · simp only [List.length_drop, List.length_cons]
    omega

/-- The text of a literal without the quotation mark that opens it. -/
def withoutQuote : Bytes → Bytes
  | [] => []
  | b :: rest => if b = Ascii.quote then rest else b :: rest

/-- **The bytes of a literal**, or nothing if an escape is malformed.  One quotation mark at the
front is skipped; the raw texts of keys and strings carry it. -/
def decode? (raw : Bytes) : Option Bytes :=
  (unescapeFrom #[] (withoutQuote raw)).map Array.toList

end DocCodec.Literal
