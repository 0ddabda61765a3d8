/-
**Strict UTF-8.**

Keys are texts and are kept as strings, so their bytes have to be UTF-8 in the strict sense: no
encoded surrogates, no overlong forms, nothing above U+10FFFF.  Where they are not, the error
tells where the longest valid part ends and whether what follows is wrong or merely unfinished.

A lead byte decides which bytes may follow it.  For most leads these are the continuation bytes;
the windows after `E0`, `ED`, `F0` and `F4` are narrower, and exactly these keep out overlong
forms, surrogates and code points that do not exist.

Main definitions:

* `DocCodec.Utf8.encode` — the bytes of a text;
* `DocCodec.Utf8.Defect` — where and how a byte string fails to be UTF-8;
* `DocCodec.Utf8.decode` — **the text of a byte string**, or its first defect.

Main results:

* `DocCodec.Utf8.decode_encode`, `DocCodec.Utf8.encode_of_decode` — the two undo each other.
-/

import DocCodec.Bytes

set_option relaxedAutoImplicit false
set_option autoImplicit false

namespace DocCodec.Utf8

/-- The bytes of a text. -/
def encode (text : String) : Bytes := text.toUTF8.data.toList

/-! ### Defects -/

/-- Where and how a byte string fails to be UTF-8. -/
structure Defect where
  /-- The length of the longest valid part at the start. -/
  validUpTo : Nat
  /-- How many bytes after it are hopeless, or nothing if they are the start of a character that
  the end cuts off. -/
  length : Option Nat
  deriving DecidableEq, Repr

/-- The wording of a defect. -/
def Defect.message (defect : Defect) : String :=
  match defect.length with
  | some n => s!"invalid utf-8 sequence of {n} bytes from index {defect.validUpTo}"
  | none => s!"incomplete utf-8 byte sequence from index {defect.validUpTo}"

/-- A range of bytes. -/
structure Window where
  low : UInt8
  high : UInt8
  deriving DecidableEq, Repr

/-- Whether a byte lies in the window. -/
def Window.admits (w : Window) (b : UInt8) : Bool := decide (w.low ≤ b) && decide (b ≤ w.high)

/-- The window of all continuation bytes. -/
def continuations : Window := ⟨0x80, 0xBF⟩

/-- The windows of the bytes that complete the character a lead byte starts, or nothing for a byte
that starts none. -/
def completions? (lead : UInt8) : Option (List Window) :=
  if lead < 0x80 then some []
  else if lead < 0xC2 then none
  else if lead < 0xE0 then some [continuations]
  else if lead = 0xE0 then some [⟨0xA0, 0xBF⟩, continuations]
  else if lead = 0xED then some [⟨0x80, 0x9F⟩, continuations]
  else if lead < 0xF0 then some [continuations, continuations]
  else if lead = 0xF0 then some [⟨0x90, 0xBF⟩, continuations, continuations]
  else if lead < 0xF4 then some [continuations, continuations, continuations]
  else if lead = 0xF4 then some [⟨0x80, 0x8F⟩, continuations, continuations]
  else none

/-- The first defect from a point on where the character that starts at offset `start` has `seen` of
its bytes read and `owed` still to come. -/
def firstDefectFrom (start seen : Nat) (owed : List Window) : Bytes → Defect
  | [] =>
    match owed with
    | [] => ⟨start + seen, none⟩
    | _ :: _ => ⟨start, none⟩
  | b :: rest =>
    match owed with
    | [] =>
      match completions? b with
      | some windows => firstDefectFrom (start + seen) 1 windows rest
      | none => ⟨start + seen, some 1⟩
    | window :: windows =>
      if window.admits b then firstDefectFrom start (seen + 1) windows rest
      else ⟨start, some seen⟩

/-- The first defect of a byte string.  A valid one is merely unfinished at its end, by an empty
sequence. -/
def firstDefect (bytes : Bytes) : Defect := firstDefectFrom 0 0 [] bytes

/-! ### Reading a text -/

/-- **The text of a byte string**, or its first defect. -/
def decode (bytes : Bytes) : Except Defect String :=
  match String.fromUTF8? bytes.toByteArray with
  | some text => .ok text
  | none => .error (firstDefect bytes)

@[simp] theorem toByteArray_encode (text : String) :
    (encode text).toByteArray = text.toByteArray := by
  apply ByteArray.ext
  simp [encode, String.toUTF8]

/-- The bytes of a text are read as that text. -/
@[simp] theorem decode_encode (text : String) : decode (encode text) = .ok text := by
  simp [decode, String.fromUTF8?, text.isValidUTF8, String.fromUTF8]

/-- A text that is read has the bytes that it was read from. -/
theorem encode_of_decode {bytes : Bytes} {text : String} (h : decode bytes = .ok text) :
    encode text = bytes := by
  unfold decode String.fromUTF8? at h
  split at h
  · next found hfound =>
    cases h
    split at hfound
    · cases hfound
      simp [encode, String.toUTF8, String.fromUTF8]
    · cases hfound
  · cases h

end DocCodec.Utf8
