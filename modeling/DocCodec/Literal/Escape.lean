/-
**From bytes to the text of a string literal.**

A quotation mark, a backslash and a control character are escaped; a byte that begins no UTF-8
sequence is replaced by the escape of U+FFFD; a sequence that the end cuts off is left out.  Every
other sequence stands for itself.  The output is therefore always well-formed text without a bare
quotation mark, whatever the bytes are.

The writer does not copy byte by byte.  It lets a run of bytes that need no escape grow, and
writes it out in one piece when an escape interrupts it or the end is reached.

Main definitions:

* `DocCodec.Literal.shortEscape?`, `DocCodec.Literal.controlEscape` — the escapes that are
  written;
* `DocCodec.Literal.Fragment` — a run of the source or an escape;
* `DocCodec.Literal.fragments` — **what the writer hands out**, in order;
* `DocCodec.Literal.encode` — the text of a byte string, without the quotation marks around it.
-/

import DocCodec.Ascii
import DocCodec.Hex
import DocCodec.Utf8.Shape

set_option relaxedAutoImplicit false
set_option autoImplicit false

namespace DocCodec.Literal

/-! ### The escapes that are written -/

/-- The one-letter escape of a byte that must not stand in a literal, if it has one. -/
def shortEscape? (b : UInt8) : Option Bytes :=
  if b = Ascii.quote ∨ b = Ascii.backslash then some [Ascii.backslash, b]
  else if b = 0x08 then some [Ascii.backslash, Ascii.byte 'b']
  else if b = 0x0C then some [Ascii.backslash, Ascii.byte 'f']
  else if b = 0x0A then some [Ascii.backslash, Ascii.byte 'n']
  else if b = 0x0D then some [Ascii.backslash, Ascii.byte 'r']
  else if b = 0x09 then some [Ascii.backslash, Ascii.byte 't']
  else none

/-- The escape of a byte by its number, as `\u00` and two digits, which an engine fills in. -/
def controlEscapeBy (engine : Hex.Engine) (b : UInt8) : Bytes :=
  [Ascii.backslash, Ascii.byte 'u', Ascii.zero, Ascii.zero] ++
    engine.fill [Ascii.zero, Ascii.zero] [b]

/-- The escape of a byte by its number. -/
def controlEscape (b : UInt8) : Bytes := controlEscapeBy Hex.encodeInto b

theorem controlEscape_eq (b : UInt8) :
    controlEscape b = [Ascii.backslash, Ascii.byte 'u', Ascii.zero, Ascii.zero] ++ Hex.pair b := rfl

/-- The escape of U+FFFD, which replaces a byte that begins no sequence. -/
def replacement : Bytes :=
  [Ascii.backslash, Ascii.byte 'u', Ascii.byte 'f', Ascii.byte 'f', Ascii.byte 'f', Ascii.byte 'd']

/-- The escape of a byte, or nothing if it may stand in a literal as it is. -/
def escape? (b : UInt8) : Option Bytes :=
  match shortEscape? b with
  | some text => some text
  | none => if Ascii.isControl b then some (controlEscape b) else none

/-! ### Runs and escapes -/

/-- What the writer hands out at a time. -/
inductive Fragment
  /-- The bytes of the source from offset `start` up to, not including, offset `stop`. -/
  | run (start stop : Nat)
  /-- An escape. -/
  | escape (text : Bytes)
  deriving DecidableEq, Repr

/-- The bytes of a fragment. -/
def Fragment.bytes (source : Array UInt8) : Fragment → Bytes
  | .run start stop => (source.extract start stop).toList
  | .escape text => text

/-- The fragments after those in `written`, where the bytes from offset `pos` on are still to be
read and the run that is not yet written begins at offset `start`. -/
def fragmentsFrom (written : Array Fragment) (start pos : Nat) (bytes : Bytes) : Array Fragment :=
  match bytes with
  | [] => written.push (.run start pos)
  | b :: rest =>
    match Utf8.shape b rest with
    | .cut => written.push (.run start pos)
    | .stray =>
      fragmentsFrom ((written.push (.run start pos)).push (.escape replacement))
        (pos + 1) (pos + 1) rest
    | .whole trailing =>
      match escape? b with
      | some text =>
        fragmentsFrom ((written.push (.run start pos)).push (.escape text)) (pos + 1) (pos + 1) rest
      | none => fragmentsFrom written start (pos + 1 + trailing) (rest.drop trailing)
termination_by bytes.length
decreasing_by all_goals simp only [List.length_drop, List.length_cons]; omega

/-- **What the writer hands out** for a byte string, in order. -/
def fragments (bytes : Bytes) : Array Fragment := fragmentsFrom #[] 0 0 bytes

/-- The text of a byte string, without the quotation marks around it. -/
def encode (bytes : Bytes) : Bytes :=
  let source := bytes.toArray
  (fragments bytes).toList.flatMap (Fragment.bytes source)

/-- The text of a byte string with the quotation marks around it. -/
def quoted (bytes : Bytes) : Bytes := Ascii.quote :: (encode bytes ++ [Ascii.quote])

end DocCodec.Literal
