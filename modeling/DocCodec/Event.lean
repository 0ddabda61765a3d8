/-
**Events: a JSON text as a sequence of recognised parts.**

Scanning a text raises an event when a container opens or closes and when a key or a scalar is
complete.  Keys, strings and numbers come with their raw texts: escapes are left as they are
written, and the text of a key or a string starts with its opening quotation mark and lacks the
closing one.

Main definitions:

* `DocCodec.Bracket` — the two kinds of brackets, hence of containers;
* `DocCodec.nestingLimit` — how deeply containers may nest;
* `DocCodec.Token` — the kinds of scalars that a text can hold;
* `DocCodec.Event` — **an event**.
-/

import DocCodec.Ascii
import DocCodec.Bytes

set_option relaxedAutoImplicit false
set_option autoImplicit false

namespace DocCodec

/-- The two kinds of brackets: braces around objects, square brackets around arrays. -/
inductive Bracket
  | brace
  | square
  deriving DecidableEq, Repr

namespace Bracket

/-- The opening bracket. -/
def opening : Bracket → UInt8
  | brace => Ascii.openBrace
  | square => Ascii.openSquare

/-- The closing bracket. -/
def closing : Bracket → UInt8
  | brace => Ascii.closeBrace
  | square => Ascii.closeSquare

end Bracket

/-- How many containers may be open at a time, in a text that is read and in one that is written. -/
def nestingLimit : Nat := 1024

/-- The kinds of scalars that a text can hold. -/
inductive Token
  | boolean (truth : Bool)
  | null
  /-- A number with neither fraction nor exponent. -/
  | integer
  /-- A number with a fraction or an exponent. -/
  | float
  | string
  deriving DecidableEq, Repr

/-- **An event.** -/
inductive Event
  /-- A container opens. -/
  | enter (kind : Bracket)
  /-- The innermost container closes. -/
  | leave (kind : Bracket)
  /-- The key of the next entry is complete. -/
  | key (raw : Bytes)
  /-- A scalar is complete. -/
  | scalar (token : Token) (raw : Bytes)
  deriving DecidableEq, Repr

end DocCodec
