/-
**Bytes and the ASCII characters that structure a JSON text.**

The codec reads and writes byte strings, and everything that gives them structure is ASCII:
brackets, quotes, digits, the letters of the literals, four kinds of white space.  Bytes from 128
on only ever occur inside string literals.  This module names the bytes the rest of the library
compares with and the few classes of bytes it distinguishes.

Main definitions:

* `DocCodec.Ascii.quote`, `DocCodec.Ascii.backslash`, … — the structuring bytes by name;
* `DocCodec.Ascii.isSpace`, `DocCodec.Ascii.isDigit`, `DocCodec.Ascii.isControl` — classes of
  bytes.
-/

set_option relaxedAutoImplicit false
set_option autoImplicit false

namespace DocCodec.Ascii

/-! ### Bytes by name -/

/-- The byte of an ASCII character. -/
abbrev byte (c : Char) : UInt8 := c.toUInt8

/-- The quotation mark around keys and strings. -/
abbrev quote : UInt8 := 0x22

/-- The character that starts an escape. -/
abbrev backslash : UInt8 := 0x5C

/-- The separator between entries. -/
abbrev comma : UInt8 := 0x2C

/-- The separator between a key and its value. -/
abbrev colon : UInt8 := 0x3A

/-- The opening bracket of an array. -/
abbrev openSquare : UInt8 := 0x5B

/-- The closing bracket of an array. -/
abbrev closeSquare : UInt8 := 0x5D

/-- The opening bracket of an object. -/
abbrev openBrace : UInt8 := 0x7B

/-- The closing bracket of an object. -/
abbrev closeBrace : UInt8 := 0x7D

/-- The space. -/
abbrev space : UInt8 := 0x20

/-- The line feed. -/
abbrev newline : UInt8 := 0x0A

/-- The plus sign. -/
abbrev plus : UInt8 := 0x2B

/-- The minus sign. -/
abbrev minus : UInt8 := 0x2D

/-- The decimal point. -/
abbrev point : UInt8 := 0x2E

/-- The digit zero. -/
abbrev zero : UInt8 := 0x30

/-- The digit nine. -/
abbrev nine : UInt8 := 0x39

/-! ### Classes of bytes -/

/-- White space of JSON: space, tab, line feed, carriage return. -/
def isSpace (b : UInt8) : Bool := b == 0x20 || b == 0x09 || b == 0x0A || b == 0x0D

/-- A decimal digit. -/
def isDigit (b : UInt8) : Bool := decide (zero ≤ b) && decide (b ≤ nine)

/-- A control character, which a string literal may only hold escaped. -/
def isControl (b : UInt8) : Bool := decide (b < 0x20)

/-- The letter `e` in either case, which marks an exponent. -/
def isExponentMark (b : UInt8) : Bool := b == byte 'e' || b == byte 'E'

/-- A sign. -/
def isSign (b : UInt8) : Bool := b == plus || b == minus

/-- The lower-case form of an ASCII letter; every other byte is left alone. -/
def toLower (b : UInt8) : UInt8 := if byte 'A' ≤ b ∧ b ≤ byte 'Z' then b + 0x20 else b

end DocCodec.Ascii
