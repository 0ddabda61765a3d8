/-
**The text of scalars.**

Numbers, texts, truth values and null have JSON of their own.  The other types are written as
small objects whose keys start with a dollar sign.  The objects look like documents that are
written, with a space inside each brace and around each colon; only the two parts of a timestamp
have no space before the colon.

Doubles are written with six decimal places, and as null if they are infinite or no numbers.  Code
and symbols are written as strings.

Main definitions:

* `DocCodec.Encoder.member`, `DocCodec.Encoder.object` — an entry with its key, and entries in
  braces;
* `DocCodec.Encoder.scalarText` — **the text of a scalar**.
-/

import DocCodec.Base64
import DocCodec.Literal.Escape
import DocCodec.Utf8
import DocCodec.Value

set_option relaxedAutoImplicit false
set_option autoImplicit false

namespace DocCodec.Encoder

/-! ### Entries and objects -/

/-- What separates entries and items. -/
def separator : Bytes := [Ascii.comma, Ascii.space]

/-- What stands between a key and its value. -/
def keyMark : Bytes := [Ascii.space, Ascii.colon, Ascii.space]

/-- A text as a string literal. -/
def quotedText (text : String) : Bytes := Literal.quoted (Utf8.encode text)

/-- Digits of any kind in quotation marks; they need no escapes. -/
def quotedDigits (digits : Bytes) : Bytes := Ascii.quote :: (digits ++ [Ascii.quote])

/-- An entry: a key and the text of its value. -/
def member (key : String) (value : Bytes) : Bytes := quotedText key ++ keyMark ++ value

/-- Entries in braces. -/
def object (members : List Bytes) : Bytes :=
  [Ascii.openBrace, Ascii.space] ++ separator.intercalate members ++ [Ascii.space, Ascii.closeBrace]

/-! ### Scalars -/

/-- The text of a truth value. -/
def booleanText : Bool → Bytes
  | true => Utf8.encode "true"
  | false => Utf8.encode "false"

/-- The text of null. -/
def nullText : Bytes := Utf8.encode "null"

/-- The text of a double. -/
def doubleText (number : Binary64) : Bytes := if number.isFinite then number.sixPlaces else nullText

/-- The text of binary data, whose base64 digits come in blocks. -/
def binaryText (subtype : UInt8) (content : Bytes) : Bytes :=
  object [member "$type" (quotedDigits (Hex.pair subtype)),
    member "$binary" (quotedDigits (Base64.blocks content).flatten)]

/-- The text of a timestamp. -/
def timestampText (seconds ordinal : UInt32) : Bytes :=
  object [member "$timestamp" (object [part "t" seconds, part "i" ordinal])]
where
  /-- A part of a timestamp. -/
  part (name : String) (number : UInt32) : Bytes :=
    quotedText name ++ [Ascii.colon, Ascii.space] ++ Decimal.ofNat number.toNat

/-- The text of a pointer into a collection. -/
def dbPointerText (collection : String) : Option ObjectId → Bytes
  | none => object [member "$ref" (quotedText collection)]
  | some id =>
    object [member "$ref" (quotedText collection), member "$id" (quotedDigits id.toHex)]

/-- **The text of a scalar.** -/
def scalarText : Scalar → Bytes
  | .double number => doubleText number
  | .string content | .code content | .symbol content => Literal.quoted content
  | .binary subtype content => binaryText subtype content
  | .undefined => object [member "$undefined" (booleanText true)]
  | .objectId id => object [member "$oid" (quotedDigits id.toHex)]
  | .boolean truth => booleanText truth
  | .date milliseconds => object [member "$date" (Decimal.ofInt milliseconds.toInt)]
  | .null => nullText
  | .regex pattern options =>
    object [member "$regex" (quotedText pattern), member "$options" (quotedText options)]
  | .dbPointer collection id => dbPointerText collection id
  | .int32 number => Decimal.ofInt number.toInt
  | .timestamp seconds ordinal => timestampText seconds ordinal
  | .int64 number => Decimal.ofInt number.toInt
  | .minKey => object [member "$minKey" (Decimal.ofNat 1)]
  | .maxKey => object [member "$maxKey" (Decimal.ofNat 1)]

end DocCodec.Encoder
