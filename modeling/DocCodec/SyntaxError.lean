/-
**Syntax errors.**

A syntax error says what is wrong, with which byte, and at which offset from the start of the
input.  When the input ends too early there is no such byte; a space stands in for it, at the
offset of the end.

Main definitions:

* `DocCodec.Fault` — what can be wrong with a text;
* `DocCodec.SyntaxError` — a fault with its byte and its offset;
* `DocCodec.SyntaxError.message` — the wording.
-/

import DocCodec.Bytes

set_option relaxedAutoImplicit false
set_option autoImplicit false

namespace DocCodec

/-- What can be wrong with a text. -/
inductive Fault
  /-- The input ends before it begins. -/
  | emptyStream
  /-- The input ends within a value or between values. -/
  | unfinishedStream
  /-- The input ends within a key or a string. -/
  | unterminatedString
  /-- A byte that starts no value, where the root is expected. -/
  | invalidRoot
  /-- A word other than `true`, `false` and `null`. -/
  | invalidToken
  /-- A control character within a key or a string. -/
  | unescapedControlCharacter
  /-- A comma before a closing bracket. -/
  | trailingComma
  /-- More than white space after the root. -/
  | contentEnded
  /-- A square bracket that closes no array. -/
  | unopenedArray
  /-- A brace that closes no object. -/
  | unopenedObject
  /-- More open containers than are allowed. -/
  | maxDepthReached
  /-- A byte that cannot continue or end a number. -/
  | invalidNumber
  /-- A byte other than a hexadecimal digit within a `\u` escape. -/
  | invalidUnicodeEscape
  /-- A byte that makes no escape. -/
  | invalidStringEscape
  /-- A byte other than a quotation mark or a closing brace, where a key is expected. -/
  | expectedObjectKey
  /-- A byte that starts no value, after a colon. -/
  | expectedObjectValue
  /-- A byte other than a colon after a key. -/
  | expectedColon
  /-- A byte other than a comma or a closing brace after an entry. -/
  | expectedCommaOrEnd
  /-- A byte that starts no value, or continues or ends no array, within an array. -/
  | expectedArrayItem
  deriving DecidableEq, Repr

/-- The name of a fault. -/
def Fault.name : Fault → String
  | emptyStream => "EmptyStream"
  | unfinishedStream => "UnfinishedStream"
  | unterminatedString => "UnterminatedString"
  | invalidRoot => "InvalidRoot"
  | invalidToken => "InvalidToken"
  | unescapedControlCharacter => "UnescapedControlCharacter"
  | trailingComma => "TrailingComma"
  | contentEnded => "ContentEnded"
  | unopenedArray => "UnopenedArray"
  | unopenedObject => "UnopenedObject"
  | maxDepthReached => "MaxDepthReached"
  | invalidNumber => "InvalidNumber"
  | invalidUnicodeEscape => "InvalidUnicodeEscape"
  | invalidStringEscape => "InvalidStringEscape"
  | expectedObjectKey => "ExpectedObjectKey"
  | expectedObjectValue => "ExpectedObjectValue"
  | expectedColon => "ExpectedColon"
  | expectedCommaOrEnd => "ExpectedCommaOrEnd"
  | expectedArrayItem => "ExpectedArrayItem"

/-- A fault with its byte and its offset. -/
structure SyntaxError where
  fault : Fault
  byte : UInt8
  position : Nat
  deriving DecidableEq, Repr

/-- The wording of a syntax error; the byte is shown as the character of that number. -/
def SyntaxError.message (error : SyntaxError) : String :=
  s!"{error.fault.name}({Char.ofNat error.byte.toNat}) at {error.position}"

end DocCodec
