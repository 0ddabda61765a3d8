/-
**Where a scan stands between two bytes.**

A text is scanned byte by byte, so all that has been read must be summed up in a state.  Its first
part is the phase: which part of the grammar the next byte belongs to.  Within a number and within
a string literal the phase is refined by the place in the token, and the legal moves between these
places are small automata of their own, given here.

Main definitions:

* `DocCodec.Scanner.NumberPlace` — a place in a number, with `next?`, `start?` and `isComplete`;
* `DocCodec.Scanner.TextPlace` — a place in a string literal;
* `DocCodec.Scanner.Word` — the words `true`, `false` and `null`;
* `DocCodec.Scanner.Phase` — **where a scan stands**.
-/

import DocCodec.Event
import DocCodec.Hex

set_option relaxedAutoImplicit false
set_option autoImplicit false

namespace DocCodec.Scanner

/-! ### Numbers -/

/-- A place in a number, named for what was read last. -/
inductive NumberPlace
  /-- The minus sign. -/
  | sign
  /-- A zero that is the whole integer part. -/
  | zero
  /-- A digit of an integer part that starts with another digit than zero. -/
  | integer
  /-- The decimal point. -/
  | point
  /-- A digit after the point. -/
  | fraction
  /-- The exponent mark. -/
  | mark
  /-- The sign of the exponent. -/
  | markSign
  /-- A digit of the exponent. -/
  | exponent
  deriving DecidableEq, Repr

namespace NumberPlace

/-- The place after the first byte of a number. -/
def start? (b : UInt8) : Option NumberPlace :=
  if b = Ascii.minus then some sign
  else if b = Ascii.zero then some zero
  else if Ascii.isDigit b then some integer
  else none

/-- The place after one more byte, if the byte continues the number. -/
def next? : NumberPlace → UInt8 → Option NumberPlace
  | sign, b =>
    if b = Ascii.zero then some zero else if Ascii.isDigit b then some integer else none
  | zero, b =>
    if Ascii.isExponentMark b then some mark else if b = Ascii.point then some point else none
  | integer, b =>
    if Ascii.isDigit b then some integer
    else if Ascii.isExponentMark b then some mark
    else if b = Ascii.point then some point
    else none
  | point, b => if Ascii.isDigit b then some fraction else none
  | fraction, b =>
    if Ascii.isDigit b then some fraction
    else if Ascii.isExponentMark b then some mark
    else none
  | mark, b =>
    if Ascii.isSign b then some markSign else if Ascii.isDigit b then some exponent else none
  | markSign, b => if Ascii.isDigit b then some exponent else none
  | exponent, b => if Ascii.isDigit b then some exponent else none

/-- Whether a number may end here. -/
def isComplete : NumberPlace → Bool
  | zero | integer | fraction | exponent => true
  | sign | point | mark | markSign => false

end NumberPlace

/-- Whether a number is an integer or has a fraction or an exponent, by its text. -/
def numberToken (text : Bytes) : Token :=
  if text.any fun b => b == Ascii.point || Ascii.isExponentMark b then .float else .integer

/-! ### Keys and strings -/

/-- What a string literal is read for. -/
inductive Role
  | key
  | value
  deriving DecidableEq, Repr

/-- A place in a string literal. -/
inductive TextPlace
  /-- Between two characters. -/
  | plain
  /-- After a backslash. -/
  | escape
  /-- In a `\u` escape with one digit to come and `more` after it. -/
  | digits (more : Nat)
  deriving DecidableEq, Repr

/-- Whether a byte, together with the backslash before it, is a complete escape. -/
def isEscapeLetter (b : UInt8) : Bool :=
  b == Ascii.quote || b == Ascii.backslash || b == Ascii.byte '/' || b == Ascii.byte 'b' ||
    b == Ascii.byte 'f' || b == Ascii.byte 'n' || b == Ascii.byte 'r' || b == Ascii.byte 't'

/-! ### Words -/

/-- The words that are scalars. -/
inductive Word
  | true
  | false
  | null
  deriving DecidableEq, Repr

namespace Word

/-- The letters of a word after the first. -/
def tail : Word → Bytes
  | true => [Ascii.byte 'r', Ascii.byte 'u', Ascii.byte 'e']
  | false => [Ascii.byte 'a', Ascii.byte 'l', Ascii.byte 's', Ascii.byte 'e']
  | null => [Ascii.byte 'u', Ascii.byte 'l', Ascii.byte 'l']

/-- The letters of a word. -/
def letters : Word → Bytes
  | true => Ascii.byte 't' :: true.tail
  | false => Ascii.byte 'f' :: false.tail
  | null => Ascii.byte 'n' :: null.tail

/-- The word that a letter starts. -/
def start? (b : UInt8) : Option Word :=
  if b = Ascii.byte 't' then some true
  else if b = Ascii.byte 'f' then some false
  else if b = Ascii.byte 'n' then some null
  else none

/-- The kind of scalar that a word is. -/
def token : Word → Token
  | true => .boolean .true
  | false => .boolean .false
  | null => .null

end Word

/-! ### Phases -/

/-- **Where a scan stands.** -/
inductive Phase
  /-- Before the root. -/
  | start
  /-- Within a key or a string. -/
  | text (role : Role) (place : TextPlace)
  /-- Within a number. -/
  | number (place : NumberPlace)
  /-- Within a word, whose letters in `owed` are still to come. -/
  | word (word : Word) (owed : Bytes)
  /-- Before a key. -/
  | objectKey
  /-- Before the colon after a key. -/
  | objectColon
  /-- Before the value of an entry. -/
  | objectValue
  /-- After an entry. -/
  | objectRest
  /-- Before an item, at the start of an array or after a comma. -/
  | arrayItem
  /-- After an item. -/
  | arrayRest
  /-- After the root. -/
  | finished
  deriving DecidableEq, Repr

/-- The phase after a complete value, given the kinds of the open containers, innermost first. -/
def Phase.afterValue : List Bracket → Phase
  | .brace :: _ => .objectRest
  | .square :: _ => .arrayRest
  | [] => .finished

/-- The phase at the start of a container. -/
def Phase.inside : Bracket → Phase
  | .brace => .objectKey
  | .square => .arrayItem

end DocCodec.Scanner
