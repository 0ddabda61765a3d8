/-
**The grammar of JSON as trees that are written.**

A JSON text is given here by its syntax tree: every token with its bytes, every container with
its items, and the white space between them.  A tree carries the proofs that its tokens are
well-formed, so that every tree stands for a text, and the language of JSON is the set of the texts
of all trees.  The grammar is read bytewise: within a string literal any byte from 0x20 on may
stand, whether or not the bytes are UTF-8.

Beside its text a tree has a trace: the events of the tree in preorder, each with the offset of
the byte that completes it.

Main definitions:

* `DocCodec.Grammar.Spaces`, `DocCodec.Grammar.Number`, `DocCodec.Grammar.Letter` — white space,
  numbers and the letters of string literals;
* `DocCodec.Grammar.Node` — **a JSON value as it is written**, with `Items` and `Members` for what
  stands between brackets;
* `DocCodec.Grammar.Text` — a JSON value with white space around it;
* `bytes`, `depth` and `trace` of each of these — the text, how many containers are open at a time,
  and the events.
-/

import DocCodec.Scanner.Phase

set_option relaxedAutoImplicit false
set_option autoImplicit false

namespace DocCodec.Grammar

/-! ### White space -/

/-- White space, as much as one likes. -/
structure Spaces where
  bytes : Bytes
  isSpace_of_mem : ∀ b ∈ bytes, Ascii.isSpace b = true

namespace Spaces

/-- No white space at all. -/
def none : Spaces := ⟨[], by simp⟩

/-- A single space. -/
def one : Spaces := ⟨[Ascii.space], by simp [Ascii.isSpace]⟩

@[simp] theorem bytes_none : none.bytes = [] := rfl

@[simp] theorem bytes_one : one.bytes = [Ascii.space] := rfl

end Spaces

/-! ### Numbers -/

/-- Digits, one at least. -/
def IsDigits (digits : Bytes) : Prop := digits ≠ [] ∧ ∀ b ∈ digits, Ascii.isDigit b = true

/-- The integer part of a number: a zero, or digits that do not start with one. -/
def IsWhole (digits : Bytes) : Prop :=
  digits = [Ascii.zero] ∨
    ∃ lead rest, digits = lead :: rest ∧ Ascii.isDigit lead = true ∧ lead ≠ Ascii.zero ∧
      ∀ b ∈ rest, Ascii.isDigit b = true

/-- The exponent of a number: `e` in either case, an optional sign and digits. -/
structure Exponent where
  mark : UInt8
  sign : Option UInt8
  digits : Bytes
  isExponentMark_mark : Ascii.isExponentMark mark = true
  isSign_of_mem : ∀ b ∈ sign, Ascii.isSign b = true
  isDigits_digits : IsDigits digits

/-- The text of an exponent. -/
def Exponent.bytes (exponent : Exponent) : Bytes :=
  exponent.mark :: (exponent.sign.toList ++ exponent.digits)

/-- A number: an optional minus sign, an integer part, and optionally digits after a point and an
exponent. -/
structure Number where
  negative : Bool
  whole : Bytes
  /-- The digits after the point, if there is one. -/
  places : Option Bytes
  exponent : Option Exponent
  isWhole_whole : IsWhole whole
  isDigits_of_mem : ∀ digits ∈ places, IsDigits digits

namespace Number

/-- The text of the digits after the point, with the point. -/
def pointed (n : Number) : Bytes := n.places.elim [] (Ascii.point :: ·)

/-- The text of the exponent. -/
def scaled (n : Number) : Bytes := n.exponent.elim [] Exponent.bytes

/-- The text of a number without its sign. -/
def unsigned (n : Number) : Bytes := n.whole ++ (n.pointed ++ n.scaled)

/-- The text of a number. -/
def bytes (n : Number) : Bytes := (if n.negative then [Ascii.minus] else []) ++ n.unsigned

/-- The kind of a number: a float if a point or an exponent mark occurs in its text. -/
def token (n : Number) : Token :=
  if Ascii.point ∈ n.bytes ∨ Ascii.byte 'e' ∈ n.bytes ∨ Ascii.byte 'E' ∈ n.bytes then .float
  else .integer

end Number

/-! ### String literals -/

/-- A letter of a string literal. -/
inductive Letter
  /-- Any byte but a control character, a quotation mark or a backslash. -/
  | plain (byte : UInt8) (ok : 0x20 ≤ byte ∧ byte ≠ Ascii.quote ∧ byte ≠ Ascii.backslash)
  /-- A backslash and a letter that makes an escape with it. -/
  | escape (letter : UInt8) (ok : letter ∈ [Ascii.quote, Ascii.backslash, Ascii.byte '/',
      Ascii.byte 'b', Ascii.byte 'f', Ascii.byte 'n', Ascii.byte 'r', Ascii.byte 't'])
  /-- A `\u` escape with its four hexadecimal digits. -/
  | unit (a b c d : UInt8) (ok : ∀ digit ∈ [a, b, c, d], Hex.isDigit digit = true)

/-- The text of a letter. -/
def Letter.bytes : Letter → Bytes
  | plain byte _ => [byte]
  | escape letter _ => [Ascii.backslash, letter]
  | unit a b c d _ => [Ascii.backslash, Ascii.byte 'u', a, b, c, d]

/-- The letters of a string literal. -/
abbrev Letters := List Letter

namespace Letters

/-- The text of a string literal between its quotation marks. -/
def bytes (letters : Letters) : Bytes := letters.flatMap Letter.bytes

/-- The text of a string literal with the quotation mark that opens it only. -/
def raw (letters : Letters) : Bytes := Ascii.quote :: letters.bytes

/-- The text of a string literal. -/
def quoted (letters : Letters) : Bytes := letters.raw ++ [Ascii.quote]

@[simp] theorem bytes_nil : bytes [] = [] := rfl

@[simp] theorem bytes_cons (letter : Letter) (letters : Letters) :
    bytes (letter :: letters) = letter.bytes ++ bytes letters := List.flatMap_cons ..

@[simp] theorem length_raw (letters : Letters) : letters.raw.length = letters.bytes.length + 1 :=
  rfl

@[simp] theorem length_quoted (letters : Letters) :
    letters.quoted.length = letters.bytes.length + 2 := by simp [quoted]

end Letters

/-! ### Values -/

mutual

/-- **A JSON value as it is written.** -/
inductive Node
  | word (word : Scanner.Word)
  | number (number : Number)
  | string (letters : Letters)
  /-- Two brackets with nothing but white space between them. -/
  | empty (kind : Bracket) (gap : Spaces)
  | array (items : Items)
  | object (members : Members)

/-- What stands between the brackets of an array that holds something. -/
inductive Items
  | last (before : Spaces) (value : Node) (after : Spaces)
  | more (before : Spaces) (value : Node) (after : Spaces) (rest : Items)

/-- What stands between the braces of an object that holds something. -/
inductive Members
  | last (before : Spaces) (key : Letters) (gap lead : Spaces) (value : Node) (after : Spaces)
  | more (before : Spaces) (key : Letters) (gap lead : Spaces) (value : Node) (after : Spaces)
      (rest : Members)

end

/-- **A JSON text**: a value with white space around it. -/
structure Text where
  before : Spaces
  root : Node
  after : Spaces

/-! ### Texts of trees -/

/-- The text of a key up to its value. -/
def keyBytes (before : Spaces) (key : Letters) (gap lead : Spaces) : Bytes :=
  before.bytes ++ (key.quoted ++ (gap.bytes ++ (Ascii.colon :: lead.bytes)))

mutual

/-- The text of a value. -/
def Node.bytes : Node → Bytes
  | .word word => word.letters
  | .number number => number.bytes
  | .string letters => letters.quoted
  | .empty kind gap => kind.opening :: (gap.bytes ++ [kind.closing])
  | .array items => Ascii.openSquare :: (items.bytes ++ [Ascii.closeSquare])
  | .object members => Ascii.openBrace :: (members.bytes ++ [Ascii.closeBrace])

/-- The text of the items of an array. -/
def Items.bytes : Items → Bytes
  | .last before value after => before.bytes ++ (value.bytes ++ after.bytes)
  | .more before value after rest =>
    before.bytes ++ (value.bytes ++ (after.bytes ++ (Ascii.comma :: rest.bytes)))

/-- The text of the members of an object. -/
def Members.bytes : Members → Bytes
  | .last before key gap lead value after =>
    keyBytes before key gap lead ++ (value.bytes ++ after.bytes)
  | .more before key gap lead value after rest =>
    keyBytes before key gap lead ++ (value.bytes ++ (after.bytes ++ (Ascii.comma :: rest.bytes)))

end

/-- The text of a tree. -/
def Text.bytes (t : Text) : Bytes := t.before.bytes ++ (t.root.bytes ++ t.after.bytes)

/-! ### Nesting -/

mutual

/-- How many containers of a value are open at a time. -/
def Node.depth : Node → Nat
  | .word _ | .number _ | .string _ => 0
  | .empty _ _ => 1
  | .array items => items.depth + 1
  | .object members => members.depth + 1

/-- How many containers within an array are open at a time. -/
def Items.depth : Items → Nat
  | .last _ value _ => value.depth
  | .more _ value _ rest => max value.depth rest.depth

/-- How many containers within an object are open at a time. -/
def Members.depth : Members → Nat
  | .last _ _ _ _ value _ => value.depth
  | .more _ _ _ _ value _ rest => max value.depth rest.depth

end

/-- How many containers of a text are open at a time. -/
def Text.depth (t : Text) : Nat := t.root.depth

/-! ### Traces -/

/-- Events, each with the offset of the byte that completes it. -/
abbrev Trace := List (Event × Nat)

mutual

/-- The events of a value that begins at offset `start`, in preorder.  A word is complete with its
last letter, a literal with its closing quotation mark, and a number with the byte after it. -/
def Node.trace (start : Nat) : Node → Trace
  | .word word => [(.scalar word.token word.letters, start + word.tail.length)]
  | .number number => [(.scalar number.token number.bytes, start + number.bytes.length)]
  | .string letters => [(.scalar .string letters.raw, start + letters.raw.length)]
  | .empty kind gap => [(.enter kind, start), (.leave kind, start + 1 + gap.bytes.length)]
  | .array items =>
    (.enter .square, start) ::
      (items.trace (start + 1) ++ [(.leave .square, start + 1 + items.bytes.length)])
  | .object members =>
    (.enter .brace, start) ::
      (members.trace (start + 1) ++ [(.leave .brace, start + 1 + members.bytes.length)])

/-- The events of the items of an array. -/
def Items.trace (start : Nat) : Items → Trace
  | .last before value _ => value.trace (start + before.bytes.length)
  | .more before value after rest =>
    value.trace (start + before.bytes.length) ++
      rest.trace (start + before.bytes.length + value.bytes.length + after.bytes.length + 1)

/-- The events of the members of an object. -/
def Members.trace (start : Nat) : Members → Trace
  | .last before key gap lead value _ =>
    (.key key.raw, start + before.bytes.length + key.raw.length) ::
      value.trace (start + (keyBytes before key gap lead).length)
  | .more before key gap lead value after rest =>
    (.key key.raw, start + before.bytes.length + key.raw.length) ::
      (value.trace (start + (keyBytes before key gap lead).length) ++
        rest.trace (start + (keyBytes before key gap lead).length + value.bytes.length +
          after.bytes.length + 1))

end

/-- The events of a text, in preorder. -/
def Text.trace (t : Text) : Trace := t.root.trace t.before.bytes.length

end DocCodec.Grammar
