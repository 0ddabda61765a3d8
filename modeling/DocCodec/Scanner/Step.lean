/-
**One byte of a scan.**

A byte makes the scanner do a few things in a fixed order: raise up to two events, then move on or
reject the byte.  They are described by a reaction, a piece of data, and not carried out: whoever
drives the scanner decides what it means to raise an event, and an event may be refused.  So a
reaction names, for each event, the scanner that is left behind should the event be refused.

What a byte leaves behind when it is rejected or its event is refused is part of the description,
since a scanner may be used on afterwards.  A rejected byte does not count as consumed.

Main definitions:

* `DocCodec.Scanner` — **the state of a scan**;
* `DocCodec.Scanner.Reaction` — what a byte makes the scanner do;
* `DocCodec.Scanner.step` — **the reaction to one byte**;
* `DocCodec.Scanner.finish` — the reaction to the end of the input.
-/

import DocCodec.Scanner.Phase
import DocCodec.SyntaxError

set_option relaxedAutoImplicit false
set_option autoImplicit false

namespace DocCodec

/-- **The state of a scan.** -/
structure Scanner where
  phase : Scanner.Phase := .start
  /-- How many bytes have been accepted. -/
  consumed : Nat := 0
  /-- The kinds of the open containers, innermost first. -/
  stack : List Bracket := []
  /-- How many more containers may be opened. -/
  room : Nat := nestingLimit
  /-- The offset of the last comma, as long as no entry or item has begun after it. -/
  pendingComma : Option Nat := none
  /-- The text of the key, string or number that is being read. -/
  text : Array UInt8 := #[]
  deriving DecidableEq, Repr

namespace Scanner

/-- How many containers are open. -/
def depth (s : Scanner) : Nat := s.stack.length

/-! ### Reactions -/

/-- What a byte makes the scanner do. -/
inductive Reaction
  /-- Accept the byte and go on as `after`. -/
  | accept (after : Scanner)
  /-- Reject the byte, leaving `left` behind. -/
  | reject (error : SyntaxError) (left : Scanner)
  /-- Raise an event and go on with `next`, or, if the event is refused, leave `refused` behind. -/
  | raise (event : Event) (refused : Scanner) (next : Reaction)
  deriving Repr

/-- Rejects a byte and changes nothing. -/
def fail (s : Scanner) (fault : Fault) (b : UInt8) : Reaction :=
  .reject ⟨fault, b, s.consumed⟩ s

/-- Rejects a closing bracket for the comma before it. -/
def failAtComma (s : Scanner) (position : Nat) : Reaction :=
  .reject ⟨.trailingComma, Ascii.comma, position⟩ s

/-! ### Parts of the reaction -/

/-- Goes on after a complete value. -/
def resume (s : Scanner) : Scanner := { s with phase := .afterValue s.stack }

/-- A byte of the token that is being read, which brings the scan to the given phase. -/
def extend (s : Scanner) (b : UInt8) (phase : Phase) : Reaction :=
  .accept { s with phase := phase, text := s.text.push b }

/-- A container opens, if there is room for it. -/
def enter (s : Scanner) (kind : Bracket) : Reaction :=
  match s.room with
  | 0 => s.fail .maxDepthReached kind.opening
  | room + 1 =>
    let opened := { s with stack := kind :: s.stack, room }
    .raise (.enter kind) opened (.accept { opened with phase := .inside kind })

/-- A bracket closes the innermost container, which must be of its kind. -/
def leave (s : Scanner) (kind : Bracket) : Reaction :=
  match s.stack with
  | top :: outer =>
    if top = kind then
      let closed := { s with stack := outer, room := s.room + 1 }
      .raise (.leave kind) closed (.accept closed.resume)
    else s.fail (unopened kind) kind.closing
  | [] => s.fail (unopened kind) kind.closing
where
  /-- The fault of a bracket that closes nothing. -/
  unopened : Bracket → Fault
    | .brace => .unopenedObject
    | .square => .unopenedArray

/-- A comma after a complete value. -/
def separate (s : Scanner) : Reaction :=
  let marked := { s with pendingComma := some s.consumed }
  match s.stack with
  | .brace :: _ => .accept { marked with phase := .objectKey }
  | .square :: _ => .accept { marked with phase := .arrayItem }
  | [] => marked.fail .contentEnded Ascii.comma

/-- The first byte of a value; any other byte has the given fault. -/
def beginValue (s : Scanner) (b : UInt8) (fault : Fault) : Reaction :=
  if b = Ascii.openSquare then s.enter .square
  else if b = Ascii.openBrace then s.enter .brace
  else if b = Ascii.quote then .accept { s with phase := .text .value .plain, text := #[b] }
  else
    match Word.start? b, NumberPlace.start? b with
    | some word, _ => .accept { s with phase := .word word word.tail }
    | none, some place => .accept { s with phase := .number place, text := #[b] }
    | none, none => s.fail fault b

/-! ### Phase by phase -/

/-- A byte within a number.  A byte that does not continue the number ends it, if it may end there
and the byte may follow a number. -/
def inNumber (s : Scanner) (place : NumberPlace) (b : UInt8) : Reaction :=
  match place.next? b with
  | some place => s.extend b (.number place)
  | none =>
    if place.isComplete then
      let number : Event := .scalar (numberToken s.text.toList) s.text.toList
      if b = Ascii.comma then .raise number s s.separate
      else if Ascii.isSpace b then .raise number s (.accept s.resume)
      else if b = Ascii.closeSquare then .raise number s (s.leave .square)
      else if b = Ascii.closeBrace then .raise number s (s.leave .brace)
      else s.fail .invalidNumber b
    else s.fail .invalidNumber b

/-- A byte within a key or a string. -/
def inText (s : Scanner) (role : Role) (place : TextPlace) (b : UInt8) : Reaction :=
  match place with
  | .plain =>
    if b = Ascii.quote then
      match role with
      | .key => .raise (.key s.text.toList) s (.accept { s with phase := .objectColon })
      | .value => .raise (.scalar .string s.text.toList) s (.accept s.resume)
    else if b = Ascii.backslash then s.extend b (.text role .escape)
    else if Ascii.isControl b then s.fail .unescapedControlCharacter b
    else s.extend b (.text role .plain)
  | .escape =>
    if isEscapeLetter b then s.extend b (.text role .plain)
    else if b = Ascii.byte 'u' then s.extend b (.text role (.digits 3))
    else s.fail .invalidStringEscape b
  | .digits more =>
    if Hex.isDigit b then
      match more with
      | 0 => s.extend b (.text role .plain)
      | more + 1 => s.extend b (.text role (.digits more))
    else s.fail .invalidUnicodeEscape b

/-- A byte within a word. -/
def inWord (s : Scanner) (word : Word) (owed : Bytes) (b : UInt8) : Reaction :=
  match owed with
  | [] => s.fail .invalidToken b
  | letter :: owed =>
    if b = letter then
      match owed with
      | [] => .raise (.scalar word.token word.letters) s (.accept s.resume)
      | _ :: _ => .accept { s with phase := .word word owed }
    else s.fail .invalidToken b

/-- A byte where a key is expected. -/
def beforeKey (s : Scanner) (b : UInt8) : Reaction :=
  if Ascii.isSpace b then .accept s
  else if b = Ascii.quote then
    .accept { s with phase := .text .key .plain, pendingComma := none, text := #[b] }
  else if b = Ascii.closeBrace then
    match s.pendingComma with
    | some position => s.failAtComma position
    | none => s.leave .brace
  else s.fail .expectedObjectKey b

/-- A byte where an item is expected.  A closing bracket of either kind is rejected for a comma
before it; any other byte than white space settles the comma, even one that is rejected itself. -/
def beforeItem (s : Scanner) (b : UInt8) : Reaction :=
  if Ascii.isSpace b then .accept s
  else
    match s.pendingComma with
    | some position =>
      if b = Ascii.closeSquare ∨ b = Ascii.closeBrace then s.failAtComma position
      else { s with pendingComma := none }.beginValue b .expectedArrayItem
    | none =>
      if b = Ascii.closeSquare then s.leave .square else s.beginValue b .expectedArrayItem

/-- **The reaction to one byte.** -/
def step (s : Scanner) (b : UInt8) : Reaction :=
  match s.phase with
  | .text role place => s.inText role place b
  | .number place => s.inNumber place b
  | .word word owed => s.inWord word owed b
  | .objectKey => s.beforeKey b
  | .arrayItem => s.beforeItem b
  | .start => if Ascii.isSpace b then .accept s else s.beginValue b .invalidRoot
  | .objectColon =>
    if Ascii.isSpace b then .accept s
    else if b = Ascii.colon then .accept { s with phase := .objectValue }
    else s.fail .expectedColon b
  | .objectValue => if Ascii.isSpace b then .accept s else s.beginValue b .expectedObjectValue
  | .objectRest =>
    if Ascii.isSpace b then .accept s
    else if b = Ascii.comma then s.separate
    else if b = Ascii.closeBrace then s.leave .brace
    else s.fail .expectedCommaOrEnd b
  | .arrayRest =>
    if Ascii.isSpace b then .accept s
    else if b = Ascii.comma then s.separate
    else if b = Ascii.closeSquare then s.leave .square
    else s.fail .expectedArrayItem b
  | .finished => if Ascii.isSpace b then .accept s else s.fail .contentEnded b

/-- The reaction to the end of the input.  Only here a number that is the root becomes complete. -/
def finish (s : Scanner) : Reaction :=
  match s.phase with
  | .text _ _ => s.fail .unterminatedString Ascii.space
  | phase =>
    if s.stack ≠ [] then s.fail .unfinishedStream Ascii.space
    else if s.consumed = 0 then s.fail .emptyStream Ascii.space
    else
      match phase with
      | .finished => .accept s
      | .number place =>
        if place.isComplete then
          .raise (.scalar (numberToken s.text.toList) s.text.toList) s
            (.accept { s with phase := .finished })
        else s.fail .unfinishedStream Ascii.space
      | _ => s.fail .unfinishedStream Ascii.space

end Scanner

end DocCodec
