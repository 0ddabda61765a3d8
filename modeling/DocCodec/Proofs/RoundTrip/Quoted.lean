/-
**A written literal under the scanner.**

Three parts of the program cut the same bytes into pieces, each by rules of its own: the writer of
literals, the scanner, and the reader of literals.  They agree because what is written consists of
letters of the grammar whatever the bytes are: the scanner takes the letters in and stops nowhere
before the quotation mark at the end, and the reader gives back the repaired bytes.

So a literal may be written wherever the scanner is ready for one.  It is one key or one string,
and the scan goes on behind it as it would behind any other.

Main definitions:

* `DocCodec.Scanner.Phase.role?` — **what a literal would be read for** where the scan stands;
* `DocCodec.Scanner.Role.event`, `DocCodec.Scanner.Role.past` — the event of a literal and the phase
  after it.

Main results:

* `DocCodec.Utf8.repair_of_valid` — a valid byte string needs no repair;
* `DocCodec.Scanner.feed_literal` — a literal of the grammar is one event;
* `DocCodec.Scanner.written_literal_is_one_event` — **a written literal is one event, and is read
  back as the repaired bytes**.
-/

import DocCodec.Proofs.Scanner.Tree
import DocCodec.Proofs.Utf8.Valid

set_option relaxedAutoImplicit false
set_option autoImplicit false

namespace DocCodec

open Grammar (Letters)

/-- A valid byte string needs no repair. -/
theorem Utf8.repair_of_valid {bytes : Bytes} (h : Valid bytes) : repair bytes = bytes := by
  obtain ⟨text, rfl⟩ := h
  exact repair_encode text

namespace Scanner

/-! ### Where a literal may begin -/

/-- **What a literal would be read for** where the scan stands, if one may begin there. -/
def Phase.role? : Phase → Option Role
  | .start | .objectValue | .arrayItem => some .value
  | .objectKey => some .key
  | _ => none

/-- The event of a literal. -/
def Role.event : Role → Bytes → Event
  | .key, raw => .key raw
  | .value, raw => .scalar .string raw

/-- The phase after a literal, given the kinds of the open containers, innermost first. -/
def Role.past (stack : List Bracket) : Role → Phase
  | .key => .objectColon
  | .value => .afterValue stack

variable {σ ε : Type} {s : Scanner} {role : Role}

/-- A quotation mark begins a literal. -/
theorem exists_begin (hs : s.phase.role? = some role) :
    ∃ comma, s.step Ascii.quote = .accept
      (begin { s with pendingComma := comma } (.text role .plain) Ascii.quote) := by
  cases hphase : s.phase with
  | start =>
      rw [hphase] at hs
      cases hs
      exact ⟨s.pendingComma, by rw [step, hphase]; rfl⟩
  | objectValue =>
      rw [hphase] at hs
      cases hs
      exact ⟨s.pendingComma, by rw [step, hphase]; rfl⟩
  | arrayItem =>
      rw [hphase] at hs
      cases hs
      exact ⟨none, step_quote (.inl hphase)⟩
  | objectKey =>
      rw [hphase] at hs
      cases hs
      exact ⟨none, by rw [step, hphase]; rfl⟩
  | text | number | word | objectColon | objectRest | arrayRest | finished =>
      rw [hphase] at hs
      cases hs

/-- The quotation mark behind a literal completes it. -/
theorem step_closing_quote (hs : s.phase = .text role .plain) :
    s.step Ascii.quote =
      .raise (role.event s.text.toList) s (.accept (s.move (role.past s.stack))) := by
  cases role with
  | key => exact step_quote_key hs
  | value => exact step_quote_value hs

/-- **A literal of the grammar is one event** where a literal may begin, and unless the event is
refused, the scan goes on behind the literal. -/
theorem feed_literal (listen : Listener σ ε) (hs : s.phase.role? = some role) (letters : Letters)
    (state : σ) :
    ∃ after left : Scanner, after.phase = role.past s.stack ∧ after.stack = s.stack ∧
      after.room = s.room ∧ after.consumed = s.consumed + letters.quoted.length ∧
      feed listen s state letters.quoted =
        match listen state (role.event letters.raw) (s.consumed + letters.raw.length) with
        | (heard, none) => ⟨after, heard, none⟩
        | (heard, some reason) => ⟨left, heard, some (.refused reason)⟩ := by
  obtain ⟨comma, hbegin⟩ := exists_begin hs
  -- The scanner before the closing quotation mark.
  obtain ⟨filled, hfilled⟩ : ∃ t, t = (begin { s with pendingComma := comma } (.text role .plain)
    Ascii.quote).advance.take letters.bytes := ⟨_, rfl⟩
  have hphase : filled.phase = .text role .plain := by rw [hfilled]; rfl
  have hstack : filled.stack = s.stack := by rw [hfilled]; rfl
  have htext : filled.text.toList = letters.raw := by simp [hfilled, Letters.raw]
  have hconsumed : filled.consumed = s.consumed + letters.raw.length := by
    simp [hfilled, Letters.raw, begin, Nat.add_assoc, Nat.add_comm 1]
  have hquoted : letters.quoted = Ascii.quote :: (letters.bytes ++ [Ascii.quote]) := rfl
  refine ⟨(filled.move (role.past s.stack)).advance, filled, rfl, hstack, by rw [hfilled]; rfl,
    ?_, ?_⟩
  · simp [hconsumed, Letters.quoted, Nat.add_assoc]
  · rw [hquoted, feed_of_accept listen hbegin, feed_letters listen rfl, ← hfilled, feed,
      step_closing_quote hphase, htext, hconsumed, hstack, Reaction.run]
    rcases listen state (role.event letters.raw) (s.consumed + letters.raw.length) with
      ⟨heard, _ | reason⟩ <;> rfl

/-- **A written literal is one event, and is read back as the repaired bytes.**  Wherever a key or a
value may begin, the listener hears one event, a key or a string, whose raw text is the quotation
mark and what was written; unless it refuses the event, the scan has come past the literal.  Valid
bytes are read back as they are. -/
theorem written_literal_is_one_event (listen : Listener σ ε) (hs : s.phase.role? = some role)
    (state : σ) (content : Bytes) :
    (∃ after left : Scanner, after.phase = role.past s.stack ∧ after.stack = s.stack ∧
      after.room = s.room ∧ after.consumed = s.consumed + (Literal.quoted content).length ∧
      feed listen s state (Literal.quoted content) =
        match listen state (role.event (Ascii.quote :: Literal.encode content))
          (s.consumed + (Ascii.quote :: Literal.encode content).length) with
        | (heard, none) => ⟨after, heard, none⟩
        | (heard, some reason) => ⟨left, heard, some (.refused reason)⟩) ∧
    Literal.decode? (Ascii.quote :: Literal.encode content) = some (Utf8.repair content) ∧
    (Utf8.Valid content → Utf8.repair content = content) := by
  obtain ⟨letters, hletters⟩ := Literal.exists_letters content
  have hraw : letters.raw = Ascii.quote :: Literal.encode content := congrArg _ hletters
  have hquoted : letters.quoted = Literal.quoted content := by
    rw [Letters.quoted, hraw, Literal.quoted, List.cons_append]
  refine ⟨?_, ?_, Utf8.repair_of_valid⟩
  · rw [← hquoted, ← hraw]
    exact feed_literal listen hs letters state
  · have hread := Literal.unescapeFrom_encode content #[]
    change (Literal.unescapeFrom #[] (Literal.encode content)).map Array.toList = _
    rw [hread]
    simp

/-- A scanner that has come past a comma in an array. -/
def afterComma : Scanner where
  phase := .arrayItem
  consumed := 3
  stack := [.square]
  room := 7
  pendingComma := some 2
  text := #[Ascii.zero]

/-- A lead byte before a quotation mark: neither escape swallows the other. -/
theorem written_literal_is_one_event_afterComma :
    let count : Listener Nat Empty := fun heard _ _ => (heard + 1, none)
    feed count { room := 8 } 0 [Ascii.openSquare, Ascii.zero, Ascii.comma] =
        ⟨afterComma, 2, none⟩ ∧
      (∃ after, feed count afterComma 2 (Literal.quoted [0xC3, Ascii.quote]) = ⟨after, 3, none⟩ ∧
        after.phase = .arrayRest) ∧
      Literal.decode? (Ascii.quote :: Literal.encode [0xC3, Ascii.quote]) =
        some [0xEF, 0xBF, 0xBD, Ascii.quote] := by
  intro count
  have hrole : afterComma.phase.role? = some .value := rfl
  obtain ⟨⟨after, left, hphase, -, -, -, hfeed⟩, hread, -⟩ :=
    written_literal_is_one_event count hrole 2 [0xC3, Ascii.quote]
  refine ⟨rfl, ⟨after, hfeed, hphase⟩, hread.trans ?_⟩
  simp [Utf8.repair, Utf8.pieces, Utf8.shape, Utf8.sequenceLength, Utf8.isContinuation,
    Utf8.Piece.repaired, Utf8.replacementBytes, Ascii.quote]

end Scanner

end DocCodec
