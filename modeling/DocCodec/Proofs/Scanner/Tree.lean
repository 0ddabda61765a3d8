/-
**Syntax trees under the scanner.**

Where a value is expected, the verdict on the text of a tree is the script of the tree, carried
out with the listener, and then the verdict on what follows.  The script is the trace of the tree
as long as there is room for its containers; where there is none it has a fault.  What the scanner
remembers of the tree afterwards is how long its text was and some left-over text of a token.

Main definitions:

* `DocCodec.Grammar.Node.script` — **the script of a tree**, for a given room;
* `DocCodec.Scanner.ExpectsValue` — where the scanner expects a value;
* `DocCodec.Scanner.past` — the scanner after a value.

Main results:

* `DocCodec.Scanner.verdict_node` — **a tree under the scanner**;
* `DocCodec.Grammar.Node.script_eq_trace` — with enough room the script is the trace;
* `DocCodec.Grammar.Node.depth_le_of_isEvent` — a script without faults has enough room.
-/

import DocCodec.Proofs.Scanner.Token

set_option relaxedAutoImplicit false
set_option autoImplicit false

namespace DocCodec

open Scanner (Cue perform Listener)

/-! ### Scripts of trees -/

namespace Grammar

/-- The cue of a container that opens, for which there must be room. -/
def enterCue (room : Nat) (kind : Bracket) (start : Nat) : Cue :=
  match room with
  | 0 => .fault ⟨.maxDepthReached, kind.opening, start⟩
  | _ + 1 => .event (.enter kind) start

mutual

/-- **The script of a value** that begins at offset `start`, where `room` more containers may be
opened. -/
def Node.script (room start : Nat) : Node → List Cue
  | .word word => [.event (.scalar word.token word.letters) (start + word.tail.length)]
  | .number number => [.event (.scalar number.token number.bytes) (start + number.bytes.length)]
  | .string letters => [.event (.scalar .string letters.raw) (start + letters.raw.length)]
  | .empty kind gap =>
    [enterCue room kind start, .event (.leave kind) (start + 1 + gap.bytes.length)]
  | .array items =>
    enterCue room .square start ::
      (items.script (room - 1) (start + 1) ++
        [.event (.leave .square) (start + 1 + items.bytes.length)])
  | .object members =>
    enterCue room .brace start ::
      (members.script (room - 1) (start + 1) ++
        [.event (.leave .brace) (start + 1 + members.bytes.length)])

/-- The script of the items of an array. -/
def Items.script (room start : Nat) : Items → List Cue
  | .last before value _ => value.script room (start + before.bytes.length)
  | .more before value after rest =>
    value.script room (start + before.bytes.length) ++
      rest.script room
        (start + before.bytes.length + value.bytes.length + after.bytes.length + 1)

/-- The script of the members of an object. -/
def Members.script (room start : Nat) : Members → List Cue
  | .last before key gap lead value _ =>
    .event (.key key.raw) (start + before.bytes.length + key.raw.length) ::
      value.script room (start + (keyBytes before key gap lead).length)
  | .more before key gap lead value after rest =>
    .event (.key key.raw) (start + before.bytes.length + key.raw.length) ::
      (value.script room (start + (keyBytes before key gap lead).length) ++
        rest.script room (start + (keyBytes before key gap lead).length + value.bytes.length +
          after.bytes.length + 1))

end

/-- The cue of an event with its offset. -/
def cueOf (p : Event × Nat) : Cue := .event p.1 p.2

theorem enterCue_of_le {room depth : Nat} (h : depth + 1 ≤ room) (kind : Bracket) (start : Nat) :
    enterCue room kind start = cueOf (.enter kind, start) ∧ depth ≤ room - 1 := by
  obtain ⟨room, rfl⟩ : ∃ r, room = r + 1 := ⟨room - 1, by omega⟩
  exact ⟨rfl, by omega⟩

mutual

/-- **With enough room the script of a value is its trace.** -/
theorem Node.script_eq_trace (n : Node) {room : Nat} (h : n.depth ≤ room) (start : Nat) :
    n.script room start = (n.trace start).map cueOf := by
  cases n with
  | word word => rfl
  | number number => rfl
  | string letters => rfl
  | empty kind gap =>
      obtain ⟨hcue, -⟩ := enterCue_of_le h kind start
      simp [Node.script, Node.trace, hcue, cueOf]
  | array items =>
      obtain ⟨hcue, hdepth⟩ := enterCue_of_le h .square start
      simp [Node.script, Node.trace, hcue, items.script_eq_trace hdepth, cueOf]
  | object members =>
      obtain ⟨hcue, hdepth⟩ := enterCue_of_le h .brace start
      simp [Node.script, Node.trace, hcue, members.script_eq_trace hdepth, cueOf]

theorem Items.script_eq_trace (items : Items) {room : Nat} (h : items.depth ≤ room) (start : Nat) :
    items.script room start = (items.trace start).map cueOf := by
  cases items with
  | last before value after =>
      rw [Items.script, Items.trace, value.script_eq_trace h]
  | more before value after rest =>
      obtain ⟨hvalue, hrest⟩ := Nat.max_le.1 h
      rw [Items.script, Items.trace, value.script_eq_trace hvalue, rest.script_eq_trace hrest,
        List.map_append]

theorem Members.script_eq_trace (members : Members) {room : Nat} (h : members.depth ≤ room)
    (start : Nat) : members.script room start = (members.trace start).map cueOf := by
  cases members with
  | last before key gap lead value after =>
      rw [Members.script, Members.trace, value.script_eq_trace h]
      rfl
  | more before key gap lead value after rest =>
      obtain ⟨hvalue, hrest⟩ := Nat.max_le.1 h
      rw [Members.script, Members.trace, value.script_eq_trace hvalue, rest.script_eq_trace hrest,
        List.map_cons, List.map_append]
      rfl

end

theorem lt_of_isEvent_enterCue {room : Nat} {kind : Bracket} {start : Nat}
    (h : (enterCue room kind start).isEvent = true) : 0 < room := by
  cases room with
  | zero => cases h
  | succ room => exact Nat.succ_pos room

mutual

/-- A value whose script has no fault has enough room. -/
theorem Node.depth_le_of_isEvent (n : Node) {room start : Nat}
    (h : ∀ c ∈ n.script room start, c.isEvent = true) : n.depth ≤ room := by
  cases n with
  | word word => exact Nat.zero_le room
  | number number => exact Nat.zero_le room
  | string letters => exact Nat.zero_le room
  | empty kind gap =>
      exact lt_of_isEvent_enterCue (h (enterCue room kind start) (by simp [Node.script]))
  | array items =>
      have hroom := lt_of_isEvent_enterCue (h (enterCue room .square start) (by simp [Node.script]))
      have hitems : ∀ c ∈ items.script (room - 1) (start + 1), c.isEvent = true :=
        fun c hc => h c (by simp [Node.script, hc])
      have hdepth := items.depth_le_of_isEvent hitems
      simp only [Node.depth]
      omega
  | object members =>
      have hroom := lt_of_isEvent_enterCue (h (enterCue room .brace start) (by simp [Node.script]))
      have hmembers : ∀ c ∈ members.script (room - 1) (start + 1), c.isEvent = true :=
        fun c hc => h c (by simp [Node.script, hc])
      have hdepth := members.depth_le_of_isEvent hmembers
      simp only [Node.depth]
      omega

theorem Items.depth_le_of_isEvent (items : Items) {room start : Nat}
    (h : ∀ c ∈ items.script room start, c.isEvent = true) : items.depth ≤ room := by
  cases items with
  | last before value after => exact value.depth_le_of_isEvent h
  | more before value after rest =>
      simp only [Items.script, List.mem_append] at h
      exact Nat.max_le.2 ⟨value.depth_le_of_isEvent fun c hc => h c (.inl hc),
        rest.depth_le_of_isEvent fun c hc => h c (.inr hc)⟩

theorem Members.depth_le_of_isEvent (members : Members) {room start : Nat}
    (h : ∀ c ∈ members.script room start, c.isEvent = true) : members.depth ≤ room := by
  cases members with
  | last before key gap lead value after =>
      simp only [Members.script, List.mem_cons] at h
      exact value.depth_le_of_isEvent fun c hc => h c (.inr hc)
  | more before key gap lead value after rest =>
      simp only [Members.script, List.mem_cons, List.mem_append] at h
      exact Nat.max_le.2 ⟨value.depth_le_of_isEvent fun c hc => h c (.inr (.inl hc)),
        rest.depth_le_of_isEvent fun c hc => h c (.inr (.inr hc))⟩

end

/-- What may follow a value: only a number is particular about it. -/
def Node.Ends (stack : List Bracket) (rest : Bytes) : Node → Prop
  | .number _ => Scanner.EndsNumber stack rest
  | _ => True

theorem Node.ends_of_endsNumber {stack : List Bracket} {rest : Bytes}
    (h : Scanner.EndsNumber stack rest) (n : Node) : n.Ends stack rest := by
  cases n <;> first | exact h | trivial

end Grammar

namespace Scanner

open Grammar (Letters Node Items Members Spaces)

variable {σ ε : Type}

/-! ### Where a value is expected -/

/-- Where the scanner expects a value.  A comma may only be pending before an item. -/
def ExpectsValue (s : Scanner) : Prop :=
  s.phase = .arrayItem ∨ (s.phase = .start ∨ s.phase = .objectValue) ∧ s.pendingComma = none

/-- A scanner without a pending comma. -/
def settle (s : Scanner) : Scanner := { s with pendingComma := none }

/-- A scanner that has begun to take in a token. -/
def begin (s : Scanner) (phase : Phase) (b : UInt8) : Scanner := { s with phase, text := #[b] }

/-- A scanner that has come past a value of the given length, with some text left over. -/
def past (s : Scanner) (length : Nat) (left : Array UInt8) : Scanner where
  phase := .afterValue s.stack
  consumed := s.consumed + length
  stack := s.stack
  room := s.room
  pendingComma := none
  text := left

theorem eq_past {s after : Scanner} {length : Nat} {left : Array UInt8}
    (hphase : after.phase = .afterValue s.stack) (hconsumed : after.consumed = s.consumed + length)
    (hstack : after.stack = s.stack) (hroom : after.room = s.room)
    (hcomma : after.pendingComma = none) (htext : after.text = left) :
    after = s.past length left := by
  cases after
  simp_all [past]

section

variable (s : Scanner) (phase : Phase) (b : UInt8)

@[simp] theorem room_settle : s.settle.room = s.room := rfl

@[simp] theorem consumed_settle : s.settle.consumed = s.consumed := rfl

@[simp] theorem phase_begin : (s.begin phase b).phase = phase := rfl

@[simp] theorem consumed_begin : (s.begin phase b).consumed = s.consumed := rfl

@[simp] theorem text_begin : (s.begin phase b).text = #[b] := rfl

@[simp] theorem phase_advance : s.advance.phase = s.phase := rfl

@[simp] theorem text_advance : s.advance.text = s.text := rfl

end

theorem settle_of_pendingComma {s : Scanner} (h : s.pendingComma = none) : s.settle = s := by
  unfold settle
  rw [← h]

/-- Where a value is expected, a byte other than white space and closing brackets begins one. -/
theorem step_value {s : Scanner} (hs : s.ExpectsValue) (b : UInt8) (hb : Ascii.isSpace b = false)
    (hclose : b ≠ Ascii.closeSquare ∧ b ≠ Ascii.closeBrace) :
    ∃ fault, s.step b = s.settle.beginValue b fault := by
  rcases hs with hs | ⟨hs | hs, hcomma⟩
  · refine ⟨.expectedArrayItem, ?_⟩
    rw [step, hs]
    cases hpending : s.pendingComma with
    | none =>
        simp [beforeItem, hb, hpending, hclose, settle_of_pendingComma hpending]
    | some position =>
        simp [beforeItem, hb, hpending, hclose, settle]
  · refine ⟨.invalidRoot, ?_⟩
    rw [step, hs]
    simp [hb, settle_of_pendingComma hcomma]
  · refine ⟨.expectedObjectValue, ?_⟩
    rw [step, hs]
    simp [hb, settle_of_pendingComma hcomma]

theorem step_opening {s : Scanner} (hs : s.ExpectsValue) (kind : Bracket) :
    s.step kind.opening = s.settle.enter kind := by
  obtain ⟨fault, h⟩ := step_value hs kind.opening (by cases kind <;> rfl) (by cases kind <;> decide)
  rw [h]
  cases kind <;> rfl

theorem step_quote {s : Scanner} (hs : s.ExpectsValue) :
    s.step Ascii.quote = .accept (s.settle.begin (.text .value .plain) Ascii.quote) := by
  obtain ⟨fault, h⟩ := step_value hs Ascii.quote (by rfl) (by decide)
  exact h

theorem step_word_start {s : Scanner} (hs : s.ExpectsValue) (word : Word) :
    ∃ letter, word.letters = letter :: word.tail ∧
      s.step letter = .accept (s.settle.move (.word word word.tail)) := by
  cases word with
  | true =>
      obtain ⟨fault, h⟩ := step_value hs (Ascii.byte 't') (by rfl) (by decide)
      exact ⟨_, rfl, h⟩
  | false =>
      obtain ⟨fault, h⟩ := step_value hs (Ascii.byte 'f') (by rfl) (by decide)
      exact ⟨_, rfl, h⟩
  | null =>
      obtain ⟨fault, h⟩ := step_value hs (Ascii.byte 'n') (by rfl) (by decide)
      exact ⟨_, rfl, h⟩

/-- A byte that starts a number starts nothing else. -/
theorem start?_class {b : UInt8} {p : NumberPlace} (h : NumberPlace.start? b = some p) :
    Ascii.isSpace b = false ∧ (b ≠ Ascii.closeSquare ∧ b ≠ Ascii.closeBrace) ∧
      b ≠ Ascii.openSquare ∧ b ≠ Ascii.openBrace ∧ b ≠ Ascii.quote ∧ Word.start? b = none := by
  have hb : b = Ascii.minus ∨ Ascii.isDigit b = true := by
    by_cases hminus : b = Ascii.minus
    · exact .inl hminus
    · by_cases hzero : b = Ascii.zero
      · exact .inr (by rw [hzero]; rfl)
      · by_cases hdigit : Ascii.isDigit b = true
        · exact .inr hdigit
        · simp [NumberPlace.start?, hminus, hzero, hdigit] at h
  rcases hb with rfl | hdigit
  · decide
  · have hne (c : UInt8) (hc : Ascii.isDigit c = false) : b ≠ c := by
      rintro rfl
      rw [hdigit] at hc
      cases hc
    have hspace : Ascii.isSpace b = false := by
      simp [Ascii.isSpace, hne 0x20 rfl, hne 0x09 rfl, hne 0x0A rfl, hne 0x0D rfl]
    have hword : Word.start? b = none := by
      simp [Word.start?, hne (Ascii.byte 't') rfl, hne (Ascii.byte 'f') rfl,
        hne (Ascii.byte 'n') rfl]
    exact ⟨hspace, ⟨hne _ rfl, hne _ rfl⟩, hne _ rfl, hne _ rfl, hne _ rfl, hword⟩

theorem step_number_start {s : Scanner} (hs : s.ExpectsValue) {b : UInt8} {p : NumberPlace}
    (hp : NumberPlace.start? b = some p) :
    s.step b = .accept (s.settle.begin (.number p) b) := by
  obtain ⟨hspace, hclose, hsquare, hbrace, hquote, hword⟩ := start?_class hp
  obtain ⟨fault, h⟩ := step_value hs b hspace hclose
  rw [h, beginValue, if_neg hsquare, if_neg hbrace, if_neg hquote, hword, hp]
  rfl

/-! ### Scalars -/

section

variable (listen : Listener σ ε) {s : Scanner}

/-- A word where a value is expected. -/
theorem verdict_word_node (hs : s.ExpectsValue) (word : Word) (state : σ) (rest : Bytes) :
    verdict listen s state (word.letters ++ rest) =
      hear listen state (.scalar word.token word.letters) (s.consumed + word.tail.length) >>=
        fun state => verdict listen (s.past word.letters.length s.text) state rest := by
  obtain ⟨letter, hletters, hstep⟩ := step_word_start hs word
  obtain ⟨next, more, htail⟩ : ∃ next more, word.tail = next :: more := by
    cases word <;> exact ⟨_, _, rfl⟩
  have hbytes : word.letters ++ rest = letter :: (next :: more ++ rest) := by
    rw [hletters, htail]
    rfl
  have hlength : word.letters.length = more.length + 2 := by rw [hletters, htail]; rfl
  have hafter : ((s.settle.move (.word word (next :: more))).advance.skip
      (more.length + 1)).resume = s.past (more.length + 2) s.text :=
    eq_past rfl (by simp [resume_eq_move]; omega) rfl rfl rfl rfl
  rw [hbytes, verdict_of_accept listen hstep, htail]
  refine (verdict_word listen rfl state rest).trans ?_
  rw [hafter, hlength]
  simp [Nat.add_assoc, Nat.add_comm 1]

/-- A number where a value is expected. -/
theorem verdict_number_node (hs : s.ExpectsValue) (n : Grammar.Number) {rest : Bytes}
    (hrest : EndsNumber s.stack rest) (state : σ) :
    verdict listen s state (n.bytes ++ rest) =
      hear listen state (.scalar n.token n.bytes) (s.consumed + n.bytes.length) >>=
        fun state => verdict listen (s.past n.bytes.length n.bytes.toArray) state rest := by
  obtain ⟨b, text, p, hbytes, hp, htext⟩ := NumberPlace.exists_number_start n
  have hafter : (((s.settle.begin (.number p) b).advance.take text).resume) =
      s.past (text.length + 1) (b :: text).toArray :=
    eq_past rfl (by simp [resume_eq_move]; omega) rfl rfl rfl
      (Array.ext' (by simp [resume_eq_move]))
  have hphase : (s.settle.begin (.number p) b).advance.phase = .number p := rfl
  rw [← numberToken_bytes, hbytes, List.cons_append,
    verdict_of_accept listen (step_number_start hs hp),
    verdict_number listen hphase (by simp) htext hrest, hafter]
  simp [Nat.add_assoc, Nat.add_comm 1]

/-- A string where a value is expected. -/
theorem verdict_string_node (hs : s.ExpectsValue) (letters : Letters) (state : σ) (rest : Bytes) :
    verdict listen s state (letters.quoted ++ rest) =
      hear listen state (.scalar .string letters.raw) (s.consumed + letters.raw.length) >>=
        fun state =>
          verdict listen (s.past letters.quoted.length letters.raw.toArray) state rest := by
  have hbytes : letters.quoted ++ rest =
      Ascii.quote :: (letters.bytes ++ Ascii.quote :: rest) := by
    simp [Letters.quoted, Letters.raw]
  have hafter : (((s.settle.begin (.text .value .plain) Ascii.quote).advance.take
      letters.bytes).resume).advance = s.past letters.quoted.length letters.raw.toArray :=
    eq_past rfl (by simp [resume_eq_move]; omega) rfl rfl rfl
      (Array.ext' (by simp [resume_eq_move, Letters.raw]))
  have hphase : (s.settle.begin (.text .value .plain) Ascii.quote).advance.phase =
      .text .value .plain := rfl
  rw [hbytes, verdict_of_accept listen (step_quote hs), verdict_letters listen hphase,
    verdict_of_raise listen (step_quote_value (by simp)), hafter]
  simp [Letters.raw, Nat.add_assoc, Nat.add_comm 1]

end

/-! ### Brackets and keys -/

/-- A scanner that has come past an opening bracket. -/
def entered (s : Scanner) (kind : Bracket) : Scanner where
  phase := .inside kind
  consumed := s.consumed + 1
  stack := kind :: s.stack
  room := s.room - 1
  pendingComma := none
  text := s.text

/-- A scanner that has come past a key and its colon, of the given length in all. -/
def keyed (s : Scanner) (length : Nat) (left : Array UInt8) : Scanner where
  phase := .objectValue
  consumed := s.consumed + length
  stack := s.stack
  room := s.room
  pendingComma := none
  text := left

/-- A scanner that has come past a value of the given length and a comma. -/
def separated (s : Scanner) (kind : Bracket) (length : Nat) (left : Array UInt8) : Scanner where
  phase := .inside kind
  consumed := s.consumed + length
  stack := s.stack
  room := s.room
  pendingComma := some (s.consumed + length - 1)
  text := left

section

variable (s : Scanner) (kind : Bracket) (length : Nat) (left : Array UInt8)

@[simp] theorem room_keyed : (s.keyed length left).room = s.room := rfl

@[simp] theorem consumed_keyed : (s.keyed length left).consumed = s.consumed + length := rfl

@[simp] theorem room_separated : (s.separated kind length left).room = s.room := rfl

@[simp] theorem consumed_separated :
    (s.separated kind length left).consumed = s.consumed + length := rfl

end

section

variable (listen : Listener σ ε) {s : Scanner}

/-- An opening bracket where a value is expected. -/
theorem verdict_opening (hs : s.ExpectsValue) (kind : Bracket) (state : σ) (rest : Bytes) :
    verdict listen s state (kind.opening :: rest) =
      cue listen state (Grammar.enterCue s.room kind s.consumed) >>= fun state =>
        verdict listen (s.entered kind) state rest := by
  have hstep := step_opening hs kind
  cases hroom : s.room with
  | zero =>
      simp only [enter, room_settle, hroom] at hstep
      rw [verdict_of_reject listen hstep]
      rfl
  | succ room =>
      simp only [enter, room_settle, hroom] at hstep
      rw [verdict_of_raise listen hstep]
      simp [Grammar.enterCue, cue, entered, hroom, advance, settle]

/-- The closing bracket of the innermost container after a value. -/
theorem verdict_closing (hs : s.phase = .afterValue s.stack) {kind : Bracket}
    (h : kind ∈ s.stack.head?) (state : σ) (rest : Bytes) :
    verdict listen s state (kind.closing :: rest) =
      hear listen state (.leave kind) s.consumed >>= fun state =>
        verdict listen s.closed.resume.advance state rest :=
  verdict_of_raise listen ((step_closing hs h).trans (leave_eq h)) state rest

/-- A container that holds nothing is closed at once. -/
theorem step_closing_inside {kind : Bracket} (hs : s.phase = .inside kind)
    (hcomma : s.pendingComma = none) : s.step kind.closing = s.leave kind := by
  cases kind <;>
  · rw [step, hs]
    simp only [Phase.inside, beforeKey, beforeItem, hcomma]
    rfl

/-- A comma after a value within a container. -/
theorem verdict_comma {length : Nat} {left : Array UInt8} {kind : Bracket}
    (h : kind ∈ s.stack.head?) (state : σ) (rest : Bytes) :
    verdict listen (s.past length left) state (Ascii.comma :: rest) =
      verdict listen (s.separated kind (length + 1) left) state rest := by
  cases hstack : s.stack with
  | nil => rw [hstack] at h; cases h
  | cons top outer =>
      rw [hstack] at h
      cases h
      have hstep : (s.past length left).step Ascii.comma = (s.past length left).separate :=
        step_comma rfl (by simp [past, hstack])
      rw [verdict_cons, hstep]
      cases kind <;> simp [separate, past, hstack, separated, advance, Phase.inside] <;> rfl

/-- A key with its colon. -/
theorem verdict_key (hs : s.phase = .objectKey) (before : Spaces) (key : Letters)
    (gap lead : Spaces) (state : σ) (rest : Bytes) :
    verdict listen s state (Grammar.keyBytes before key gap lead ++ rest) =
      hear listen state (.key key.raw) (s.consumed + before.bytes.length + key.raw.length) >>=
        fun state =>
          verdict listen
            (s.keyed (Grammar.keyBytes before key gap lead).length key.raw.toArray) state rest := by
  have hbytes : Grammar.keyBytes before key gap lead ++ rest =
      before.bytes ++ (Ascii.quote :: (key.bytes ++ (Ascii.quote ::
        (gap.bytes ++ (Ascii.colon :: (lead.bytes ++ rest)))))) := by
    simp [Grammar.keyBytes, Letters.quoted, Letters.raw]
  -- The scanner within the key, and then before the colon.
  obtain ⟨opened, hopened⟩ :
      ∃ t, t = ((s.skip before.bytes.length).settle.begin (.text .key .plain)
        Ascii.quote).advance := ⟨_, rfl⟩
  have hquote : (s.skip before.bytes.length).step Ascii.quote =
      .accept ((s.skip before.bytes.length).settle.begin (.text .key .plain) Ascii.quote) := by
    rw [step, phase_skip, hs]
    rfl
  have hplain : opened.phase = .text .key .plain := by rw [hopened]; rfl
  obtain ⟨marked, hmarked⟩ :
      ∃ t, t = (((opened.take key.bytes).move .objectColon).advance.skip gap.bytes.length) :=
    ⟨_, rfl⟩
  have hcolon : marked.step Ascii.colon = .accept (marked.move .objectValue) := by
    rw [hmarked]
    rfl
  have hafter : (marked.move .objectValue).advance.skip lead.bytes.length =
      s.keyed (Grammar.keyBytes before key gap lead).length key.raw.toArray := by
    have htext : #[Ascii.quote] ++ key.bytes = key.raw.toArray := Array.ext' (by simp [Letters.raw])
    simp only [hmarked, hopened, keyed, advance, skip, move, take, begin, settle, htext,
      Grammar.keyBytes, List.length_append, Letters.length_quoted, List.length_cons]
    congr 1
    omega
  rw [hbytes, verdict_spaces listen (by rw [hs]; rfl), verdict_of_accept listen hquote, ← hopened,
    verdict_letters listen hplain, verdict_of_raise listen (step_quote_key (by simpa using hplain))]
  have hoffset : (opened.take key.bytes).consumed =
      s.consumed + before.bytes.length + key.raw.length := by
    simp [hopened, Letters.raw, Nat.add_assoc, Nat.add_comm 1]
  have htext : (opened.take key.bytes).text.toList = key.raw := by
    simp [hopened, Letters.raw]
  rw [hoffset, htext]
  congr 1
  funext state
  rw [verdict_spaces listen (by rfl), ← hmarked, verdict_of_accept listen hcolon,
    verdict_spaces listen (by rfl), hafter]

/-- **A container where a value is expected**, given the verdict on what stands between its
brackets. -/
theorem verdict_container (hs : s.ExpectsValue) (kind : Bracket) {body rest : Bytes}
    {script : List Cue}
    (h : ∃ left, ∀ state, verdict listen (s.entered kind) state (body ++ kind.closing :: rest) =
      perform listen state script >>= fun state =>
        verdict listen ((s.entered kind).past body.length left) state (kind.closing :: rest)) :
    ∃ left, ∀ state, verdict listen s state (kind.opening :: (body ++ kind.closing :: rest)) =
      perform listen state (Grammar.enterCue s.room kind s.consumed ::
        (script ++ [.event (.leave kind) (s.consumed + 1 + body.length)])) >>= fun state =>
          verdict listen (s.past (body.length + 2) left) state rest := by
  obtain ⟨left, h⟩ := h
  refine ⟨left, ?_⟩
  intro state
  rw [verdict_opening listen hs, perform_cons, bind_assoc]
  -- Without room both sides end with the fault of the opening bracket.
  cases hroom : s.room with
  | zero => rfl
  | succ room =>
      congr 1
      funext state
      have hafter : ((s.entered kind).past body.length left).closed.resume.advance =
          s.past (body.length + 2) left := by
        refine eq_past rfl ?_ rfl ?_ rfl rfl
        · simp only [resume_eq_move, consumed_advance, consumed_move, closed, past, entered]
          omega
        · simp only [resume_eq_move, closed, past, entered, advance, move, hroom]
          rfl
      rw [h, perform_append, bind_assoc]
      congr 1
      funext state
      have hkind : kind ∈ ((s.entered kind).past body.length left).stack.head? := rfl
      have hclosing := verdict_closing listen rfl hkind state rest
      rw [hclosing, hafter, perform_cons, bind_assoc]
      rfl

/-- A container that holds nothing. -/
theorem verdict_gap (kind : Bracket) (gap : Spaces) (rest : Bytes) (state : σ) :
    verdict listen (s.entered kind) state (gap.bytes ++ kind.closing :: rest) =
      verdict listen ((s.entered kind).past gap.bytes.length s.text) state
        (kind.closing :: rest) := by
  have hskips : (s.entered kind).phase.skips = true := by cases kind <;> rfl
  have hstep : ((s.entered kind).skip gap.bytes.length).step kind.closing =
      .raise (.leave kind) ((s.entered kind).skip gap.bytes.length).closed
        (.accept ((s.entered kind).skip gap.bytes.length).closed.resume) :=
    (step_closing_inside rfl rfl).trans (leave_eq rfl)
  have hkind : kind ∈ ((s.entered kind).past gap.bytes.length s.text).stack.head? := rfl
  have hclosing := verdict_closing listen rfl hkind state rest
  rw [verdict_spaces listen hskips, verdict_of_raise listen hstep, hclosing]
  rfl

end

/-! ### Trees -/

theorem skip_past (s : Scanner) (before length : Nat) (left : Array UInt8) :
    (s.skip before).past length left = s.past (before + length) left := by
  simp [past, skip, Nat.add_assoc]

theorem keyed_past (s : Scanner) (before length : Nat) (left' left : Array UInt8) :
    (s.keyed before left').past length left = s.past (before + length) left := by
  simp [past, keyed, Nat.add_assoc]

theorem separated_past (s : Scanner) (kind : Bracket) (before length : Nat)
    (left' left : Array UInt8) :
    (s.separated kind before left').past length left = s.past (before + length) left := by
  simp [past, separated, Nat.add_assoc]

theorem skips_afterValue (stack : List Bracket) : (Phase.afterValue stack).skips = true := by
  rcases stack with _ | ⟨_ | _, _⟩ <;> rfl

/-- White space after a value. -/
theorem verdict_after (listen : Listener σ ε) (s : Scanner) (length : Nat) (left : Array UInt8)
    (after : Spaces) (state : σ) (rest : Bytes) :
    verdict listen (s.past length left) state (after.bytes ++ rest) =
      verdict listen (s.past (length + after.bytes.length) left) state rest := by
  rw [verdict_spaces listen (skips_afterValue s.stack)]
  simp [past, skip, Nat.add_assoc]

theorem endsNumber_spaces {stack : List Bracket} {rest : Bytes} (spaces : Spaces)
    (h : EndsNumber stack rest) : EndsNumber stack (spaces.bytes ++ rest) := by
  obtain ⟨bytes, hbytes⟩ := spaces
  cases bytes with
  | nil => exact h
  | cons b bytes => exact .inl (hbytes b (by simp))

theorem endsNumber_closing {stack : List Bracket} {kind : Bracket} (h : kind ∈ stack.head?)
    (rest : Bytes) : EndsNumber stack (kind.closing :: rest) := .inr (.inr ⟨kind, h, rfl⟩)

theorem endsNumber_comma {stack : List Bracket} {kind : Bracket} (h : kind ∈ stack.head?)
    (rest : Bytes) : EndsNumber stack (Ascii.comma :: rest) := by
  refine .inr (.inl ⟨rfl, ?_⟩)
  rintro rfl
  cases h

mutual

/-- **A tree under the scanner.** -/
theorem verdict_node (listen : Listener σ ε) (n : Node) {s : Scanner} (hs : s.ExpectsValue)
    {rest : Bytes} (hrest : n.Ends s.stack rest) :
    ∃ left, ∀ state, verdict listen s state (n.bytes ++ rest) =
      perform listen state (n.script s.room s.consumed) >>= fun state =>
        verdict listen (s.past n.bytes.length left) state rest := by
  cases n with
  | word word =>
      refine ⟨s.text, ?_⟩
      intro state
      rw [Node.script, perform_singleton]
      exact verdict_word_node listen hs word state rest
  | number n =>
      refine ⟨n.bytes.toArray, ?_⟩
      intro state
      rw [Node.script, perform_singleton]
      exact verdict_number_node listen hs n hrest state
  | string letters =>
      refine ⟨letters.raw.toArray, ?_⟩
      intro state
      rw [Node.script, perform_singleton]
      exact verdict_string_node listen hs letters state rest
  | empty kind gap =>
      have hgap : ∃ left, ∀ state,
          verdict listen (s.entered kind) state (gap.bytes ++ kind.closing :: rest) =
            perform listen state [] >>= fun state =>
              verdict listen ((s.entered kind).past gap.bytes.length left) state
                (kind.closing :: rest) :=
        ⟨s.text, fun state => verdict_gap listen kind gap rest state⟩
      obtain ⟨left, h⟩ := verdict_container listen hs kind hgap
      refine ⟨left, ?_⟩
      intro state
      simp only [Node.script, Node.bytes, List.cons_append, List.append_assoc, List.nil_append,
        List.length_cons, List.length_append, List.length_nil]
      exact h state
  | array items =>
      obtain ⟨left, h⟩ := verdict_container listen hs .square
        (verdict_items listen items (s := s.entered .square) rfl rfl rest)
      refine ⟨left, ?_⟩
      intro state
      simp only [Node.script, Node.bytes, List.cons_append, List.append_assoc, List.nil_append,
        List.length_cons, List.length_append, List.length_nil]
      exact h state
  | object members =>
      obtain ⟨left, h⟩ := verdict_container listen hs .brace
        (verdict_members listen members (s := s.entered .brace) rfl rfl rest)
      refine ⟨left, ?_⟩
      intro state
      simp only [Node.script, Node.bytes, List.cons_append, List.append_assoc, List.nil_append,
        List.length_cons, List.length_append, List.length_nil]
      exact h state

/-- The items of an array under the scanner. -/
theorem verdict_items (listen : Listener σ ε) (items : Items) {s : Scanner}
    (hs : s.phase = .arrayItem) (hstack : .square ∈ s.stack.head?) (rest : Bytes) :
    ∃ left, ∀ state, verdict listen s state (items.bytes ++ Ascii.closeSquare :: rest) =
      perform listen state (items.script s.room s.consumed) >>= fun state =>
        verdict listen (s.past items.bytes.length left) state (Ascii.closeSquare :: rest) := by
  have hskips : s.phase.skips = true := by rw [hs]; rfl
  cases items with
  | last before value after =>
      have hends : EndsNumber s.stack (after.bytes ++ Ascii.closeSquare :: rest) :=
        endsNumber_spaces after (endsNumber_closing hstack rest)
      obtain ⟨left, h⟩ := verdict_node listen value (s := s.skip before.bytes.length) (.inl hs)
        (Node.ends_of_endsNumber hends value)
      refine ⟨left, ?_⟩
      intro state
      simp only [Items.bytes, Items.script, List.append_assoc, List.length_append]
      rw [verdict_spaces listen hskips, h]
      simp only [verdict_after, skip_past, room_skip, consumed_skip, Nat.add_assoc]
  | more before value after items =>
      have hends : EndsNumber s.stack
          (after.bytes ++ Ascii.comma :: (items.bytes ++ Ascii.closeSquare :: rest)) :=
        endsNumber_spaces after (endsNumber_comma hstack _)
      obtain ⟨left, h⟩ := verdict_node listen value (s := s.skip before.bytes.length) (.inl hs)
        (Node.ends_of_endsNumber hends value)
      obtain ⟨left', h'⟩ := verdict_items listen items
        (s := s.separated .square
          (before.bytes.length + value.bytes.length + after.bytes.length + 1) left) rfl hstack rest
      refine ⟨left', ?_⟩
      intro state
      simp only [Items.bytes, Items.script, List.append_assoc, List.cons_append, List.length_append,
        List.length_cons]
      rw [verdict_spaces listen hskips, h, perform_append, bind_assoc]
      simp only [verdict_after, skip_past, verdict_comma listen hstack, h', separated_past]
      simp only [room_skip, consumed_skip, room_separated, consumed_separated, Nat.add_assoc,
        Nat.add_comm 1]

/-- The members of an object under the scanner. -/
theorem verdict_members (listen : Listener σ ε) (members : Members) {s : Scanner}
    (hs : s.phase = .objectKey) (hstack : .brace ∈ s.stack.head?) (rest : Bytes) :
    ∃ left, ∀ state, verdict listen s state (members.bytes ++ Ascii.closeBrace :: rest) =
      perform listen state (members.script s.room s.consumed) >>= fun state =>
        verdict listen (s.past members.bytes.length left) state (Ascii.closeBrace :: rest) := by
  cases members with
  | last before key gap lead value after =>
      have hends : EndsNumber s.stack (after.bytes ++ Ascii.closeBrace :: rest) :=
        endsNumber_spaces after (endsNumber_closing hstack rest)
      obtain ⟨left, h⟩ := verdict_node listen value
        (s := s.keyed (Grammar.keyBytes before key gap lead).length key.raw.toArray)
        (.inr ⟨.inr rfl, rfl⟩) (Node.ends_of_endsNumber hends value)
      refine ⟨left, ?_⟩
      intro state
      simp only [Members.bytes, Members.script, List.append_assoc, List.length_append]
      rw [verdict_key listen hs, perform_cons, bind_assoc]
      simp only [h, verdict_after, keyed_past, room_keyed, consumed_keyed, Nat.add_assoc]
      rfl
  | more before key gap lead value after members =>
      have hends : EndsNumber s.stack
          (after.bytes ++ Ascii.comma :: (members.bytes ++ Ascii.closeBrace :: rest)) :=
        endsNumber_spaces after (endsNumber_comma hstack _)
      obtain ⟨left, h⟩ := verdict_node listen value
        (s := s.keyed (Grammar.keyBytes before key gap lead).length key.raw.toArray)
        (.inr ⟨.inr rfl, rfl⟩) (Node.ends_of_endsNumber hends value)
      obtain ⟨left', h'⟩ := verdict_members listen members
        (s := s.separated .brace ((Grammar.keyBytes before key gap lead).length +
          value.bytes.length + after.bytes.length + 1) left) rfl hstack rest
      refine ⟨left', ?_⟩
      intro state
      simp only [Members.bytes, Members.script, List.append_assoc, List.cons_append,
        List.length_append, List.length_cons]
      rw [verdict_key listen hs, perform_cons, bind_assoc]
      simp only [h, perform_append, bind_assoc, verdict_after, keyed_past,
        verdict_comma listen hstack, h', separated_past]
      simp only [room_keyed, consumed_keyed, room_separated, consumed_separated, Nat.add_assoc,
        Nat.add_comm 1]
      rfl

end

end Scanner

end DocCodec
