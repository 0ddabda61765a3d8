/-
**What a byte can do.**

The scanner is in one of many phases, but what a byte can make it do falls under a few cases: it is
white space, it begins, continues or completes a token, it opens or closes a container, it
separates two values, or it is rejected.  They are listed here once, with what each case presupposes
and leaves behind, so that whatever is claimed of every step of a scan is proved case by case.

A scanner that was reached by a scan is coherent: its phase fits the innermost container, a comma is
only pending where an entry or an item may begin, and the text of a number so far is a first part of
a number.  The cases are those of coherent scanners, and they lead to coherent scanners.

Main definitions:

* `DocCodec.Scanner.Reaction.result`, `DocCodec.Scanner.Reaction.events` — what a reaction ends with
  and what it raises;
* `DocCodec.Scanner.Progress.Meets` — what holds of a scan;
* `DocCodec.Scanner.Coherent` — **what is true of every scanner that a scan leads to**;
* `DocCodec.Scanner.delimitsNumber`, `DocCodec.Scanner.Retains` — what a byte that is rejected
  completes and what becomes of a comma before it;
* `DocCodec.Scanner.Reacts` — **what a byte can make a scanner do**.

Main results:

* `DocCodec.Scanner.meets_feed` — what is kept byte by byte is kept by a scan;
* `DocCodec.Scanner.Coherent.reacts` — the reactions of coherent scanners are of these kinds;
* `DocCodec.Scanner.Reacts.coherent` — they lead to coherent scanners;
* `DocCodec.Scanner.Coherent.of_feed` — **every scan leads from coherent scanners to coherent
  scanners**;
* `DocCodec.Scanner.Coherent.kept_by_feed` — what every byte keeps that they accept, a scan keeps.
-/

import DocCodec.Proofs.Scanner.Tree

set_option relaxedAutoImplicit false
set_option autoImplicit false

namespace DocCodec.Scanner

variable {σ ε : Type}

/-! ### Reactions by their ends -/

/-- What a reaction ends with if no event is refused: the scanner to go on with, or the error and
the scanner that is left behind. -/
def Reaction.result : Reaction → Except (SyntaxError × Scanner) Scanner
  | .accept after => .ok after
  | .reject error left => .error (error, left)
  | .raise _ _ next => next.result

/-- The events that a reaction may raise. -/
def Reaction.events : Reaction → List Event
  | .accept _ | .reject _ _ => []
  | .raise event _ next => event :: next.events

theorem Reaction.result_of_run (listen : Listener σ ε) {offset : Nat} {r : Reaction} {state : σ}
    {after : Scanner} {state' : σ} (h : r.run listen offset state = ⟨after, state', none⟩) :
    r.result = .ok after := by
  induction r generalizing state with
  | accept found =>
      cases h
      rfl
  | reject error left => cases h
  | raise event refused next ih =>
      rw [Reaction.run] at h
      rcases hlisten : listen state event offset with ⟨heard, _ | reason⟩
      · rw [hlisten] at h
        exact ih h
      · rw [hlisten] at h
        cases h

/-- What holds of a scan: one property if it goes on, and another if it stopped. -/
def Progress.Meets (goes : Scanner → σ → Prop) (stops : Stop ε → σ → Prop) : Progress σ ε → Prop
  | ⟨scanner, state, none⟩ => goes scanner state
  | ⟨_, state, some stop⟩ => stops stop state

/-- **What is kept byte by byte is kept by a scan**, and what then holds wherever a byte stops it
holds when it stops.  The claim may speak of the bytes so far. -/
theorem meets_feed (listen : Listener σ ε) {P : Bytes → Scanner → σ → Prop}
    {Q : Stop ε → σ → Prop}
    (hstep : ∀ x s state b, P x s state →
      ((s.step b).run listen s.consumed state).Meets (fun after => P (x ++ [b]) after.advance) Q)
    {x : Bytes} {s : Scanner} {state : σ} (hs : P x s state) (y : Bytes) :
    (feed listen s state y).Meets (P (x ++ y)) Q := by
  induction y generalizing x s state with
  | nil =>
      rw [List.append_nil]
      exact hs
  | cons b y ih =>
      have hb := hstep x s state b hs
      rw [feed]
      rcases hrun : (s.step b).run listen s.consumed state with ⟨next, heard, _ | stop⟩
      · rw [hrun] at hb
        have hrest := ih hb
        rwa [List.append_assoc, List.singleton_append] at hrest
      · rw [hrun] at hb
        exact hb

/-- What is kept byte by byte is kept by a scan that does not stop. -/
theorem of_feed (listen : Listener σ ε) {P : Bytes → Scanner → σ → Prop}
    (hstep : ∀ x s state b after state', P x s state →
      (s.step b).run listen s.consumed state = ⟨after, state', none⟩ →
        P (x ++ [b]) after.advance state')
    {x y : Bytes} {s after : Scanner} {state state' : σ} (hs : P x s state)
    (h : feed listen s state y = ⟨after, state', none⟩) : P (x ++ y) after state' := by
  have hmeets := meets_feed listen (Q := fun _ _ => True) ?_ hs y
  · rw [h] at hmeets
    exact hmeets
  · intro x s state b hs
    rcases hrun : (s.step b).run listen s.consumed state with ⟨next, heard, _ | stop⟩
    · exact hstep x s state b next heard hs hrun
    · trivial

/-! ### Coherent scanners -/

/-- Whether a phase fits the open containers, innermost first. -/
def Phase.Fits (stack : List Bracket) : Phase → Prop
  | .start | .finished => stack = []
  | .text .key _ | .objectKey | .objectColon | .objectValue | .objectRest => .brace ∈ stack.head?
  | .arrayItem | .arrayRest => .square ∈ stack.head?
  | .word _ owed => owed ≠ []
  | .text .value _ | .number _ => True

theorem Phase.fits_afterValue (stack : List Bracket) : (Phase.afterValue stack).Fits stack := by
  rcases stack with _ | ⟨_ | _, outer⟩ <;> exact rfl

theorem Phase.fits_inside {stack : List Bracket} {kind : Bracket} (h : kind ∈ stack.head?) :
    (Phase.inside kind).Fits stack := by
  cases kind <;> exact h

theorem ExpectsValue.ne_finished {s : Scanner} (hs : s.ExpectsValue) : s.phase ≠ .finished := by
  rcases hs with hs | ⟨hs | hs, -⟩ <;> simp [hs]

/-- Whether a text is a first part of a number, which at this place goes on in any way in which it
may go on there. -/
def NumberPlace.Reads (text : Bytes) (p : NumberPlace) : Prop :=
  ∀ rest, p.Lang rest → ∃ n : Grammar.Number, n.bytes = text ++ rest

theorem NumberPlace.reads_start {b : UInt8} {p : NumberPlace} (h : start? b = some p) :
    p.Reads [b] := by
  intro rest hrest
  exact (exists_number_iff b rest).1 ⟨p, h, hrest⟩

theorem NumberPlace.Reads.next {text : Bytes} {p q : NumberPlace} (h : p.Reads text) {b : UInt8}
    (hb : p.next? b = some q) : q.Reads (text ++ [b]) := by
  intro rest hrest
  rw [List.append_assoc]
  exact h _ ((lang_cons p b rest).2 ⟨q, hb, hrest⟩)

/-- A number that may end is a number of the grammar. -/
theorem NumberPlace.Reads.exists_number {text : Bytes} {p : NumberPlace} (h : p.Reads text)
    (hp : p.isComplete = true) : ∃ n : Grammar.Number, n.bytes = text := by
  obtain ⟨n, hn⟩ := h [] ((lang_nil p).2 hp)
  exact ⟨n, by rw [hn, List.append_nil]⟩

/-- **What is true of every scanner that a scan leads to.** -/
structure Coherent (s : Scanner) : Prop where
  fits : s.phase.Fits s.stack
  pendingComma_eq_none : s.phase ≠ .objectKey → s.phase ≠ .arrayItem → s.pendingComma = none
  reads : ∀ p, s.phase = .number p → p.Reads s.text.toList
  start_of_consumed : s.consumed = 0 → s.phase = .start

theorem coherent_start (bound : Nat) : Coherent { room := bound } where
  fits := rfl
  pendingComma_eq_none _ _ := rfl
  reads _ h := nomatch h
  start_of_consumed _ := rfl

/-- A scanner is coherent after a byte that does not end within a number. -/
theorem Coherent.of_advance {s : Scanner} (hfits : s.phase.Fits s.stack)
    (hcomma : s.phase ≠ .objectKey → s.phase ≠ .arrayItem → s.pendingComma = none)
    (hnumber : ∀ p, s.phase ≠ .number p) : s.advance.Coherent where
  fits := hfits
  pendingComma_eq_none := hcomma
  reads p h := absurd h (hnumber p)
  start_of_consumed h := absurd h (Nat.succ_ne_zero s.consumed)

/-- A scanner is coherent after a complete value. -/
theorem Coherent.of_resume {s : Scanner} (hcomma : s.pendingComma = none) :
    s.resume.advance.Coherent := by
  refine of_advance (Phase.fits_afterValue s.stack) (fun _ _ => hcomma) ?_
  intro p
  change Phase.afterValue s.stack ≠ _
  rcases s.stack with _ | ⟨_ | _, outer⟩ <;> nofun

/-! ### Reactions by their causes -/

/-- The place in a string literal after one more byte, if the byte continues the literal. -/
def TextPlace.next? : TextPlace → UInt8 → Option TextPlace
  | .plain, b =>
    if b = Ascii.quote then none
    else if b = Ascii.backslash then some .escape
    else if Ascii.isControl b then none
    else some .plain
  | .escape, b =>
    if isEscapeLetter b then some .plain
    else if b = Ascii.byte 'u' then some (.digits 3)
    else none
  | .digits more, b =>
    if Hex.isDigit b then
      match more with
      | 0 => some .plain
      | more + 1 => some (.digits more)
    else none

/-- A scanner in which a container has been opened. -/
def opened (s : Scanner) (kind : Bracket) (room : Nat) : Scanner :=
  { s with stack := kind :: s.stack, room }

/-- A scanner that has marked a comma where it stands. -/
def marked (s : Scanner) : Scanner := { s with pendingComma := some s.consumed }

/-- A rejection of a byte for what it is, where only the pending comma may change. -/
def refusal (s : Scanner) (b : UInt8) (fault : Fault) (comma : Option Nat) : Reaction :=
  .reject ⟨fault, b, s.consumed⟩ { s with pendingComma := comma }

/-- Whether a byte is a comma or a closing bracket right after a number, which it completes. -/
def delimitsNumber (s : Scanner) (b : UInt8) : Bool :=
  match s.phase with
  | .number place =>
    place.isComplete && (b == Ascii.comma || b == Ascii.closeSquare || b == Ascii.closeBrace)
  | _ => false

/-- What may become of the pending comma when a byte is rejected for what it is: only before an item
it is forgotten. -/
def Retains (s : Scanner) (comma : Option Nat) : Prop :=
  comma = s.pendingComma ∨ comma = none ∧ s.phase = .arrayItem ∧ s.pendingComma ≠ none

/-- **What a byte can do after a complete value**, whether or not the scanner has moved on. -/
inductive ReactsPast (s : Scanner) (b : UInt8) : Reaction → Prop
  | space (hb : Ascii.isSpace b = true) : ReactsPast s b (.accept s.resume)
  | comma (hb : b = Ascii.comma) {kind : Bracket} (hkind : kind ∈ s.stack.head?) :
      ReactsPast s b (.accept (s.marked.move (.inside kind)))
  | close {kind : Bracket} (hb : b = kind.closing) (hkind : kind ∈ s.stack.head?) :
      ReactsPast s b (.raise (.leave kind) s.closed (.accept s.closed.resume))
  | reject (fault : Fault) (hfault : fault ≠ .trailingComma) (comma : Option Nat)
      (hb : b = Ascii.comma ∨ ∃ kind : Bracket, b = kind.closing)
      (hcomma : comma = s.pendingComma ∨ s.stack = []) : ReactsPast s b (s.refusal b fault comma)

/-- **What a byte can make a scanner do.** -/
inductive Reacts (s : Scanner) (b : UInt8) : Reaction → Prop
  /-- White space between tokens. -/
  | space (hs : s.phase.skips = true) (hb : Ascii.isSpace b = true) : Reacts s b (.accept s)
  /-- The bracket that opens a container. -/
  | enter (hs : s.ExpectsValue) {kind : Bracket} (hb : b = kind.opening) {room : Nat}
      (hroom : s.room = room + 1) :
      Reacts s b (.raise (.enter kind) (s.settle.opened kind room)
        (.accept ((s.settle.opened kind room).move (.inside kind))))
  /-- The bracket that closes a container which holds nothing. -/
  | leave {kind : Bracket} (hs : s.phase = .inside kind) (hcomma : s.pendingComma = none)
      (hb : b = kind.closing) (hkind : kind ∈ s.stack.head?) :
      Reacts s b (.raise (.leave kind) s.closed (.accept s.closed.resume))
  /-- The quotation mark that begins a string. -/
  | beginString (hs : s.ExpectsValue) (hb : b = Ascii.quote) :
      Reacts s b (.accept (s.settle.begin (.text .value .plain) b))
  /-- The quotation mark that begins a key. -/
  | beginKey (hs : s.phase = .objectKey) (hb : b = Ascii.quote) :
      Reacts s b (.accept (s.settle.begin (.text .key .plain) b))
  /-- A byte within a literal. -/
  | text {role : Role} {place next : TextPlace} (hs : s.phase = .text role place)
      (hb : place.next? b = some next) : Reacts s b (s.extend b (.text role next))
  /-- The quotation mark that completes a string. -/
  | string (hs : s.phase = .text .value .plain) (hb : b = Ascii.quote) :
      Reacts s b (.raise (.scalar .string s.text.toList) s (.accept s.resume))
  /-- The quotation mark that completes a key. -/
  | key (hs : s.phase = .text .key .plain) (hb : b = Ascii.quote) :
      Reacts s b (.raise (.key s.text.toList) s (.accept (s.move .objectColon)))
  /-- The colon after a key. -/
  | colon (hs : s.phase = .objectColon) (hb : b = Ascii.colon) :
      Reacts s b (.accept (s.move .objectValue))
  /-- The first letter of a word. -/
  | beginWord (hs : s.ExpectsValue) {word : Word} (hb : Word.start? b = some word) :
      Reacts s b (.accept (s.settle.move (.word word word.tail)))
  /-- A letter within a word. -/
  | letter {word : Word} {next : UInt8} {owed : Bytes}
      (hs : s.phase = .word word (b :: next :: owed)) :
      Reacts s b (.accept (s.move (.word word (next :: owed))))
  /-- The last letter of a word. -/
  | word {word : Word} (hs : s.phase = .word word [b]) :
      Reacts s b (.raise (.scalar word.token word.letters) s (.accept s.resume))
  /-- The first byte of a number. -/
  | beginNumber (hs : s.ExpectsValue) {p : NumberPlace} (hb : NumberPlace.start? b = some p) :
      Reacts s b (.accept (s.settle.begin (.number p) b))
  /-- A byte within a number. -/
  | digit {p q : NumberPlace} (hs : s.phase = .number p) (hb : p.next? b = some q) :
      Reacts s b (s.extend b (.number q))
  /-- The byte after a number, which completes it. -/
  | number {p : NumberPlace} (hs : s.phase = .number p) (hp : p.isComplete = true) {next : Reaction}
      (hnext : ReactsPast s b next) :
      Reacts s b (.raise (.scalar (numberToken s.text.toList) s.text.toList) s next)
  /-- A byte after any other value. -/
  | past (hs : s.phase = .afterValue s.stack) {r : Reaction} (h : ReactsPast s b r) : Reacts s b r
  /-- A closing bracket that is rejected for the comma before it. -/
  | trailingComma {position : Nat} (hcomma : s.pendingComma = some position)
      (hb : b = Ascii.closeSquare ∨ b = Ascii.closeBrace) : Reacts s b (s.failAtComma position)
  /-- A byte that is rejected for what it is. -/
  | reject (fault : Fault) (hfault : fault ≠ .trailingComma) (comma : Option Nat)
      (hb : s.delimitsNumber b = false) (hcomma : s.Retains comma) :
      Reacts s b (s.refusal b fault comma)

section

variable {s : Scanner} {b : UInt8}

theorem reacts_fail {fault : Fault} (hfault : fault ≠ .trailingComma)
    (hb : s.delimitsNumber b = false) : Reacts s b (s.fail fault b) :=
  .reject fault hfault s.pendingComma hb (.inl rfl)

theorem delimitsNumber_eq_false (hs : ∀ p, s.phase ≠ .number p) : s.delimitsNumber b = false := by
  unfold delimitsNumber
  split
  · next p hp => exact absurd hp (hs p)
  · rfl

/-- A closing bracket after a complete value. -/
theorem reactsPast_leave {kind : Bracket} (hb : b = kind.closing) : ReactsPast s b (s.leave kind) := by
  subst hb
  by_cases hkind : kind ∈ s.stack.head?
  · rw [leave_eq hkind]
    exact .close rfl hkind
  · have hfault : leave.unopened kind ≠ .trailingComma := by cases kind <;> nofun
    have hreject : ReactsPast s kind.closing (s.fail (leave.unopened kind) kind.closing) :=
      .reject _ hfault s.pendingComma (.inr ⟨kind, rfl⟩) (.inl rfl)
    cases hstack : s.stack with
    | nil =>
        rw [leave, hstack]
        exact hreject
    | cons top outer =>
        have htop : top ≠ kind := by
          rintro rfl
          exact hkind (by rw [hstack]; rfl)
        simp only [leave, hstack, if_neg htop]
        exact hreject

/-- A comma after a complete value. -/
theorem reactsPast_separate (hb : b = Ascii.comma) : ReactsPast s b s.separate := by
  subst hb
  cases hstack : s.stack with
  | nil =>
      have hreject := ReactsPast.reject (s := s) (b := Ascii.comma) .contentEnded nofun
        (some s.consumed) (.inl rfl) (.inr hstack)
      simpa [separate, hstack, refusal, fail] using hreject
  | cons top outer =>
      have htop : top ∈ s.stack.head? := by rw [hstack]; rfl
      have hcomma := ReactsPast.comma (b := Ascii.comma) rfl htop
      cases top <;> simpa [separate, hstack, marked, move, Phase.inside] using hcomma

/-! ### Phase by phase -/

/-- A byte that is rejected where a value is expected. -/
theorem reacts_refusal (hs : s.ExpectsValue) {fault : Fault} (hfault : fault ≠ .trailingComma) :
    Reacts s b (s.refusal b fault none) := by
  rcases hs with hs | ⟨hs, hcomma⟩
  · refine .reject fault hfault none (delimitsNumber_eq_false (by simp [hs])) ?_
    cases hcomma : s.pendingComma with
    | none => exact .inl hcomma.symm
    | some position => exact .inr ⟨rfl, hs, by simp [hcomma]⟩
  · refine .reject fault hfault none (delimitsNumber_eq_false ?_) (.inl hcomma.symm)
    rcases hs with hs | hs <;> simp [hs]

theorem reacts_enter (hs : s.ExpectsValue) {kind : Bracket} (hb : b = kind.opening) :
    Reacts s b (s.settle.enter kind) := by
  cases hroom : s.room with
  | zero =>
      have hreject : Reacts s b (s.refusal b .maxDepthReached none) := reacts_refusal hs nofun
      simpa [enter, hroom, refusal, fail, settle, hb] using hreject
  | succ room =>
      have henter := Reacts.enter hs hb hroom
      simpa [enter, hroom, opened, move] using henter

/-- The first byte of a value. -/
theorem reacts_beginValue (hs : s.ExpectsValue) {fault : Fault} (hfault : fault ≠ .trailingComma) :
    Reacts s b (s.settle.beginValue b fault) := by
  unfold beginValue
  split
  · next hb => exact reacts_enter hs hb
  split
  · next hb => exact reacts_enter hs hb
  split
  · next hb => exact .beginString hs hb
  split
  · next hb => exact .beginWord hs hb
  · next hb => exact .beginNumber hs hb
  · exact reacts_refusal hs hfault

theorem reacts_inText {role : Role} {place : TextPlace} (hs : s.phase = .text role place) :
    Reacts s b (s.inText role place b) := by
  have htext {next : TextPlace} (h : place.next? b = some next) := Reacts.text hs h
  have hnumber : s.delimitsNumber b = false := delimitsNumber_eq_false (by simp [hs])
  cases place with
  | plain =>
      unfold inText
      by_cases hquote : b = Ascii.quote
      · simp only [if_pos hquote]
        cases role with
        | key => exact .key hs hquote
        | value => exact .string hs hquote
      by_cases hbackslash : b = Ascii.backslash
      · simp only [if_neg hquote, if_pos hbackslash]
        exact htext (by rw [TextPlace.next?, if_neg hquote, if_pos hbackslash])
      by_cases hcontrol : Ascii.isControl b = true
      · simp only [if_neg hquote, if_neg hbackslash, if_pos hcontrol]
        exact reacts_fail (by rintro ⟨⟩) hnumber
      · simp only [if_neg hquote, if_neg hbackslash, if_neg hcontrol]
        exact htext (by simp [TextPlace.next?, hquote, hbackslash, hcontrol])
  | escape =>
      unfold inText
      by_cases hescape : isEscapeLetter b = true
      · simp only [if_pos hescape]
        exact htext (by simp [TextPlace.next?, hescape])
      by_cases hu : b = Ascii.byte 'u'
      · simp only [if_neg hescape, if_pos hu]
        exact htext (by rw [TextPlace.next?, if_neg hescape, if_pos hu])
      · simp only [if_neg hescape, if_neg hu]
        exact reacts_fail (by rintro ⟨⟩) hnumber
  | digits more =>
      unfold inText
      by_cases hdigit : Hex.isDigit b = true
      · simp only [if_pos hdigit]
        cases more <;> exact htext (by simp [TextPlace.next?, hdigit])
      · simp only [if_neg hdigit]
        exact reacts_fail (by rintro ⟨⟩) hnumber

theorem reacts_inNumber {place : NumberPlace} (hs : s.phase = .number place) :
    Reacts s b (s.inNumber place b) := by
  unfold inNumber
  cases hnext : place.next? b with
  | some next => exact .digit hs hnext
  | none =>
      by_cases hplace : place.isComplete = true
      · simp only [if_pos hplace]
        split
        · next hb => exact .number hs hplace (reactsPast_separate hb)
        split
        · next hb => exact .number hs hplace (.space hb)
        split
        · next hb => exact .number hs hplace (reactsPast_leave hb)
        split
        · next hb => exact .number hs hplace (reactsPast_leave hb)
        · next hcomma _ hsquare hbrace =>
            exact reacts_fail nofun (by simp [delimitsNumber, hs, hcomma, hsquare, hbrace])
      · simp only [if_neg hplace]
        exact reacts_fail nofun (by simp [delimitsNumber, hs, hplace])

theorem reacts_inWord {word : Word} {owed : Bytes} (hs : s.phase = .word word owed) :
    Reacts s b (s.inWord word owed b) := by
  have hnumber : s.delimitsNumber b = false := delimitsNumber_eq_false (by simp [hs])
  unfold inWord
  split
  · exact reacts_fail (by rintro ⟨⟩) hnumber
  · next letter owed =>
      by_cases hletter : b = letter
      · subst hletter
        simp only [if_pos]
        cases owed with
        | nil => exact .word hs
        | cons next owed => exact .letter hs
      · simp only [if_neg hletter]
        exact reacts_fail (by rintro ⟨⟩) hnumber

theorem reacts_beforeKey (hs : s.phase = .objectKey) (hstack : .brace ∈ s.stack.head?) :
    Reacts s b (s.beforeKey b) := by
  unfold beforeKey
  split
  · next hb => exact .space (by rw [hs]; rfl) hb
  split
  · next hb => exact .beginKey hs hb
  split
  · next hb =>
      cases hcomma : s.pendingComma with
      | some position => exact .trailingComma hcomma (.inr hb)
      | none =>
          simp only [leave_eq hstack]
          exact .leave hs hcomma hb hstack
  · exact reacts_fail nofun (delimitsNumber_eq_false (by simp [hs]))

theorem reacts_beforeItem (hs : s.phase = .arrayItem) (hstack : .square ∈ s.stack.head?) :
    Reacts s b (s.beforeItem b) := by
  unfold beforeItem
  split
  · next hb => exact .space (by rw [hs]; rfl) hb
  cases hcomma : s.pendingComma with
  | some position =>
      by_cases hb : b = Ascii.closeSquare ∨ b = Ascii.closeBrace
      · simp only [if_pos hb]
        exact .trailingComma hcomma hb
      · simp only [if_neg hb]
        exact reacts_beginValue (.inl hs) nofun
  | none =>
      by_cases hb : b = Ascii.closeSquare
      · simp only [if_pos hb, leave_eq hstack]
        exact .leave hs hcomma hb hstack
      · simp only [if_neg hb]
        have hvalue : Reacts s b (s.settle.beginValue b .expectedArrayItem) :=
          reacts_beginValue (.inl hs) nofun
        rwa [settle_of_pendingComma hcomma] at hvalue

/-- A byte where nothing but a value is expected. -/
theorem reacts_beforeValue (hs : s.phase = .start ∨ s.phase = .objectValue)
    (hcomma : s.pendingComma = none) {fault : Fault} (hfault : fault ≠ .trailingComma) :
    Reacts s b (if Ascii.isSpace b then .accept s else s.beginValue b fault) := by
  split
  · next hb => exact .space (by rcases hs with hs | hs <;> rw [hs] <;> rfl) hb
  · have hvalue := reacts_beginValue (b := b) (.inr ⟨hs, hcomma⟩) hfault
    rwa [settle_of_pendingComma hcomma] at hvalue

/-- A byte after a complete value within a container. -/
theorem reacts_afterValue (hs : s.phase = .afterValue s.stack) (kind : Bracket) {fault : Fault}
    (hfault : fault ≠ .trailingComma) :
    Reacts s b
      (if Ascii.isSpace b then .accept s
      else if b = Ascii.comma then s.separate
      else if b = kind.closing then s.leave kind
      else s.fail fault b) := by
  split
  · next hb => exact .space (by rw [hs]; exact skips_afterValue s.stack) hb
  split
  · next hb => exact .past hs (reactsPast_separate hb)
  split
  · next hb => exact .past hs (reactsPast_leave hb)
  · refine reacts_fail hfault (delimitsNumber_eq_false ?_)
    intro p
    rw [hs]
    rcases s.stack with _ | ⟨_ | _, outer⟩ <;> nofun

theorem reacts_objectColon (hs : s.phase = .objectColon) :
    Reacts s b
      (if Ascii.isSpace b then .accept s
      else if b = Ascii.colon then .accept (s.move .objectValue)
      else s.fail .expectedColon b) := by
  split
  · next hb => exact .space (by rw [hs]; rfl) hb
  split
  · next hb => exact .colon hs hb
  · exact reacts_fail nofun (delimitsNumber_eq_false (by simp [hs]))

/-- The phases of coherent scanners after a complete value. -/
theorem Phase.eq_afterValue {stack : List Bracket} {phase : Phase} (h : phase.Fits stack)
    (hphase : phase = .objectRest ∨ phase = .arrayRest ∨ phase = .finished) :
    phase = .afterValue stack := by
  rcases hphase with rfl | rfl | rfl
  · rcases stack with _ | ⟨_ | _, outer⟩ <;> first | rfl | cases h
  · rcases stack with _ | ⟨_ | _, outer⟩ <;> first | rfl | cases h
  · cases h
    rfl

/-- **What a byte can make a coherent scanner do.** -/
theorem Coherent.reacts (h : s.Coherent) (b : UInt8) : Reacts s b (s.step b) := by
  have hfits := h.fits
  have hcomma := h.pendingComma_eq_none
  unfold step
  split
  · next role place hs => exact reacts_inText hs
  · next place hs => exact reacts_inNumber hs
  · next word owed hs => exact reacts_inWord hs
  · next hs => exact reacts_beforeKey hs (by rwa [hs] at hfits)
  · next hs => exact reacts_beforeItem hs (by rwa [hs] at hfits)
  · next hs => exact reacts_beforeValue (.inl hs) (hcomma (by simp [hs]) (by simp [hs])) nofun
  · next hs => exact reacts_objectColon hs
  · next hs => exact reacts_beforeValue (.inr hs) (hcomma (by simp [hs]) (by simp [hs])) nofun
  · next hs =>
      exact reacts_afterValue (Phase.eq_afterValue hfits (.inl hs)) .brace nofun
  · next hs =>
      exact reacts_afterValue (Phase.eq_afterValue hfits (.inr (.inl hs))) .square nofun
  · next hs =>
      split
      · next hb => exact .space (by rw [hs]; rfl) hb
      · exact reacts_fail nofun (delimitsNumber_eq_false (by simp [hs]))

/-! ### Coherence is kept -/

theorem ReactsPast.coherent {r : Reaction} {after : Scanner} (h : ReactsPast s b r)
    (hcomma : s.pendingComma = none) (hr : r.result = .ok after) : after.advance.Coherent := by
  cases h with
  | space hb =>
      cases hr
      exact .of_resume hcomma
  | @comma _ kind hkind =>
      cases hr
      refine .of_advance (Phase.fits_inside hkind) ?_ (by cases kind <;> intro p <;> nofun)
      intro hkey hitem
      cases kind
      · exact absurd rfl hkey
      · exact absurd rfl hitem
  | close hb hkind =>
      cases hr
      exact .of_resume (s := s.closed) hcomma
  | reject fault hfault comma => cases hr

/-- **Coherence is kept by every byte.** -/
theorem Reacts.coherent {r : Reaction} {after : Scanner} (h : Reacts s b r) (hs : s.Coherent)
    (hr : r.result = .ok after) : after.advance.Coherent := by
  have hcomma := hs.pendingComma_eq_none
  cases h with
  | space hskips hb =>
      cases hr
      refine .of_advance hs.fits hcomma ?_
      intro p hp
      rw [hp] at hskips
      cases hskips
  | @enter hvalue kind hb room hroom =>
      cases hr
      refine .of_advance (Phase.fits_inside rfl) (fun _ _ => rfl) ?_
      cases kind <;> nofun
  | leave hphase hpending hb hkind =>
      cases hr
      exact .of_resume (s := s.closed) hpending
  | beginString hvalue hb =>
      cases hr
      exact .of_advance trivial (fun _ _ => rfl) nofun
  | beginKey hphase hb =>
      cases hr
      refine .of_advance ?_ (fun _ _ => rfl) nofun
      have hfits := hs.fits
      rwa [hphase] at hfits
  | @text role place next hphase hb =>
      cases hr
      refine .of_advance ?_ (fun _ _ => hcomma (by simp [hphase]) (by simp [hphase])) nofun
      have hfits := hs.fits
      rw [hphase] at hfits
      cases role <;> exact hfits
  | string hphase hb =>
      cases hr
      exact .of_resume (hcomma (by simp [hphase]) (by simp [hphase]))
  | key hphase hb =>
      cases hr
      refine .of_advance ?_ (fun _ _ => hcomma (by simp [hphase]) (by simp [hphase])) nofun
      have hfits := hs.fits
      rwa [hphase] at hfits
  | colon hphase hb =>
      cases hr
      refine .of_advance ?_ (fun _ _ => hcomma (by simp [hphase]) (by simp [hphase])) nofun
      have hfits := hs.fits
      rwa [hphase] at hfits
  | @beginWord hvalue word hb =>
      cases hr
      refine .of_advance ?_ (fun _ _ => rfl) nofun
      cases word <;> nofun
  | letter hphase =>
      cases hr
      exact .of_advance nofun (fun _ _ => hcomma (by simp [hphase]) (by simp [hphase])) nofun
  | word hphase =>
      cases hr
      exact .of_resume (hcomma (by simp [hphase]) (by simp [hphase]))
  | beginNumber hvalue hb =>
      cases hr
      refine ⟨trivial, fun _ _ => rfl, ?_, nofun⟩
      rintro p ⟨⟩
      exact NumberPlace.reads_start hb
  | @digit p q hphase hb =>
      cases hr
      refine ⟨trivial, fun _ _ => hcomma (by simp [hphase]) (by simp [hphase]), ?_, nofun⟩
      rintro p ⟨⟩
      have hreads := (hs.reads _ hphase).next hb
      simpa using hreads
  | number hphase hp hnext =>
      exact hnext.coherent (hcomma (by simp [hphase]) (by simp [hphase])) hr
  | past hphase hpast =>
      refine hpast.coherent (hcomma ?_ ?_) hr <;>
      · rw [hphase]
        rcases s.stack with _ | ⟨_ | _, outer⟩ <;> nofun
  | trailingComma hpending hb => cases hr
  | reject fault hfault comma => cases hr

theorem Coherent.of_run (listen : Listener σ ε) (h : s.Coherent) {state state' : σ}
    {after : Scanner} (hrun : (s.step b).run listen s.consumed state = ⟨after, state', none⟩) :
    after.advance.Coherent :=
  (h.reacts b).coherent h (Reaction.result_of_run listen hrun)

/-- **Every scan leads from coherent scanners to coherent scanners.** -/
theorem Coherent.of_feed (listen : Listener σ ε) (h : s.Coherent) {x : Bytes} {state state' : σ}
    {after : Scanner} (hfeed : feed listen s state x = ⟨after, state', none⟩) : after.Coherent :=
  Scanner.of_feed listen (P := fun _ s _ => s.Coherent) (x := [])
    (fun _ _ _ _ _ _ hs hrun => hs.of_run listen hrun) h hfeed

/-- **What every byte that a coherent scanner accepts keeps, a scan keeps.**  The claim may speak of
the bytes so far. -/
theorem Coherent.kept_by_feed (listen : Listener σ ε) {P : Bytes → Scanner → Prop}
    (hs : s.Coherent) {x : Bytes} (hstart : P x s)
    (hstep : ∀ x t b next, t.Coherent → P x t → (t.step b).result = .ok next →
      P (x ++ [b]) next.advance)
    {y : Bytes} {state state' : σ} {after : Scanner}
    (h : feed listen s state y = ⟨after, state', none⟩) : P (x ++ y) after := by
  suffices hkept : after.Coherent ∧ P (x ++ y) after from hkept.2
  refine Scanner.of_feed listen (P := fun x t _ => t.Coherent ∧ P x t) ?_ ⟨hs, hstart⟩ h
  rintro x t state b next heard ⟨ht, hP⟩ hrun
  exact ⟨ht.of_run listen hrun, hstep x t b next ht hP (Reaction.result_of_run listen hrun)⟩

end

end DocCodec.Scanner
