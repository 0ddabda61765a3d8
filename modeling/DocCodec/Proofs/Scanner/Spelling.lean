/-
**The literals that a scanner hands out.**

Within a literal, a byte leads from one place to the next, or it may not stand there.  What a scanner
holds of a literal is a quotation mark and bytes that lead from its beginning to where it stands, in
every session with it, after errors too; so whatever is handed out with a key or a string leads to a
place between two characters.  Such bytes are letters of the grammar, and the places between two
characters are where a letter ends, so the letters are what the scanner has recognised.

The reader of literals goes through the same bytes by whole sequences, which it copies and skips.  It
agrees nonetheless, as a sequence has no byte of an escape in it: nothing but a surrogate out of its
pair is malformed for it, and nothing is lost but a sequence that the end cuts off.

Main definitions:

* `DocCodec.Scanner.TextPlace.reads` — where bytes lead within a literal;
* `DocCodec.Grammar.Letters.Recognised` — **whether a scanner tells letters apart as they are**;
* `DocCodec.Scanner.Journal.literals` — the literals of the events that were raised;
* `DocCodec.Scanner.Spelled` — whether a scanner has spelled all its literals.

Main results:

* `DocCodec.Scanner.exists_letters_of_reads` — bytes that lead to their end are letters;
* `DocCodec.Grammar.Letters.recognised` — letters are recognised;
* `DocCodec.Scanner.Spelled.handled` — **every byte keeps literals spelled**;
* `DocCodec.Scanner.Session.literals_are_read` — **scanner and reader agree on every literal**.
-/

import DocCodec.Assembly
import DocCodec.Proofs.Literal.Cutoff
import DocCodec.Proofs.Scanner.Session
import Mathlib.Data.List.Basic

set_option relaxedAutoImplicit false
set_option autoImplicit false

namespace DocCodec

theorem Grammar.Letter.length_bytes_pos (letter : Letter) : 0 < letter.bytes.length := by
  cases letter <;> exact Nat.succ_pos _

open Grammar (Letter Letters)

namespace Scanner

/-! ### The places that bytes lead to -/

/-- Where bytes lead within a literal, if all of them may stand there. -/
def TextPlace.reads (place : TextPlace) (bytes : Bytes) : Option TextPlace :=
  bytes.foldlM TextPlace.next? place

section

variable {place next : TextPlace}

theorem TextPlace.reads_cons (b : UInt8) (bytes : Bytes) :
    place.reads (b :: bytes) = (place.next? b).bind fun next => next.reads bytes := rfl

theorem TextPlace.reads_append {first : Bytes} (h : place.reads first = some next)
    (second : Bytes) : place.reads (first ++ second) = next.reads second := by
  rw [reads, List.foldlM_append]
  exact congrArg (Option.bind · _) h

theorem TextPlace.next?_backslash : TextPlace.plain.next? Ascii.backslash = some .escape := rfl

theorem TextPlace.next?_u : TextPlace.escape.next? (Ascii.byte 'u') = some (.digits 3) := rfl

/-- The digits of an escape that are still to come. -/
theorem TextPlace.reads_digits {more : Nat} {bytes : Bytes}
    (h : (TextPlace.digits more).reads bytes = some .plain) :
    ∃ digits rest, bytes = digits ++ rest ∧ digits.length = more + 1 ∧
      (∀ b ∈ digits, Hex.isDigit b = true) ∧ TextPlace.plain.reads rest = some .plain := by
  induction more generalizing bytes with
  | zero =>
      cases bytes with
      | nil => cases h
      | cons b bytes =>
          obtain ⟨next, hnext, hrest⟩ := Option.bind_eq_some_iff.1 h
          obtain ⟨hb, hnext⟩ := Option.ite_none_right_eq_some.1 hnext
          cases hnext
          exact ⟨[b], bytes, rfl, rfl, List.forall_mem_singleton.2 hb, hrest⟩
  | succ more ih =>
      cases bytes with
      | nil => cases h
      | cons b bytes =>
          obtain ⟨next, hnext, hrest⟩ := Option.bind_eq_some_iff.1 h
          obtain ⟨hb, hnext⟩ := Option.ite_none_right_eq_some.1 hnext
          cases hnext
          obtain ⟨digits, rest, rfl, hlength, hdigits, hplain⟩ := ih hrest
          exact ⟨b :: digits, rest, rfl, congrArg (· + 1) hlength,
            List.forall_mem_cons.2 ⟨hb, hdigits⟩, hplain⟩

theorem TextPlace.reads_of_digits {more : Nat} {digits : Bytes} (hlength : digits.length = more + 1)
    (hdigits : ∀ b ∈ digits, Hex.isDigit b = true) :
    (TextPlace.digits more).reads digits = some .plain := by
  obtain ⟨b, rest, rfl⟩ := List.exists_cons_of_length_eq_add_one hlength
  obtain ⟨hb, hrest⟩ := List.forall_mem_cons.1 hdigits
  have hlength' : rest.length = more := Nat.succ.inj hlength
  cases more with
  | zero =>
      obtain rfl := List.eq_nil_of_length_eq_zero hlength'
      simp [reads, next?, hb]
  | succ more =>
      rw [reads_cons, next?, if_pos hb]
      exact reads_of_digits hlength' hrest

/-- Bytes that lead from between two characters to such a place again begin with a letter. -/
theorem exists_letter_of_reads {b : UInt8} {bytes : Bytes}
    (h : TextPlace.plain.reads (b :: bytes) = some .plain) :
    ∃ (letter : Letter) (rest : Bytes), b :: bytes = letter.bytes ++ rest ∧
      TextPlace.plain.reads rest = some .plain := by
  rw [TextPlace.reads_cons] at h
  by_cases hback : b = Ascii.backslash
  · rw [hback, TextPlace.next?_backslash, Option.bind_some] at h
    cases bytes with
    | nil => cases h
    | cons e bytes =>
        rw [TextPlace.reads_cons] at h
        by_cases hescape : isEscapeLetter e = true
        · rw [TextPlace.next?, if_pos hescape] at h
          exact ⟨.escape e ((isEscapeLetter_iff e).1 hescape), bytes, by rw [hback]; rfl, h⟩
        · by_cases hu : e = Ascii.byte 'u'
          · rw [hu, TextPlace.next?_u, Option.bind_some] at h
            obtain ⟨digits, rest, rfl, hlength, hdigits, hrest⟩ := TextPlace.reads_digits h
            obtain ⟨p, q, r, s, rfl⟩ := List.length_eq_four.1 hlength
            exact ⟨.unit p q r s hdigits, rest, by rw [hback, hu]; rfl, hrest⟩
          · rw [TextPlace.next?, if_neg hescape, if_neg hu] at h
            cases h
  · by_cases hquote : b = Ascii.quote
    · rw [TextPlace.next?, if_pos hquote] at h
      cases h
    · rw [TextPlace.next?, if_neg hquote, if_neg hback] at h
      cases hcontrol : Ascii.isControl b with
      | true =>
          rw [hcontrol] at h
          cases h
      | false =>
          rw [hcontrol] at h
          exact ⟨.plain b ⟨(isControl_eq_false_iff b).1 hcontrol, hquote, hback⟩, bytes, rfl, h⟩

/-- **Bytes that lead to a place between two characters are letters.** -/
theorem exists_letters_of_reads {bytes : Bytes} (h : TextPlace.plain.reads bytes = some .plain) :
    ∃ letters : Letters, letters.bytes = bytes := by
  obtain ⟨n, hn⟩ : ∃ n, bytes.length = n := ⟨_, rfl⟩
  induction n using Nat.strongRecOn generalizing bytes with
  | ind n ih =>
      cases bytes with
      | nil => exact ⟨[], rfl⟩
      | cons b bytes =>
          obtain ⟨letter, rest, heq, hrest⟩ := exists_letter_of_reads h
          have hlt : rest.length < n := by
            rw [← hn, heq, List.length_append]
            exact Nat.lt_add_of_pos_left letter.length_bytes_pos
          obtain ⟨letters, rfl⟩ := ih _ hlt hrest rfl
          exact ⟨letter :: letters, by rw [heq, Letters.bytes_cons]⟩

/-- A letter leads from between two characters to such a place. -/
theorem reads_letter (letter : Letter) : TextPlace.plain.reads letter.bytes = some .plain := by
  cases letter with
  | plain b ok =>
      have hcontrol := (isControl_eq_false_iff b).2 ok.1
      simp [Letter.bytes, TextPlace.reads, TextPlace.next?, ok.2.1, ok.2.2, hcontrol]
  | escape letter ok =>
      have hescape := (isEscapeLetter_iff letter).2 ok
      rw [Letter.bytes, TextPlace.reads_cons, TextPlace.next?_backslash, Option.bind_some,
        TextPlace.reads_cons, TextPlace.next?, if_pos hescape]
      rfl
  | unit a b c d ok => exact TextPlace.reads_of_digits rfl ok

/-- Within a letter there is no place between two characters. -/
theorem eq_of_reads_part {letter : Letter} {part : Bytes} (hpart : part <+: letter.bytes)
    (hne : part ≠ []) (h : TextPlace.plain.reads part = some .plain) : part = letter.bytes := by
  obtain ⟨b, bytes, rfl⟩ := List.exists_cons_of_ne_nil hne
  cases letter with
  | plain byte ok =>
      obtain ⟨rfl, hbytes⟩ := List.cons_prefix_cons.1 hpart
      rw [List.prefix_nil.1 hbytes]
      rfl
  | escape letter ok =>
      obtain ⟨rfl, hbytes⟩ := List.cons_prefix_cons.1 hpart
      cases bytes with
      | nil => cases h
      | cons c bytes =>
          obtain ⟨rfl, hrest⟩ := List.cons_prefix_cons.1 hbytes
          rw [List.prefix_nil.1 hrest]
          rfl
  | unit p q r s ok =>
      obtain ⟨rfl, hbytes⟩ := List.cons_prefix_cons.1 hpart
      cases bytes with
      | nil => cases h
      | cons c bytes =>
          obtain ⟨rfl, hdigits⟩ := List.cons_prefix_cons.1 hbytes
          obtain ⟨digits, rest, rfl, hlength, -⟩ := TextPlace.reads_digits h
          have hle : [p, q, r, s].length ≤ (digits ++ rest).length := by
            rw [List.length_append, hlength]
            exact Nat.le_add_right 4 _
          rw [hdigits.eq_of_length_le hle]
          rfl

end

end Scanner

/-! ### Letters that are recognised -/

namespace Grammar.Letters

open Scanner (TextPlace)

/-- **Whether a scanner tells letters apart as they are**: within their text it stands between two
characters exactly where one of them ends. -/
def Recognised (letters : Letters) : Prop :=
  ∀ part, part <+: letters.bytes →
    (TextPlace.plain.reads part = some .plain ↔
      ∃ first, first <+: letters ∧ part = Letters.bytes first)

/-- **Letters are recognised.** -/
theorem recognised (letters : Letters) : letters.Recognised := by
  induction letters with
  | nil =>
      intro part hpart
      rw [List.prefix_nil.1 hpart]
      exact ⟨fun _ => ⟨[], List.prefix_rfl, rfl⟩, fun _ => rfl⟩
  | cons letter letters ih =>
      intro part hpart
      rw [bytes_cons] at hpart
      constructor
      · intro h
        by_cases hne : part = []
        · exact ⟨[], List.nil_prefix, hne⟩
        rcases List.prefix_or_prefix_of_prefix hpart (List.prefix_append ..) with hin | ⟨more, rfl⟩
        · refine ⟨[letter], by simp, ?_⟩
          rw [Scanner.eq_of_reads_part hin hne h]
          simp
        · rw [TextPlace.reads_append (Scanner.reads_letter letter)] at h
          obtain ⟨first, hfirst, rfl⟩ := (ih more ((List.prefix_append_right_inj _).1 hpart)).1 h
          exact ⟨letter :: first, List.cons_prefix_cons.2 ⟨rfl, hfirst⟩, (bytes_cons ..).symm⟩
      · rintro ⟨first, hfirst, rfl⟩
        cases first with
        | nil => rfl
        | cons found first =>
            obtain ⟨rfl, hmore⟩ := List.cons_prefix_cons.1 hfirst
            rw [bytes_cons] at hpart ⊢
            rw [TextPlace.reads_append (Scanner.reads_letter found)]
            exact (ih _ ((List.prefix_append_right_inj _).1 hpart)).2 ⟨first, hmore, rfl⟩

end Grammar.Letters

namespace Scanner

variable {σ ε : Type}

/-! ### Literals that are handed out -/

/-- The literal of an event that is raised. -/
def Mark.literal? : Mark → Option Bytes
  | .raised event _ => event.literal?
  | .taken _ => none

/-- **The literals of the events that were raised**, in order. -/
def Journal.literals (journal : Journal) : List Bytes := journal.filterMap Mark.literal?

theorem Journal.literals_append (first second : Journal) :
    literals (first ++ second) = literals first ++ literals second := List.filterMap_append

/-- **Whether a scanner has spelled all its literals**: those in the journal lead to a place between
two characters, and what it holds of another leads to where it stands. -/
structure Spelled (s : Scanner) (journal : Journal) : Prop where
  holds : ∀ role place, s.phase = .text role place →
    ∃ bytes, s.text.toList = Ascii.quote :: bytes ∧ TextPlace.plain.reads bytes = some place
  handed : ∀ raw ∈ journal.literals,
    ∃ bytes, raw = Ascii.quote :: bytes ∧ TextPlace.plain.reads bytes = some .plain

namespace Spelled

variable {s t : Scanner} {journal : Journal}

theorem start (bound : Nat) : Spelled { room := bound } [] where
  holds := nofun
  handed := nofun

/-- Apart from literals nothing is spelled. -/
theorem apart (h : Spelled s journal) (ht : t.literal? = none) : Spelled t journal where
  holds role place hphase := by
    rw [literal?_of_text hphase] at ht
    cases ht
  handed := h.handed

/-- What is not the event of a literal does not matter. -/
theorem snoc (h : Spelled s journal) {mark : Mark} (hmark : mark.literal? = none) :
    Spelled s (journal ++ [mark]) where
  holds := h.holds
  handed := by
    have hnone : Journal.literals [mark] = [] := by simp [Journal.literals, hmark]
    rw [Journal.literals_append, hnone, List.append_nil]
    exact h.handed

/-- The event of a literal that is complete. -/
theorem literal (h : Spelled s journal) {role : Role} (hs : s.phase = .text role .plain)
    {mark : Mark} (hmark : mark.literal? = some s.text.toList) : Spelled s (journal ++ [mark]) where
  holds := h.holds
  handed := by
    have hone : Journal.literals [mark] = [s.text.toList] := by simp [Journal.literals, hmark]
    rw [Journal.literals_append, hone]
    intro raw hraw
    rcases List.mem_append.1 hraw with hraw | hraw
    · exact h.handed raw hraw
    · rw [List.mem_singleton.1 hraw]
      exact h.holds role .plain hs

/-- A byte that has been processed. -/
theorem advance (h : Spelled s journal) (b : UInt8) : Spelled s.advance (journal ++ [.taken b]) :=
  ⟨h.holds, (h.snoc rfl).handed⟩

/-- A literal that begins, goes on or is left alone raises no event. -/
theorem silent (h : Spelled t journal) (offset : Nat) : Spelled t (journal ++ marks offset []) := by
  rw [marks, List.map_nil, List.append_nil]
  exact h

/-- **Every byte keeps literals spelled**, however it ends. -/
theorem handled (h : Spelled s journal) {b : UInt8} {r : Reaction} (hr : Handles s b r) :
    r.Always fun after events => Spelled after (journal ++ marks s.consumed events) := by
  induction hr generalizing journal with
  | reject error comma =>
      have hrejected : Spelled (s.withComma comma) journal := ⟨h.holds, h.handed⟩
      exact hrejected.silent _
  | pass hs hbeside hafter => exact (h.apart hafter).silent _
  | @quote hs hb role comma =>
      refine silent ⟨?_, h.handed⟩ _
      intro found place hphase
      cases hphase
      exact ⟨[], by rw [hb]; rfl, rfl⟩
  | @text role place next hs hb =>
      refine silent ⟨?_, h.handed⟩ _
      intro found place' hphase
      cases hphase
      obtain ⟨bytes, htext, hreads⟩ := h.holds role place hs
      refine ⟨bytes ++ [b], ?_, ?_⟩
      · rw [Array.toList_push, htext]
        rfl
      · rw [TextPlace.reads_append hreads, TextPlace.reads_cons, hb]
        rfl
  | @literal role hs event hevent after hbeside hafter =>
      have hmark : (Mark.raised event s.consumed).literal? = some s.text.toList := by
        rcases hevent with rfl | rfl <;> rfl
      have hraised := h.literal hs hmark
      exact ⟨hraised, hraised.apart hafter⟩
  | @scalar hs token raw hevent next hnext ih =>
      have hraised : Spelled s (journal ++ [.raised (.scalar token raw) s.consumed]) := h.snoc hevent
      have hrest := ih hraised
      simp only [List.append_assoc] at hrest
      exact ⟨hraised, hrest⟩
  | @enter hs kind room hroom comma =>
      have hraised : Spelled s (journal ++ [.raised (.enter kind) s.consumed]) := h.snoc rfl
      have hinside : (((s.withComma comma).opened kind room).move (.inside kind)).literal? = none :=
        literal?_of_inside rfl
      exact ⟨hraised.apart hs, hraised.apart hinside⟩
  | @leave hs kind hkind =>
      have hraised : Spelled s (journal ++ [.raised (.leave kind) s.consumed]) := h.snoc rfl
      exact ⟨hraised.apart hs, hraised.apart s.closed.literal?_resume⟩

end Spelled

/-- A string has no other fault than a malformed escape. -/
theorem scalar_string_eq_error_iff (raw : Bytes) (error : DecodeError) :
    Assembly.scalar .string raw = .error error ↔
      error = .malformedEscape ∧ Literal.decode? raw = none := by
  unfold Assembly.scalar
  cases Literal.decode? raw with
  | none => simp [eq_comm]
  | some content => simp

open Utf8 (FinalRun)

/-- **Scanner and reader agree on every literal** that is handed out, whatever is refused and whatever
is asked for after errors.  It consists of letters, which the scanner has recognised.  It is malformed
for the reader, and has no other fault, if a surrogate is out of its pair; else all that it denotes is
read but a sequence that its end cuts off. -/
theorem Session.literals_are_read (bound : Nat) (state : σ) (requests : List (Request σ ε)) :
    ∀ raw ∈ ((Session.start bound state).serve requests).journal.literals,
      ∃ letters : Letters, raw = letters.raw ∧ letters.Recognised ∧
        (Literal.decode? raw = none ↔ letters.Unpaired) ∧
        (∀ error, Assembly.scalar .string raw = .error error ↔
          error = .malformedEscape ∧ letters.Unpaired) ∧
        ∀ content, Literal.decode? raw = some content ↔
          ∃ run, letters.Denotes (content ++ run) ∧ FinalRun raw run := by
  intro raw hraw
  have hstart : Spelled (Session.start bound state).scanner (Session.start bound state).journal :=
    .start bound
  have hspelled := Session.kept (P := Spelled) (fun _ _ _ _ h hr => h.handled hr)
    (fun _ _ b h => h.advance b) hstart requests
  obtain ⟨bytes, hquote, hreads⟩ := hspelled.handed raw hraw
  obtain ⟨letters, rfl⟩ := exists_letters_of_reads hreads
  obtain rfl : raw = letters.raw := hquote
  have hmalformed : Literal.decode? letters.raw = none ↔ letters.Unpaired := by
    rw [← Letters.paired_eq_false_iff, ← Letters.isSome_decode?_raw, Option.isSome_eq_false_iff,
      Option.isNone_iff_eq_none]
  refine ⟨letters, rfl, letters.recognised, hmalformed, ?_, letters.decode?_raw_iff⟩
  intro error
  rw [scalar_string_eq_error_iff, hmalformed]

/-- The last code point as a surrogate pair, a byte that begins no sequence, a sequence, a lead byte in
front of an escape, which is not skipped with it, and a sequence that is cut off, handed out again
after it was refused. -/
theorem Session.literals_are_read_last :
    let raw : Bytes := [0x22, 0x5C, 0x75, 0x64, 0x62, 0x66, 0x66, 0x5C, 0x75, 0x64, 0x66, 0x66, 0x66,
      0x80, 0xC3, 0xA9, 0xE2, 0x5C, 0x6E, 0xE2, 0x82]
    let refusing : Listener Unit Unit := fun _ _ _ => ((), some ())
    let heeding : Listener Unit Unit := fun _ _ _ => ((), none)
    let requests := [.part refusing (raw ++ [0x22]), .part heeding [0x22]]
    raw ∈ ((Session.start 1 ()).serve requests).journal.literals ∧
      ∃ letters : Letters, raw = letters.raw ∧ letters.Recognised ∧
        (Literal.decode? raw = none ↔ letters.Unpaired) ∧
        (∀ error, Assembly.scalar .string raw = .error error ↔
          error = .malformedEscape ∧ letters.Unpaired) ∧
        ∀ content, Literal.decode? raw = some content ↔
          ∃ run, letters.Denotes (content ++ run) ∧ FinalRun raw run := by
  intro raw refusing heeding requests
  have hraw : raw ∈ ((Session.start 1 ()).serve requests).journal.literals := by decide
  exact ⟨hraw, Session.literals_are_read 1 () requests raw hraw⟩

end Scanner

end DocCodec
