/-
**Numbers under the scanner.**

From each of its places a number may go on in certain ways until it is complete: these are the
language of the place.  The languages are put together from single bytes and runs of digits, and
one byte takes the language of a place to the language of the next place, which is how the
automaton of a number and the grammar of numbers come to agree.

The scanner learns that a number is complete only from the byte after it.  At such a byte the number
is reported, and the scan goes on as if the number had ended before.

Main definitions:

* `DocCodec.Scanner.NumberPlace.Lang` — **the language of a place**;
* `DocCodec.Scanner.EndsNumber` — what may stand after a number.

Main results:

* `DocCodec.Scanner.NumberPlace.lang_cons` — one byte takes a place to the next;
* `DocCodec.Scanner.NumberPlace.exists_number_iff` — **the automaton accepts the numbers of the
  grammar**;
* `DocCodec.Scanner.verdict_number` — a number is one event;
* `DocCodec.Scanner.exists_lang_of_ok` — within a number, a text that is accepted goes on with the
  rest of a number.
-/

import DocCodec.Proofs.Scanner.Verdict

set_option relaxedAutoImplicit false
set_option autoImplicit false

namespace DocCodec.Scanner

open Grammar (IsDigits IsWhole)

/-! ### Classes of bytes within a number -/

theorem mark_class {b : UInt8} (h : Ascii.isExponentMark b = true) :
    Ascii.isDigit b = false ∧ b ≠ Ascii.point ∧ b ≠ Ascii.zero := by
  simp only [Ascii.isExponentMark, Bool.or_eq_true, beq_iff_eq] at h
  rcases h with rfl | rfl <;> decide

theorem sign_class {b : UInt8} (h : Ascii.isSign b = true) : Ascii.isDigit b = false := by
  simp only [Ascii.isSign, Bool.or_eq_true, beq_iff_eq] at h
  rcases h with rfl | rfl <;> decide

theorem digit_class {b : UInt8} (h : Ascii.isDigit b = true) :
    Ascii.isExponentMark b = false ∧ b ≠ Ascii.point ∧ Ascii.isSign b = false := by
  refine ⟨?_, ?_, ?_⟩
  · cases hb : Ascii.isExponentMark b with
    | false => rfl
    | true => rw [(mark_class hb).1] at h; cases h
  · rintro rfl
    cases h
  · cases hb : Ascii.isSign b with
    | false => rfl
    | true => rw [sign_class hb] at h; cases h

namespace NumberPlace

/-! ### Languages -/

/-- A byte of a class, and then a text of a language. -/
def One (class? : UInt8 → Bool) (L : Bytes → Prop) (text : Bytes) : Prop :=
  ∃ b rest, text = b :: rest ∧ class? b = true ∧ L rest

/-- Digits, as many as one likes, and then a text of a language. -/
def Run (L : Bytes → Prop) (text : Bytes) : Prop :=
  ∃ digits rest, text = digits ++ rest ∧ (∀ b ∈ digits, Ascii.isDigit b = true) ∧ L rest

/-- Digits, one at least, and then a text of a language. -/
def Digits (L : Bytes → Prop) : Bytes → Prop := One Ascii.isDigit (Run L)

/-- What follows an exponent mark. -/
def Exponential (text : Bytes) : Prop :=
  One Ascii.isSign (Digits (· = [])) text ∨ Digits (· = []) text

/-- What follows the digits after a point. -/
def Scaled (text : Bytes) : Prop := text = [] ∨ One Ascii.isExponentMark Exponential text

/-- What follows an integer part. -/
def Pointed (text : Bytes) : Prop := Scaled text ∨ One (· == Ascii.point) (Digits Scaled) text

/-- **The language of a place**: how a number may go on from there. -/
def Lang : NumberPlace → Bytes → Prop
  | sign, text =>
    One (· == Ascii.zero) Pointed text ∨
      One (fun b => Ascii.isDigit b && b != Ascii.zero) (Run Pointed) text
  | zero, text => Pointed text
  | integer, text => Run Pointed text
  | point, text => Digits Scaled text
  | fraction, text => Run Scaled text
  | mark, text => Exponential text
  | markSign, text => Digits (· = []) text
  | exponent, text => Run (· = []) text

@[simp] theorem one_nil (class? : UInt8 → Bool) (L : Bytes → Prop) : ¬ One class? L [] := by
  rintro ⟨b, rest, h, -⟩
  cases h

@[simp] theorem one_cons (class? : UInt8 → Bool) (L : Bytes → Prop) (b : UInt8) (text : Bytes) :
    One class? L (b :: text) ↔ class? b = true ∧ L text := by
  constructor
  · rintro ⟨b, rest, h, hb, hrest⟩
    cases h
    exact ⟨hb, hrest⟩
  · rintro ⟨hb, hrest⟩
    exact ⟨b, text, rfl, hb, hrest⟩

@[simp] theorem run_nil (L : Bytes → Prop) : Run L [] ↔ L [] := by
  constructor
  · rintro ⟨digits, rest, h, -, hrest⟩
    obtain ⟨-, rfl⟩ := List.append_eq_nil_iff.1 h.symm
    exact hrest
  · intro h
    exact ⟨[], [], rfl, by simp, h⟩

@[simp] theorem run_cons (L : Bytes → Prop) (b : UInt8) (text : Bytes) :
    Run L (b :: text) ↔ L (b :: text) ∨ Ascii.isDigit b = true ∧ Run L text := by
  constructor
  · rintro ⟨digits, rest, h, hdigits, hrest⟩
    cases digits with
    | nil => exact .inl (by rwa [h])
    | cons d digits =>
        cases h
        refine .inr ⟨hdigits _ (by simp), digits, rest, rfl, ?_, hrest⟩
        exact fun b hb => hdigits b (by simp [hb])
  · rintro (h | ⟨hb, digits, rest, rfl, hdigits, hrest⟩)
    · exact ⟨[], b :: text, rfl, by simp, h⟩
    · exact ⟨b :: digits, rest, rfl, by simpa using ⟨hb, hdigits⟩, hrest⟩

/-- The places where a number may end are those whose language has the empty text. -/
@[simp] theorem lang_nil (p : NumberPlace) : Lang p [] ↔ p.isComplete = true := by
  cases p <;> simp [Lang, isComplete, Pointed, Scaled, Digits, Exponential]

/-- A move that is one of two, taken apart. -/
theorem exists_move_iff {c : Prop} [Decidable c] {p : NumberPlace} {move : Option NumberPlace}
    {P : NumberPlace → Prop} :
    (∃ q, (if c then some p else move) = some q ∧ P q) ↔
      c ∧ P p ∨ ¬c ∧ ∃ q, move = some q ∧ P q := by
  by_cases h : c <;> simp [h]

/-- **One byte takes the language of a place to the language of the next place.** -/
theorem lang_cons (p : NumberPlace) (b : UInt8) (text : Bytes) :
    Lang p (b :: text) ↔ ∃ q, p.next? b = some q ∧ Lang q text := by
  have hdigit := @digit_class b
  have hmark := @mark_class b
  have hsign := @sign_class b
  have hpoint : b = Ascii.point → Ascii.isDigit b = false := by rintro rfl; rfl
  cases p <;>
    simp only [Lang, next?, exists_move_iff, Pointed, Scaled, Exponential, Digits, one_cons,
      run_cons, beq_iff_eq, reduceCtorEq, false_or, false_and, exists_false, and_false, or_false,
      Bool.and_eq_true, bne_iff_ne] <;>
    grind

/-! ### The numbers of the grammar -/

theorem digits_iff (L : Bytes → Prop) (text : Bytes) :
    Digits L text ↔ ∃ digits rest, text = digits ++ rest ∧ IsDigits digits ∧ L rest := by
  constructor
  · rintro ⟨b, _, rfl, hb, digits, rest, rfl, hdigits, hrest⟩
    exact ⟨b :: digits, rest, rfl, ⟨by simp, by simpa using ⟨hb, hdigits⟩⟩, hrest⟩
  · rintro ⟨digits, rest, rfl, ⟨hne, hdigits⟩, hrest⟩
    obtain ⟨b, digits, rfl⟩ := List.exists_cons_of_ne_nil hne
    rw [List.forall_mem_cons] at hdigits
    exact ⟨b, digits ++ rest, rfl, hdigits.1, digits, rest, rfl, hdigits.2, hrest⟩

theorem scaled_iff (text : Bytes) :
    Scaled text ↔ ∃ exponent : Option Grammar.Exponent,
      text = exponent.elim [] Grammar.Exponent.bytes := by
  constructor
  · rintro (rfl | ⟨mark, rest, rfl, hmark, hrest⟩)
    · exact ⟨none, rfl⟩
    · rcases hrest with ⟨sign, rest, rfl, hsign, hrest⟩ | hrest
      · obtain ⟨digits, _, rfl, hdigits, rfl⟩ := (digits_iff _ _).1 hrest
        exact ⟨some ⟨mark, some sign, digits, hmark, by simpa using hsign, hdigits⟩,
          by simp [Grammar.Exponent.bytes]⟩
      · obtain ⟨digits, _, rfl, hdigits, rfl⟩ := (digits_iff _ _).1 hrest
        exact ⟨some ⟨mark, none, digits, hmark, by simp, hdigits⟩,
          by simp [Grammar.Exponent.bytes]⟩
  · rintro ⟨_ | ⟨mark, sign, digits, hmark, hsign, hdigits⟩, rfl⟩
    · exact .inl rfl
    · have hrest : Digits (· = []) digits := (digits_iff _ _).2 ⟨digits, [], by simp, hdigits, rfl⟩
      cases sign with
      | none => exact .inr ⟨mark, digits, rfl, hmark, .inr hrest⟩
      | some sign =>
          refine .inr ⟨mark, sign :: digits, rfl, hmark, .inl ?_⟩
          exact ⟨sign, digits, rfl, hsign _ rfl, hrest⟩

theorem pointed_iff (text : Bytes) :
    Pointed text ↔ ∃ (places : Option Bytes) (exponent : Option Grammar.Exponent),
      text = places.elim [] (Ascii.point :: ·) ++ exponent.elim [] Grammar.Exponent.bytes ∧
        ∀ digits ∈ places, IsDigits digits := by
  constructor
  · rintro (h | ⟨b, rest, rfl, hb, hrest⟩)
    · obtain ⟨exponent, rfl⟩ := (scaled_iff _).1 h
      exact ⟨none, exponent, rfl, by simp⟩
    · obtain ⟨digits, rest, rfl, hdigits, hrest⟩ := (digits_iff _ _).1 hrest
      obtain ⟨exponent, rfl⟩ := (scaled_iff _).1 hrest
      exact ⟨some digits, exponent, by simpa using hb, by simpa using hdigits⟩
  · rintro ⟨_ | digits, exponent, rfl, hdigits⟩
    · exact .inl ((scaled_iff _).2 ⟨exponent, rfl⟩)
    · refine .inr ⟨Ascii.point, _, rfl, rfl, (digits_iff _ _).2 ⟨digits, _, rfl, hdigits _ rfl, ?_⟩⟩
      exact (scaled_iff _).2 ⟨exponent, rfl⟩

theorem lang_sign_iff (text : Bytes) :
    Lang sign text ↔ ∃ whole rest, text = whole ++ rest ∧ IsWhole whole ∧ Pointed rest := by
  constructor
  · rintro (⟨b, rest, rfl, hb, hrest⟩ | ⟨b, _, rfl, hb, digits, rest, rfl, hdigits, hrest⟩)
    · exact ⟨[b], rest, rfl, .inl (by simpa using hb), hrest⟩
    · rw [Bool.and_eq_true, bne_iff_ne] at hb
      exact ⟨b :: digits, rest, rfl, .inr ⟨b, digits, rfl, hb.1, hb.2, hdigits⟩, hrest⟩
  · rintro ⟨_, rest, rfl, rfl | ⟨b, digits, rfl, hb, hzero, hdigits⟩, hrest⟩
    · exact .inl ⟨Ascii.zero, rest, rfl, rfl, hrest⟩
    · exact .inr ⟨b, digits ++ rest, rfl, by simp [hb, hzero], digits, rest, rfl, hdigits, hrest⟩

/-- A sign goes on with an unsigned number. -/
theorem exists_unsigned_iff (negative : Bool) (text : Bytes) :
    Lang sign text ↔ ∃ n : Grammar.Number, n.negative = negative ∧ n.unsigned = text := by
  rw [lang_sign_iff]
  constructor
  · rintro ⟨whole, rest, rfl, hwhole, hrest⟩
    obtain ⟨places, exponent, rfl, hplaces⟩ := (pointed_iff _).1 hrest
    exact ⟨⟨negative, whole, places, exponent, hwhole, hplaces⟩, rfl, rfl⟩
  · rintro ⟨n, -, rfl⟩
    exact ⟨n.whole, _, rfl, n.isWhole_whole,
      (pointed_iff _).2 ⟨n.places, n.exponent, rfl, n.isDigits_of_mem⟩⟩

/-- Without a minus sign a number starts like the rest of a signed one. -/
theorem start?_of_ne_minus {b : UInt8} (h : b ≠ Ascii.minus) : start? b = sign.next? b := by
  simp [start?, next?, h]

/-- **The automaton accepts the numbers of the grammar.** -/
theorem exists_number_iff (b : UInt8) (text : Bytes) :
    (∃ p, start? b = some p ∧ Lang p text) ↔ ∃ n : Grammar.Number, n.bytes = b :: text := by
  -- The first byte tells whether there is a sign; after it both kinds of numbers go on alike.
  by_cases hb : b = Ascii.minus
  · subst hb
    have hnot : ¬ Lang sign (Ascii.minus :: text) := by
      rw [lang_cons]
      rintro ⟨q, hq, -⟩
      cases hq
    constructor
    · rintro ⟨p, hp, htext⟩
      cases hp
      obtain ⟨n, hn, rfl⟩ := (exists_unsigned_iff true _).1 htext
      exact ⟨n, by simp [Grammar.Number.bytes, hn]⟩
    · rintro ⟨n, hn⟩
      cases hneg : n.negative with
      | false =>
          refine absurd ((exists_unsigned_iff false _).2 ⟨n, hneg, ?_⟩) hnot
          simpa [Grammar.Number.bytes, hneg] using hn
      | true =>
          refine ⟨sign, rfl, (exists_unsigned_iff true _).2 ⟨n, hneg, ?_⟩⟩
          simpa [Grammar.Number.bytes, hneg] using hn
  · rw [start?_of_ne_minus hb, ← lang_cons]
    constructor
    · intro h
      obtain ⟨n, hn, hbytes⟩ := (exists_unsigned_iff false _).1 h
      exact ⟨n, by simp [Grammar.Number.bytes, hn, hbytes]⟩
    · rintro ⟨n, hn⟩
      cases hneg : n.negative with
      | false =>
          refine (exists_unsigned_iff false _).2 ⟨n, hneg, ?_⟩
          simpa [Grammar.Number.bytes, hneg] using hn
      | true =>
          have hhead : Ascii.minus = b := by
            rw [Grammar.Number.bytes, hneg] at hn
            exact (List.cons.inj hn).1
          exact absurd hhead.symm hb

/-- A number has a byte. -/
theorem exists_number_start (n : Grammar.Number) :
    ∃ b text p, n.bytes = b :: text ∧ start? b = some p ∧ Lang p text := by
  have hne : n.bytes ≠ [] := by
    intro h
    obtain ⟨-, hunsigned⟩ := List.append_eq_nil_iff.1 h
    obtain ⟨hwhole, -⟩ := List.append_eq_nil_iff.1 hunsigned
    rcases n.isWhole_whole with h | ⟨_, _, h, -⟩ <;> rw [hwhole] at h <;> cases h
  obtain ⟨b, text, h⟩ := List.exists_cons_of_ne_nil hne
  obtain ⟨p, hp, htext⟩ := (exists_number_iff b text).2 ⟨n, h⟩
  exact ⟨b, text, p, h, hp, htext⟩

end NumberPlace

/-- The scanner and the grammar agree on the kind of a number. -/
theorem numberToken_bytes (n : Grammar.Number) : numberToken n.bytes = n.token := by
  unfold numberToken Grammar.Number.token
  congr 1
  simp only [List.any_eq_true, Bool.or_eq_true, beq_iff_eq, Ascii.isExponentMark, eq_iff_iff]
  constructor
  · rintro ⟨b, hb, rfl | rfl | rfl⟩
    · exact .inl hb
    · exact .inr (.inl hb)
    · exact .inr (.inr hb)
  · rintro (h | h | h)
    · exact ⟨_, h, .inl rfl⟩
    · exact ⟨_, h, .inr (.inl rfl)⟩
    · exact ⟨_, h, .inr (.inr rfl)⟩

/-! ### The end of a number -/

/-- What may stand after a number, given the kinds of the open containers, innermost first: white
space, a comma within a container, the closing bracket of the innermost one, or the end of the text
if none is open. -/
def EndsNumber (stack : List Bracket) : Bytes → Prop
  | [] => stack = []
  | b :: _ =>
    Ascii.isSpace b = true ∨ b = Ascii.comma ∧ stack ≠ [] ∨ ∃ kind ∈ stack.head?, b = kind.closing

/-- No byte that may stand after a number continues one. -/
theorem next?_of_endsNumber {stack : List Bracket} {b : UInt8} {rest : Bytes}
    (h : EndsNumber stack (b :: rest)) (p : NumberPlace) : p.next? b = none := by
  have hb : b ∈ [0x20, 0x09, 0x0A, 0x0D, Ascii.comma, Ascii.closeBrace, Ascii.closeSquare] := by
    rcases h with h | ⟨rfl, -⟩ | ⟨kind, -, rfl⟩
    · simp only [Ascii.isSpace, Bool.or_eq_true, beq_iff_eq] at h
      rcases h with ((rfl | rfl) | rfl) | rfl <;> decide
    · decide
    · cases kind <;> decide
  simp only [List.mem_cons, List.not_mem_nil, or_false] at hb
  rcases hb with rfl | rfl | rfl | rfl | rfl | rfl | rfl <;> cases p <;> rfl

variable {σ ε : Type}

/-- A byte after a number has the number reported, and is then read as a byte after a value. -/
theorem outcome_step_number (listen : Listener σ ε) {s : Scanner} {p : NumberPlace}
    (hs : s.phase = .number p) (hp : p.isComplete = true) {b : UInt8} {rest : Bytes}
    (hb : EndsNumber s.stack (b :: rest)) (offset : Nat) (state : σ) :
    ((s.step b).run listen offset state).outcome =
      hear listen state (.scalar (numberToken s.text.toList) s.text.toList) offset >>= fun state =>
        ((s.resume.step b).run listen offset state).outcome := by
  have hnext := next?_of_endsNumber hb p
  have hresume : s.resume.phase = .afterValue s.resume.stack := rfl
  rcases hb with hb | ⟨rfl, hstack⟩ | ⟨kind, hkind, rfl⟩
  · have hcomma : b ≠ Ascii.comma := by rintro rfl; cases hb
    have hskips : s.resume.phase.skips = true := by
      rw [hresume]
      rcases s.resume.stack with _ | ⟨_ | _, _⟩ <;> rfl
    have hstep : s.step b = .raise (.scalar (numberToken s.text.toList) s.text.toList) s
        (.accept s.resume) := by
      simp [step, hs, inNumber, hnext, hp, hb, hcomma]
    rw [hstep, step_space hskips hb, outcome_raise]
  · have hstep : s.step Ascii.comma = .raise (.scalar (numberToken s.text.toList) s.text.toList) s
        s.separate := by
      simp [step, hs, inNumber, hnext, hp]
    have hsame : s.separate = s.resume.separate := by
      cases h : s.stack with
      | nil => exact absurd h hstack
      | cons top outer => cases top <;> simp [separate, resume, h]
    rw [hstep, step_comma hresume hstack, hsame, outcome_raise]
  · have hstep : s.step kind.closing =
        .raise (.scalar (numberToken s.text.toList) s.text.toList) s (s.leave kind) := by
      rw [step, hs]
      cases kind <;> simp only [inNumber, hnext, hp] <;> rfl
    rw [hstep, step_closing hresume hkind, leave_eq hkind, leave_eq (s := s.resume) hkind]
    simp only [outcome_raise]
    rfl

/-- A number that is complete is reported where it ends. -/
theorem verdict_number_end (listen : Listener σ ε) {s : Scanner} {p : NumberPlace}
    (hs : s.phase = .number p) (hp : p.isComplete = true) (hconsumed : s.consumed ≠ 0)
    {rest : Bytes} (hrest : EndsNumber s.stack rest) (state : σ) :
    verdict listen s state rest =
      hear listen state (.scalar (numberToken s.text.toList) s.text.toList) s.consumed >>=
        fun state => verdict listen s.resume state rest := by
  cases rest with
  | nil =>
      change s.stack = [] at hrest
      have hfinish : s.finish = .raise (.scalar (numberToken s.text.toList) s.text.toList) s
          (.accept s.resume) := by
        simp [finish, hs, hp, hconsumed, hrest, resume, Phase.afterValue]
      have hresume : s.resume.finish = .accept s.resume := by
        simp [finish, resume, hrest, hconsumed, Phase.afterValue]
      rw [verdict_nil, hfinish, outcome_raise, bind_assoc]
      simp only [verdict_nil, hresume]
      rfl
  | cons b rest =>
      rw [verdict_cons, outcome_step_number listen hs hp hrest, bind_assoc]
      simp only [verdict_cons]
      rfl

/-! ### Taking a token in -/

/-- A scanner that has taken some bytes into the text of a token. -/
def take (s : Scanner) (bytes : Bytes) : Scanner :=
  { s with text := s.text ++ bytes, consumed := s.consumed + bytes.length }

section

variable (s : Scanner) (bytes : Bytes)

@[simp] theorem phase_take : (s.take bytes).phase = s.phase := rfl

@[simp] theorem consumed_take : (s.take bytes).consumed = s.consumed + bytes.length := rfl

@[simp] theorem toList_text_take : (s.take bytes).text.toList = s.text.toList ++ bytes :=
  Array.toList_appendList

@[simp] theorem take_nil : s.take [] = s := by simp [take]

@[simp] theorem take_take (more : Bytes) : (s.take bytes).take more = s.take (bytes ++ more) := by
  simp [take, Nat.add_assoc, Bytes.append_append]

@[simp] theorem take_move (phase : Phase) : (s.move phase).take bytes = (s.take bytes).move phase :=
  rfl

end

/-- A byte that continues a token is taken in. -/
theorem feed_extend (listen : Listener σ ε) {s : Scanner} {b : UInt8} {phase : Phase}
    (h : s.step b = s.extend b phase) (state : σ) (rest : Bytes) :
    feed listen s state (b :: rest) = feed listen ((s.take [b]).move phase) state rest :=
  feed_of_accept listen h state rest

theorem verdict_extend (listen : Listener σ ε) {s : Scanner} {b : UInt8} {phase : Phase}
    (h : s.step b = s.extend b phase) (state : σ) (rest : Bytes) :
    verdict listen s state (b :: rest) = verdict listen ((s.take [b]).move phase) state rest :=
  verdict_eq_of_feed listen (feed_extend listen h state rest)

/-- **A number is one event.** -/
theorem verdict_number (listen : Listener σ ε) {s : Scanner} {p : NumberPlace}
    (hs : s.phase = .number p) (hconsumed : s.consumed ≠ 0) {text rest : Bytes} (h : p.Lang text)
    (hrest : EndsNumber s.stack rest) (state : σ) :
    verdict listen s state (text ++ rest) =
      hear listen state (.scalar (numberToken (s.text.toList ++ text)) (s.text.toList ++ text))
        (s.consumed + text.length) >>= fun state =>
          verdict listen (s.take text).resume state rest := by
  induction text generalizing s p with
  | nil => simpa using verdict_number_end listen hs ((p.lang_nil).1 h) hconsumed hrest state
  | cons b text ih =>
      obtain ⟨q, hq, htext⟩ := (p.lang_cons b text).1 h
      have hstep : s.step b = s.extend b (.number q) := by
        rw [step, hs]
        simp only [inNumber, hq]
      rw [List.cons_append, verdict_extend listen hstep,
        ih (s := (s.take [b]).move (.number q)) rfl (by simp) htext hrest]
      simp [resume_eq_move, Nat.add_assoc, Nat.add_comm 1]

/-! ### Accepted numbers -/

/-- A closing bracket after a number that is accepted closes the innermost container. -/
theorem mem_head?_of_raise_leave (listen : Listener σ ε) {s : Scanner} {b : UInt8} {event : Event}
    {kind : Bracket} (hstep : s.step b = .raise event s (s.leave kind)) {state : σ} {x : Bytes}
    {r : Nat × σ} (h : verdict listen s state (b :: x) = .ok r) : kind ∈ s.stack.head? := by
  by_cases hkind : kind ∈ s.stack.head?
  · exact hkind
  · obtain ⟨fault, hfail⟩ := leave_eq_fail hkind
    rw [hfail] at hstep
    exact absurd h (ne_ok_of_raise_reject listen hstep)

/-- A byte that does not continue a number is accepted only if the number is complete and the byte
may stand after it. -/
theorem endsNumber_of_ok (listen : Listener σ ε) {s : Scanner} {p : NumberPlace}
    (hs : s.phase = .number p) {b : UInt8} (hb : p.next? b = none) {state : σ} {x : Bytes}
    {r : Nat × σ} (h : verdict listen s state (b :: x) = .ok r) :
    p.isComplete = true ∧ EndsNumber s.stack (b :: x) := by
  have hstep : s.step b = s.inNumber p b := by rw [step, hs]
  simp only [inNumber, hb] at hstep
  by_cases hp : p.isComplete = true
  · refine ⟨hp, ?_⟩
    rw [if_pos hp] at hstep
    by_cases hcomma : b = Ascii.comma
    · refine .inr (.inl ⟨hcomma, ?_⟩)
      intro hstack
      rw [if_pos hcomma, separate, hstack] at hstep
      exact ne_ok_of_raise_reject listen hstep h
    rw [if_neg hcomma] at hstep
    by_cases hspace : Ascii.isSpace b = true
    · exact .inl hspace
    rw [if_neg hspace] at hstep
    refine .inr (.inr ?_)
    by_cases hsquare : b = Ascii.closeSquare
    · rw [if_pos hsquare] at hstep
      exact ⟨.square, mem_head?_of_raise_leave listen hstep h, hsquare⟩
    rw [if_neg hsquare] at hstep
    by_cases hbrace : b = Ascii.closeBrace
    · rw [if_pos hbrace] at hstep
      exact ⟨.brace, mem_head?_of_raise_leave listen hstep h, hbrace⟩
    rw [if_neg hbrace] at hstep
    exact absurd h (ne_ok_of_reject listen hstep)
  · rw [if_neg hp] at hstep
    exact absurd h (ne_ok_of_reject listen hstep)

/-- Within a number, a text that is accepted goes on with the rest of a number. -/
theorem exists_lang_of_ok (listen : Listener σ ε) {s : Scanner} {p : NumberPlace}
    (hs : s.phase = .number p) {state : σ} {x : Bytes} {r : Nat × σ}
    (h : verdict listen s state x = .ok r) :
    ∃ text rest, x = text ++ rest ∧ p.Lang text ∧ EndsNumber s.stack rest := by
  induction x generalizing s p state with
  | nil =>
      obtain ⟨hstack, hphase | ⟨q, hphase, hq⟩⟩ := ended_of_ok listen h
      · rw [hs] at hphase
        cases hphase
      · rw [hs] at hphase
        cases hphase
        exact ⟨[], [], rfl, p.lang_nil.2 hq, hstack⟩
  | cons b x ih =>
      cases hq : p.next? b with
      | some q =>
          have hstep : s.step b = s.extend b (.number q) := by
            rw [step, hs]
            simp only [inNumber, hq]
          rw [verdict_extend listen hstep] at h
          obtain ⟨text, rest, rfl, htext, hrest⟩ := ih (phase_move _ _) h
          exact ⟨b :: text, rest, rfl, (p.lang_cons b text).2 ⟨q, hq, htext⟩, hrest⟩
      | none =>
          obtain ⟨hp, hends⟩ := endsNumber_of_ok listen hs hq h
          exact ⟨[], b :: x, rfl, p.lang_nil.2 hp, hends⟩

end DocCodec.Scanner
