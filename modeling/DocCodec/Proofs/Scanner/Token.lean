/-
**String literals and words under the scanner.**

The letters of a string literal are taken in one after another, and the quotation mark after them
completes the literal.  A word is complete with its last letter.

Main results:

* `DocCodec.Scanner.feed_letters` — the letters of a literal are taken in;
* `DocCodec.Scanner.exists_letters_of_ok` — within a literal, a text that is accepted goes on with
  letters and a quotation mark;
* `DocCodec.Scanner.verdict_word`, `DocCodec.Scanner.exists_word_of_ok` — the same for words.
-/

import DocCodec.Proofs.Scanner.Number

set_option relaxedAutoImplicit false
set_option autoImplicit false

namespace DocCodec.Scanner

open Grammar (Letter Letters)

variable {σ ε : Type}

/-! ### Letters -/

theorem move_self {s : Scanner} {phase : Phase} (h : s.phase = phase) : s.move phase = s := by
  rw [← h]
  rfl

theorem step_text {s : Scanner} {role : Role} {place : TextPlace} (h : s.phase = .text role place)
    (b : UInt8) : s.step b = s.inText role place b := by
  rw [step, h]

theorem step_backslash {s : Scanner} {role : Role} (h : s.phase = .text role .plain) :
    s.step Ascii.backslash = s.extend Ascii.backslash (.text role .escape) := by
  rw [step_text h]
  rfl

theorem step_u {s : Scanner} {role : Role} (h : s.phase = .text role .escape) :
    s.step (Ascii.byte 'u') = s.extend (Ascii.byte 'u') (.text role (.digits 3)) := by
  rw [step_text h]
  rfl

/-- The closing quotation mark of a value completes it. -/
theorem step_quote_value {s : Scanner} (h : s.phase = .text .value .plain) :
    s.step Ascii.quote = .raise (.scalar .string s.text.toList) s (.accept s.resume) := by
  rw [step_text h]
  rfl

/-- The closing quotation mark of a key completes it. -/
theorem step_quote_key {s : Scanner} (h : s.phase = .text .key .plain) :
    s.step Ascii.quote = .raise (.key s.text.toList) s (.accept (s.move .objectColon)) := by
  rw [step_text h]
  rfl

theorem isEscapeLetter_iff (b : UInt8) :
    isEscapeLetter b = true ↔ b ∈ [Ascii.quote, Ascii.backslash, Ascii.byte '/', Ascii.byte 'b',
      Ascii.byte 'f', Ascii.byte 'n', Ascii.byte 'r', Ascii.byte 't'] := by
  simp [isEscapeLetter, or_assoc]

theorem isControl_eq_false_iff (b : UInt8) : Ascii.isControl b = false ↔ 0x20 ≤ b := by
  simp [Ascii.isControl, UInt8.not_lt]

section

variable (listen : Listener σ ε) {s : Scanner} {role : Role}

/-- The digits of an escape are taken in. -/
theorem feed_digits {more : Nat} (hs : s.phase = .text role (.digits more)) {digits : Bytes}
    (hlength : digits.length = more + 1) (hdigits : ∀ b ∈ digits, Hex.isDigit b = true) (state : σ)
    (rest : Bytes) :
    feed listen s state (digits ++ rest) =
      feed listen ((s.take digits).move (.text role .plain)) state rest := by
  induction more generalizing s digits with
  | zero =>
      obtain ⟨b, rfl⟩ := List.length_eq_one_iff.1 hlength
      have hb := hdigits b (by simp)
      exact feed_extend listen (by simp [step_text hs, inText, hb]) state rest
  | succ more ih =>
      obtain ⟨b, digits, rfl⟩ := List.exists_cons_of_length_eq_add_one hlength
      have hb := hdigits b (by simp)
      have hstep : s.step b = s.extend b (.text role (.digits more)) := by
        simp [step_text hs, inText, hb]
      rw [List.cons_append, feed_extend listen hstep,
        ih (phase_move _ _) (by simpa using hlength) fun b h => hdigits b (by simp [h])]
      simp

/-- A letter is taken in. -/
theorem feed_letter (hs : s.phase = .text role .plain) (letter : Letter) (state : σ)
    (rest : Bytes) :
    feed listen s state (letter.bytes ++ rest) = feed listen (s.take letter.bytes) state rest := by
  have hbackslash := step_backslash hs
  cases letter with
  | plain b ok =>
      obtain ⟨hcontrol, hquote, hback⟩ := ok
      have hstep : s.step b = s.extend b (.text role .plain) := by
        simp [step_text hs, inText, hquote, hback, (isControl_eq_false_iff b).2 hcontrol]
      refine (feed_extend listen hstep state rest).trans ?_
      rw [move_self (by simpa using hs)]
      rfl
  | escape b ok =>
      have hescape := (isEscapeLetter_iff b).2 ok
      refine (feed_extend listen hbackslash state _).trans ?_
      have hstep : ((s.take [Ascii.backslash]).move (.text role .escape)).step b =
          ((s.take [Ascii.backslash]).move (.text role .escape)).extend b (.text role .plain) := by
        rw [step_text (phase_move _ _), inText, if_pos hescape]
      refine (feed_extend listen hstep state rest).trans ?_
      rw [take_move, move_move, take_take, move_self (by simpa using hs)]
      rfl
  | unit a b c d ok =>
      refine (feed_extend listen hbackslash state _).trans ?_
      refine (feed_extend listen (step_u (phase_move _ _)) state _).trans ?_
      refine (feed_digits listen (phase_move _ _) (by rfl) ok state rest).trans ?_
      simp only [take_move, move_move, take_take]
      rw [move_self (by simpa using hs)]
      rfl

/-- **The letters of a literal are taken in.** -/
theorem feed_letters (hs : s.phase = .text role .plain) (letters : Letters) (state : σ)
    (rest : Bytes) :
    feed listen s state (letters.bytes ++ rest) = feed listen (s.take letters.bytes) state rest := by
  induction letters generalizing s with
  | nil => simp
  | cons letter letters ih =>
      rw [Letters.bytes_cons, List.append_assoc, feed_letter listen hs, ih (by simpa using hs),
        take_take]

/-- The verdict on a text that begins with letters. -/
theorem verdict_letters (hs : s.phase = .text role .plain) (letters : Letters) (state : σ)
    (rest : Bytes) :
    verdict listen s state (letters.bytes ++ rest) =
      verdict listen (s.take letters.bytes) state rest :=
  verdict_eq_of_feed listen (feed_letters listen hs letters state rest)

/-! ### Accepted literals -/

/-- A text that is accepted does not end within a literal. -/
theorem exists_cons_of_text_ok {place : TextPlace} (hs : s.phase = .text role place) {state : σ}
    {x : Bytes} {r : Nat × σ} (h : verdict listen s state x = .ok r) : ∃ b y, x = b :: y := by
  cases x with
  | nil =>
      obtain ⟨-, hphase | ⟨p, hphase, -⟩⟩ := ended_of_ok listen h <;> rw [hs] at hphase <;>
        cases hphase
  | cons b y => exact ⟨b, y, rfl⟩

/-- Within an escape, a text that is accepted goes on with the rest of its digits. -/
theorem exists_digits_of_ok {more : Nat} (hs : s.phase = .text role (.digits more)) {state : σ}
    {x : Bytes} {r : Nat × σ} (h : verdict listen s state x = .ok r) :
    ∃ digits rest, x = digits ++ rest ∧ digits.length = more + 1 ∧
      ∀ b ∈ digits, Hex.isDigit b = true := by
  induction more generalizing s x with
  | zero =>
      obtain ⟨b, y, rfl⟩ := exists_cons_of_text_ok listen hs h
      by_cases hb : Hex.isDigit b = true
      · exact ⟨[b], y, rfl, rfl, by simpa using hb⟩
      · have hstep : s.step b = s.fail .invalidUnicodeEscape b := by
          rw [step_text hs, inText, if_neg hb]
        exact absurd h (ne_ok_of_reject listen hstep)
  | succ more ih =>
      obtain ⟨b, y, rfl⟩ := exists_cons_of_text_ok listen hs h
      by_cases hb : Hex.isDigit b = true
      · have hstep : s.step b = s.extend b (.text role (.digits more)) := by
          rw [step_text hs, inText, if_pos hb]
        rw [verdict_extend listen hstep] at h
        obtain ⟨digits, rest, rfl, hlength, hdigits⟩ := ih (phase_move _ _) h
        exact ⟨b :: digits, rest, rfl, by simp [hlength], by simpa using ⟨hb, hdigits⟩⟩
      · have hstep : s.step b = s.fail .invalidUnicodeEscape b := by
          rw [step_text hs, inText, if_neg hb]
        exact absurd h (ne_ok_of_reject listen hstep)

/-- Within a literal, a text that is accepted goes on with a letter or the quotation mark. -/
theorem exists_letter_of_ok (hs : s.phase = .text role .plain) {state : σ} {x : Bytes}
    {r : Nat × σ} (h : verdict listen s state x = .ok r) :
    (∃ rest, x = Ascii.quote :: rest) ∨
      ∃ (letter : Letter) (rest : Bytes), x = letter.bytes ++ rest ∧ rest.length < x.length := by
  obtain ⟨b, y, rfl⟩ := exists_cons_of_text_ok listen hs h
  by_cases hquote : b = Ascii.quote
  · exact .inl ⟨y, by rw [hquote]⟩
  refine .inr ?_
  by_cases hback : b = Ascii.backslash
  · subst hback
    rw [verdict_extend listen (step_backslash hs)] at h
    obtain ⟨e, z, rfl⟩ := exists_cons_of_text_ok listen (phase_move _ _) h
    by_cases hescape : isEscapeLetter e = true
    · refine ⟨.escape e ((isEscapeLetter_iff e).1 hescape), z, rfl, ?_⟩
      simp only [List.length_cons]
      omega
    by_cases hu : e = Ascii.byte 'u'
    · subst hu
      rw [verdict_extend listen (step_u (phase_move _ _))] at h
      obtain ⟨digits, rest, rfl, hlength, hdigits⟩ := exists_digits_of_ok listen (phase_move _ _) h
      match digits, hlength, hdigits with
      | [a, b, c, d], _, hdigits =>
          refine ⟨.unit a b c d hdigits, rest, rfl, ?_⟩
          simp only [List.length_cons, List.length_append]
          omega
    · have hstep : ((s.take [Ascii.backslash]).move (.text role .escape)).step e =
          ((s.take [Ascii.backslash]).move (.text role .escape)).fail .invalidStringEscape e := by
        rw [step_text (phase_move _ _), inText, if_neg hescape, if_neg hu]
      exact absurd h (ne_ok_of_reject listen hstep)
  · by_cases hcontrol : Ascii.isControl b = true
    · have hstep : s.step b = s.fail .unescapedControlCharacter b := by
        simp [step_text hs, inText, hquote, hback, hcontrol]
      exact absurd h (ne_ok_of_reject listen hstep)
    · have hle := (isControl_eq_false_iff b).1 (by simpa using hcontrol)
      exact ⟨.plain b ⟨hle, hquote, hback⟩, y, rfl, by simp⟩

/-- **Within a literal, a text that is accepted goes on with letters and a quotation mark.** -/
theorem exists_letters_of_ok (hs : s.phase = .text role .plain) {state : σ} {x : Bytes}
    {r : Nat × σ} (h : verdict listen s state x = .ok r) :
    ∃ (letters : Letters) (rest : Bytes), x = letters.bytes ++ Ascii.quote :: rest := by
  obtain ⟨n, hn⟩ : ∃ n, x.length = n := ⟨_, rfl⟩
  induction n using Nat.strongRecOn generalizing s x with
  | ind n ih =>
      rcases exists_letter_of_ok listen hs h with ⟨rest, rfl⟩ | ⟨letter, rest, rfl, hlt⟩
      · exact ⟨[], rest, rfl⟩
      · rw [verdict_eq_of_feed listen (feed_letter listen hs letter state rest)] at h
        obtain ⟨letters, rest', rfl⟩ := ih _ (hn ▸ hlt) (by simpa using hs) h rfl
        exact ⟨letter :: letters, rest', by simp⟩

end

/-! ### Words -/

theorem step_word {s : Scanner} {word : Word} {owed : Bytes} (h : s.phase = .word word owed)
    (b : UInt8) : s.step b = s.inWord word owed b := by
  rw [step, h]

section

variable (listen : Listener σ ε) {s : Scanner} {word : Word}

/-- **A word is complete with its last letter.** -/
theorem verdict_word {letter : UInt8} {more : Bytes} (hs : s.phase = .word word (letter :: more))
    (state : σ) (rest : Bytes) :
    verdict listen s state (letter :: more ++ rest) =
      hear listen state (.scalar word.token word.letters) (s.consumed + more.length) >>=
        fun state => verdict listen (s.skip (more.length + 1)).resume state rest := by
  induction more generalizing s letter with
  | nil =>
      have hstep : s.step letter =
          .raise (.scalar word.token word.letters) s (.accept s.resume) := by
        simp [step_word hs, inWord]
      exact verdict_of_raise listen hstep state rest
  | cons next more ih =>
      have hstep : s.step letter = .accept (s.move (.word word (next :: more))) := by
        simp [step_word hs, inWord, move]
      refine (verdict_of_accept listen hstep state _).trans ?_
      rw [advance_eq_skip]
      refine (ih rfl).trans ?_
      simp only [consumed_skip, consumed_move, List.length_cons, skip_skip, Nat.add_assoc,
        Nat.add_comm 1]
      rfl

/-- Within a word, a text that is accepted goes on with its remaining letters. -/
theorem exists_word_of_ok {owed : Bytes} (hs : s.phase = .word word owed) {state : σ} {x : Bytes}
    {r : Nat × σ} (h : verdict listen s state x = .ok r) : ∃ rest, x = owed ++ rest := by
  induction owed generalizing s x with
  | nil => exact ⟨x, rfl⟩
  | cons letter owed ih =>
      cases x with
      | nil =>
          obtain ⟨-, hphase | ⟨p, hphase, -⟩⟩ := ended_of_ok listen h <;> rw [hs] at hphase <;>
            cases hphase
      | cons b x =>
          by_cases hb : b = letter
          · subst hb
            cases owed with
            | nil => exact ⟨x, rfl⟩
            | cons next owed =>
                have hstep : s.step b = .accept (s.move (.word word (next :: owed))) := by
                  simp [step_word hs, inWord, move]
                rw [verdict_of_accept listen hstep] at h
                obtain ⟨rest, rfl⟩ := ih rfl h
                exact ⟨rest, rfl⟩
          · have hstep : s.step b = s.fail .invalidToken b := by
              simp [step_word hs, inWord, hb]
            exact absurd h (ne_ok_of_reject listen hstep)

end

end DocCodec.Scanner
