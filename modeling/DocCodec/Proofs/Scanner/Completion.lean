/-
**Syntax errors are found at the first hopeless byte.**

Wherever a scan stands, there is a way to end: complete the token, supply the value that is owed,
and close what is open.  So a text that has been scanned without a fault can always be completed to
a text that is accepted, and a fault is reported at the first byte after which no completion is
left.  The offset that is reported is that of the byte, except for a trailing comma, which is only
found out at the bracket after it but reported where it stands.

Main definitions:

* `DocCodec.Scanner.completion` — **a way to end**, for each state of a scan;
* `DocCodec.Scanner.Viable` — a text that can be completed to a text that is accepted.

Main results:

* `DocCodec.Scanner.Coherent.passes_completion` — the completion of a coherent scanner is accepted;
* `DocCodec.Scanner.stop_feed_eq_none_iff` — a text is scanned without a fault if and only if it is
  viable;
* `DocCodec.Scanner.pendingComma_of_feed` — a comma that is pending is the last byte but for white
  space;
* `DocCodec.Scanner.feed_first_hopeless_byte` — **where a scan stops and what it reports**.
-/

import DocCodec.Proofs.Scanner.Language
import DocCodec.Proofs.Scanner.Reaction

set_option relaxedAutoImplicit false
set_option autoImplicit false

namespace DocCodec.Scanner

variable {σ ε : Type}

/-! ### Ways to end -/

/-- A way in which a number may end. -/
def NumberPlace.completion : NumberPlace → Bytes
  | .zero | .integer | .fraction | .exponent => []
  | .sign | .point | .mark | .markSign => [Ascii.zero]

/-- A way to the end of the letter that is being read. -/
def TextPlace.completion : TextPlace → Bytes
  | .plain => []
  | .escape => [Ascii.byte 'n']
  | .digits more => List.replicate (more + 1) Ascii.zero

/-- A way to the end of the innermost entry, item or root. -/
def Phase.completion : Phase → Bytes
  | .start | .objectValue | .arrayItem => [Ascii.zero]
  | .text .value place => place.completion ++ [Ascii.quote]
  | .text .key place => place.completion ++ [Ascii.quote, Ascii.colon, Ascii.zero]
  | .number place => place.completion
  | .word _ owed => owed
  | .objectKey => [Ascii.quote, Ascii.quote, Ascii.colon, Ascii.zero]
  | .objectColon => [Ascii.colon, Ascii.zero]
  | .objectRest | .arrayRest | .finished => []

/-- The closing brackets of the open containers. -/
def closings (s : Scanner) : Bytes := s.stack.map Bracket.closing

/-- **A way to end.** -/
def completion (s : Scanner) : Bytes := s.phase.completion ++ s.closings

theorem NumberPlace.lang_completion (p : NumberPlace) : p.Lang p.completion := by
  have hzero {q : NumberPlace} (hq : p.next? Ascii.zero = some q) (hcomplete : q.isComplete = true) :
      p.Lang [Ascii.zero] := (lang_cons p _ _).2 ⟨q, hq, (lang_nil q).2 hcomplete⟩
  cases p with
  | zero | integer | fraction | exponent => exact (lang_nil _).2 rfl
  | sign | point | mark | markSign => exact hzero rfl rfl

/-! ### Ways to end are accepted -/

/-- Whether a text is accepted, whatever its events are noted down as. -/
def Passes (ε : Type) (note : σ → Event → Nat → σ) (s : Scanner) (text : Bytes) : Prop :=
  ∀ state, ∃ r, verdict (noting note : Listener σ ε) s state text = .ok r

section

variable {note : σ → Event → Nat → σ} {s : Scanner}

theorem passes_of_accept {after : Scanner} {b : UInt8} {text : Bytes} (h : s.step b = .accept after)
    (hrest : Passes ε note after.advance text) : Passes ε note s (b :: text) := by
  intro state
  rw [verdict_of_accept _ h]
  exact hrest state

theorem passes_of_raise {refused after : Scanner} {event : Event} {b : UInt8} {text : Bytes}
    (h : s.step b = .raise event refused (.accept after)) (hrest : Passes ε note after.advance text) :
    Passes ε note s (b :: text) := by
  intro state
  rw [verdict_of_raise _ h]
  exact hrest _

/-- After a complete value, the containers may be closed. -/
theorem passes_closings (hs : s.phase = .afterValue s.stack) (hconsumed : s.consumed ≠ 0) :
    Passes ε note s s.closings := by
  obtain ⟨stack, hstack⟩ : ∃ stack, s.stack = stack := ⟨_, rfl⟩
  induction stack generalizing s with
  | nil =>
      intro state
      have hfinish : s.finish = .accept s := by
        rw [hstack] at hs
        simp [finish, hs, hstack, hconsumed, Phase.afterValue]
      refine ⟨(s.consumed, state), ?_⟩
      rw [closings, hstack, List.map_nil, verdict_nil, hfinish]
      rfl
  | cons kind outer ih =>
      have hkind : kind ∈ s.stack.head? := by rw [hstack]; rfl
      have houter : s.closed.stack = outer := by rw [closed, hstack]; rfl
      have hrest : Passes ε note s.closed.resume.advance s.closed.closings :=
        ih (s := s.closed.resume.advance) rfl (Nat.succ_ne_zero s.consumed) houter
      have hclosings : s.closings = kind.closing :: s.closed.closings := by
        rw [closings, closings, houter, hstack, List.map_cons]
      rw [hclosings]
      exact passes_of_raise ((step_closing hs hkind).trans (leave_eq hkind)) hrest

theorem endsNumber_closings (s : Scanner) : EndsNumber s.stack s.closings := by
  rw [closings]
  cases s.stack with
  | nil => exact rfl
  | cons kind outer => exact endsNumber_closing rfl _

theorem passes_number {p : NumberPlace} (hs : s.phase = .number p) (hconsumed : s.consumed ≠ 0) :
    Passes ε note s (p.completion ++ s.closings) := by
  intro state
  rw [verdict_number _ hs hconsumed p.lang_completion (endsNumber_closings s)]
  exact passes_closings (s := (s.take p.completion).resume) rfl
    (by rw [resume_eq_move, consumed_move, consumed_take]; omega) _

/-- Where a value is expected, a zero will do. -/
theorem passes_zero (hs : s.ExpectsValue) : Passes ε note s (Ascii.zero :: s.closings) :=
  passes_of_accept (step_number_start hs rfl)
    (passes_number (s := (s.settle.begin (.number .zero) Ascii.zero).advance) rfl
      (Nat.succ_ne_zero _))

theorem passes_colon (hs : s.phase = .objectColon) (hcomma : s.pendingComma = none) :
    Passes ε note s (Ascii.colon :: Ascii.zero :: s.closings) := by
  have hstep : s.step Ascii.colon = .accept (s.move .objectValue) := by
    rw [step, hs]
    rfl
  exact passes_of_accept hstep
    (passes_zero (s := (s.move .objectValue).advance) (.inr ⟨.inr rfl, hcomma⟩))

/-- The letter that is being read may be completed. -/
theorem verdict_textCompletion (listen : Listener σ ε) {role : Role} {place : TextPlace}
    (hs : s.phase = .text role place) (state : σ) (rest : Bytes) :
    verdict listen s state (place.completion ++ rest) =
      verdict listen ((s.take place.completion).move (.text role .plain)) state rest := by
  cases place with
  | plain =>
      rw [TextPlace.completion, take_nil, move_self hs]
      rfl
  | escape =>
      have hstep : s.step (Ascii.byte 'n') = s.extend (Ascii.byte 'n') (.text role .plain) := by
        rw [step_text hs]
        rfl
      exact verdict_extend listen hstep state rest
  | digits more =>
      refine verdict_eq_of_feed listen (feed_digits listen hs List.length_replicate ?_ state rest)
      intro b hb
      rw [List.eq_of_mem_replicate hb]
      rfl

theorem passes_string {place : TextPlace} (hs : s.phase = .text .value place) :
    Passes ε note s (place.completion ++ Ascii.quote :: s.closings) := by
  intro state
  rw [verdict_textCompletion _ hs]
  exact passes_of_raise (step_quote_value rfl)
    (passes_closings (s := (((s.take place.completion).move (.text .value .plain)).resume).advance)
      rfl (Nat.succ_ne_zero _)) state

theorem passes_key {place : TextPlace} (hs : s.phase = .text .key place)
    (hcomma : s.pendingComma = none) :
    Passes ε note s (place.completion ++ Ascii.quote :: Ascii.colon :: Ascii.zero :: s.closings) := by
  intro state
  rw [verdict_textCompletion _ hs]
  exact passes_of_raise (step_quote_key rfl)
    (passes_colon
      (s := (((s.take place.completion).move (.text .key .plain)).move .objectColon).advance)
      rfl hcomma) state

theorem passes_beforeKey (hs : s.phase = .objectKey) :
    Passes ε note s
      (Ascii.quote :: Ascii.quote :: Ascii.colon :: Ascii.zero :: s.closings) := by
  have hstep : s.step Ascii.quote = .accept (s.settle.begin (.text .key .plain) Ascii.quote) := by
    rw [step, hs]
    rfl
  exact passes_of_accept hstep
    (passes_key (s := (s.settle.begin (.text .key .plain) Ascii.quote).advance) rfl rfl)

theorem passes_word {word : Word} {owed : Bytes} (hs : s.phase = .word word owed)
    (howed : owed ≠ []) : Passes ε note s (owed ++ s.closings) := by
  intro state
  obtain ⟨letter, more, rfl⟩ := List.exists_cons_of_ne_nil howed
  rw [verdict_word _ hs]
  exact passes_closings (s := (s.skip (more.length + 1)).resume) rfl (Nat.succ_ne_zero _) _

/-- **The completion of a coherent scanner is accepted.** -/
theorem Coherent.passes_completion (h : s.Coherent) : Passes ε note s s.completion := by
  have hcomma := h.pendingComma_eq_none
  have hconsumed (hs : s.phase ≠ .start) : s.consumed ≠ 0 := mt h.start_of_consumed hs
  have hafter (hs : s.phase = .objectRest ∨ s.phase = .arrayRest ∨ s.phase = .finished) :
      Passes ε note s s.closings := by
    refine passes_closings (Phase.eq_afterValue h.fits hs) (hconsumed ?_)
    rcases hs with hs | hs | hs <;> simp [hs]
  unfold completion
  cases hs : s.phase with
  | start => exact passes_zero (.inr ⟨.inl hs, hcomma (by simp [hs]) (by simp [hs])⟩)
  | objectValue => exact passes_zero (.inr ⟨.inr hs, hcomma (by simp [hs]) (by simp [hs])⟩)
  | arrayItem => exact passes_zero (.inl hs)
  | text role place =>
      cases role with
      | value =>
          rw [Phase.completion, List.append_assoc]
          exact passes_string hs
      | key =>
          rw [Phase.completion, List.append_assoc]
          exact passes_key hs (hcomma (by simp [hs]) (by simp [hs]))
  | number place => exact passes_number hs (hconsumed (by simp [hs]))
  | word word owed =>
      have howed := h.fits
      rw [hs] at howed
      exact passes_word hs howed
  | objectKey => exact passes_beforeKey hs
  | objectColon => exact passes_colon hs (hcomma (by simp [hs]) (by simp [hs]))
  | objectRest => exact hafter (.inl hs)
  | arrayRest => exact hafter (.inr (.inl hs))
  | finished => exact hafter (.inr (.inr hs))

end

/-! ### Scans that stop -/

section

variable (listen : Listener σ ε)

/-- A scan that goes on has not stopped before. -/
theorem stop_feed_of_append {s : Scanner} {state : σ} {x y : Bytes}
    (h : (feed listen s state (x ++ y)).stop = none) : (feed listen s state x).stop = none := by
  rw [feed_append] at h
  rcases hfeed : feed listen s state x with ⟨after, heard, _ | stop⟩
  · rfl
  · rw [hfeed] at h
    exact h

/-- A text that is accepted is scanned to its end. -/
theorem stop_feed_of_scan {bound : Nat} {state : σ} {x : Bytes}
    (h : (scan listen bound state x).stop = none) :
    (feed listen { room := bound } state x).stop = none := by
  unfold scan at h
  rcases hfeed : feed listen { room := bound } state x with ⟨after, heard, _ | stop⟩
  · rfl
  · rw [hfeed] at h
    exact h

/-- A scan that stops does so at one of its bytes. -/
theorem exists_byte_of_stop {s left : Scanner} {state state' : σ} {x : Bytes} {stop : Stop ε}
    (h : feed listen s state x = ⟨left, state', some stop⟩) :
    ∃ before b after at_b heard, x = before ++ b :: after ∧
      feed listen s state before = ⟨at_b, heard, none⟩ ∧
        (at_b.step b).run listen at_b.consumed heard = ⟨left, state', some stop⟩ := by
  induction x generalizing s state with
  | nil => cases h
  | cons b x ih =>
      rw [feed] at h
      rcases hrun : (s.step b).run listen s.consumed state with ⟨next, heard, _ | stop'⟩
      · rw [hrun] at h
        obtain ⟨before, c, after, at_c, heard', rfl, hbefore, hstop⟩ := ih h
        refine ⟨b :: before, c, after, at_c, heard', rfl, ?_, hstop⟩
        rw [feed, hrun]
        exact hbefore
      · rw [hrun] at h
        exact ⟨[], b, x, s, state, rfl, rfl, hrun.trans h⟩

end

/-- With a listener that refuses nothing, a reaction ends early only by rejecting the byte. -/
theorem Reaction.result_of_stop {note : σ → Event → Nat → σ} {offset : Nat} {r : Reaction}
    {state state' : σ} {left : Scanner} {stop : Stop ε}
    (h : r.run (noting note) offset state = ⟨left, state', some stop⟩) :
    ∃ error, stop = .fault error ∧ r.result = .error (error, left) := by
  induction r generalizing state with
  | accept after => cases h
  | reject error found =>
      cases h
      exact ⟨error, rfl, rfl⟩
  | raise event refused next ih => exact ih h

section

variable {s : Scanner} {b : UInt8}

theorem ReactsPast.rejection {r : Reaction} {error : SyntaxError} {left : Scanner}
    (h : ReactsPast s b r) (hr : r.result = .error (error, left)) :
    left.consumed = s.consumed ∧ error.fault ≠ .trailingComma ∧ error.byte = b ∧
      error.position = s.consumed := by
  cases h with
  | space hb => cases hr
  | comma hb hkind => cases hr
  | close hb hkind => cases hr
  | reject fault hfault comma =>
      cases hr
      exact ⟨rfl, hfault, rfl, rfl⟩

/-- What is reported of a rejected byte: the byte, or the comma that is pending before it. -/
theorem Reacts.rejection {r : Reaction} {error : SyntaxError} {left : Scanner} (h : Reacts s b r)
    (hr : r.result = .error (error, left)) :
    left.consumed = s.consumed ∧
      (error.fault ≠ .trailingComma ∧ error.byte = b ∧ error.position = s.consumed ∨
        error.fault = .trailingComma ∧ error.byte = Ascii.comma ∧
          error.position ∈ s.pendingComma ∧ ∃ kind : Bracket, b = kind.closing) := by
  cases h with
  | number hs hp hnext =>
      obtain ⟨hleft, hrejected⟩ := hnext.rejection hr
      exact ⟨hleft, .inl hrejected⟩
  | past hs hpast =>
      obtain ⟨hleft, hrejected⟩ := hpast.rejection hr
      exact ⟨hleft, .inl hrejected⟩
  | @trailingComma position hcomma hb =>
      cases hr
      refine ⟨rfl, .inr ⟨rfl, rfl, hcomma, ?_⟩⟩
      rcases hb with rfl | rfl
      · exact ⟨.square, rfl⟩
      · exact ⟨.brace, rfl⟩
  | reject fault hfault comma =>
      cases hr
      exact ⟨rfl, .inl ⟨hfault, rfl, rfl⟩⟩
  | space | enter | leave | beginString | beginKey | text | string | key | colon | beginWord
  | letter | word | beginNumber | digit => cases hr

/-! ### The pending comma -/

theorem ReactsPast.pendingComma {r : Reaction} {after : Scanner} (h : ReactsPast s b r)
    (hcomma : s.pendingComma = none) (hr : r.result = .ok after) :
    after.consumed = s.consumed ∧
      (after.pendingComma = none ∨ after.pendingComma = some s.consumed ∧ b = Ascii.comma) := by
  cases h with
  | space hb =>
      cases hr
      exact ⟨rfl, .inl hcomma⟩
  | comma hb hkind =>
      cases hr
      exact ⟨rfl, .inr ⟨rfl, hb⟩⟩
  | close hb hkind =>
      cases hr
      exact ⟨rfl, .inl hcomma⟩
  | reject fault hfault comma => cases hr

/-- A comma becomes pending where it stands, and stays so only over white space. -/
theorem Reacts.pendingComma {r : Reaction} {after : Scanner} (h : Reacts s b r) (hs : s.Coherent)
    (hr : r.result = .ok after) :
    after.consumed = s.consumed ∧
      (after.pendingComma = none ∨
        after.pendingComma = some s.consumed ∧ b = Ascii.comma ∨
        after.pendingComma = s.pendingComma ∧ Ascii.isSpace b = true) := by
  have hcomma := hs.pendingComma_eq_none
  have hpast {r : Reaction} (hnone : s.pendingComma = none) (hpast : ReactsPast s b r)
      (hr : r.result = .ok after) := hpast.pendingComma hnone hr
  cases h with
  | space hskips hb =>
      cases hr
      exact ⟨rfl, .inr (.inr ⟨rfl, hb⟩)⟩
  | enter | beginString | beginKey | beginWord | beginNumber =>
      cases hr
      exact ⟨rfl, .inl rfl⟩
  | leave hphase hpending hb hkind =>
      cases hr
      exact ⟨rfl, .inl hpending⟩
  | text hphase | string hphase | key hphase | colon hphase | letter hphase | word hphase
  | digit hphase =>
      cases hr
      exact ⟨rfl, .inl (hcomma (by simp [hphase]) (by simp [hphase]))⟩
  | number hphase hp hnext =>
      obtain ⟨hconsumed, hafter⟩ := hpast (hcomma (by simp [hphase]) (by simp [hphase])) hnext hr
      exact ⟨hconsumed, hafter.imp_right .inl⟩
  | past hphase hnext =>
      have hnone : s.pendingComma = none := by
        refine hcomma ?_ ?_ <;>
        · rw [hphase]
          rcases s.stack with _ | ⟨_ | _, outer⟩ <;> nofun
      obtain ⟨hconsumed, hafter⟩ := hpast hnone hnext hr
      exact ⟨hconsumed, hafter.imp_right .inl⟩
  | trailingComma hpending hb => cases hr
  | reject fault hfault comma => cases hr

end

/-- Whether a text ends with a comma at this offset, but for white space after it. -/
def EndsWithComma (text : Bytes) (position : Nat) : Prop :=
  ∃ before spaces, text = before ++ Ascii.comma :: spaces ∧ before.length = position ∧
    ∀ b ∈ spaces, Ascii.isSpace b = true

/-- The comma stands at its offset, and white space up to the end of the text, whatever comes after
the text. -/
theorem EndsWithComma.at_offset {text : Bytes} {position : Nat} (h : EndsWithComma text position)
    (rest : Bytes) :
    position < text.length ∧ (text ++ rest)[position]? = some Ascii.comma ∧
      ∀ b ∈ ((text ++ rest).take text.length).drop (position + 1), Ascii.isSpace b = true := by
  obtain ⟨before, spaces, rfl, rfl, hspaces⟩ := h
  refine ⟨by simp, by simp, ?_⟩
  have hbetween : ((before ++ Ascii.comma :: spaces ++ rest).take
      (before ++ Ascii.comma :: spaces).length).drop (before.length + 1) = spaces := by
    rw [List.take_left]
    simp
  rwa [hbetween]

/-- **A comma that is pending is the last byte but for white space.**  All bytes are consumed. -/
theorem pendingComma_of_feed (listen : Listener σ ε) {bound : Nat} {x : Bytes} {after : Scanner}
    {state state' : σ} (h : feed listen { room := bound } state x = ⟨after, state', none⟩) :
    after.consumed = x.length ∧ ∀ position ∈ after.pendingComma, EndsWithComma x position := by
  refine (coherent_start bound).kept_by_feed listen (x := []) (P := fun x s =>
    s.consumed = x.length ∧ ∀ position ∈ s.pendingComma, EndsWithComma x position) ?_ ?_ h
  · exact ⟨rfl, nofun⟩
  rintro x s b after hs ⟨hconsumed, hpending⟩ hresult
  obtain ⟨hsame, hcases⟩ := (hs.reacts b).pendingComma hs hresult
  refine ⟨?_, ?_⟩
  · rw [consumed_advance, hsame, hconsumed, List.length_append]
    rfl
  intro position hposition
  change position ∈ after.pendingComma at hposition
  rcases hcases with hnone | ⟨hmarked, rfl⟩ | ⟨hkept, hb⟩
  · rw [hnone] at hposition
    cases hposition
  · rw [hmarked] at hposition
    cases hposition
    exact ⟨x, [], rfl, hconsumed.symm, nofun⟩
  · rw [hkept] at hposition
    obtain ⟨before, spaces, rfl, hbefore, hspaces⟩ := hpending position hposition
    refine ⟨before, spaces ++ [b], by simp, hbefore, ?_⟩
    intro c hc
    rcases List.mem_append.1 hc with hc | hc
    · exact hspaces c hc
    · rwa [List.mem_singleton.1 hc]

/-! ### Viable texts -/

/-- A text that can be completed to a text that is accepted, with at most `bound` containers open at
a time. -/
def Viable (ε : Type) (note : σ → Event → Nat → σ) (bound : Nat) (state : σ) (x : Bytes) : Prop :=
  ∃ rest, (scan (noting note : Listener σ ε) bound state (x ++ rest)).stop = none

section

variable {note : σ → Event → Nat → σ} {bound : Nat} {state : σ}

/-- **A text is scanned without a fault if and only if it is viable.** -/
theorem stop_feed_eq_none_iff (x : Bytes) :
    (feed (noting note : Listener σ ε) { room := bound } state x).stop = none ↔
      Viable ε note bound state x := by
  constructor
  · intro h
    rcases hfeed : feed (noting note : Listener σ ε) { room := bound } state x with
      ⟨after, heard, _ | stop⟩
    · have hcoherent := (coherent_start bound).of_feed _ hfeed
      have hpasses : Passes ε note after after.completion := hcoherent.passes_completion
      obtain ⟨r, hr⟩ := hpasses heard
      refine ⟨after.completion, ?_⟩
      have hverdict := verdict_scan (noting note : Listener σ ε) bound state (x ++ after.completion)
      have happend : verdict (noting note : Listener σ ε) { room := bound } state
          (x ++ after.completion) =
            verdict (noting note : Listener σ ε) after heard after.completion := by
        unfold verdict
        rw [feed_append, hfeed]
      rw [happend, hr] at hverdict
      exact (eq_of_outcome_map_eq_ok hverdict).1
    · rw [hfeed] at h
      cases h
  · rintro ⟨rest, hrest⟩
    exact stop_feed_of_append _ (stop_feed_of_scan _ hrest)

/-- A scan that stops has come as far as the text is viable. -/
theorem viable_take_iff {before after : Bytes} {b : UInt8}
    (hbefore : (feed (noting note : Listener σ ε) { room := bound } state before).stop = none)
    (hb : (feed (noting note : Listener σ ε) { room := bound } state (before ++ [b])).stop ≠ none)
    (n : Nat) :
    Viable ε note bound state ((before ++ b :: after).take n) ↔ n ≤ before.length := by
  rw [← stop_feed_eq_none_iff]
  constructor
  · intro h
    refine Nat.le_of_not_lt ?_
    intro hlt
    have htake : (before ++ b :: after).take n =
        (before ++ [b]) ++ after.take (n - before.length - 1) := by
      obtain ⟨m, rfl⟩ : ∃ m, n = before.length + (m + 1) := ⟨n - before.length - 1, by omega⟩
      rw [List.take_length_add_append, List.take_succ_cons, List.append_assoc]
      simp
    rw [htake] at h
    exact hb (stop_feed_of_append _ h)
  · intro hle
    rw [List.take_append_of_le_length hle]
    refine stop_feed_of_append (y := before.drop n) _ ?_
    rwa [List.take_append_drop]

/-- **Where a scan stops and what it reports.**  With a listener that refuses nothing, a text is
scanned to its end if and only if it can be completed to a text that is accepted.  Otherwise the
scan has consumed the longest first part of the text that can be, and the byte that is reported is
the one after it, unless it is a trailing comma: then the byte after it is a closing bracket, and
what is reported is the last comma before it, from which only white space separates it. -/
theorem feed_first_hopeless_byte (ε : Type) (note : σ → Event → Nat → σ) (bound : Nat) (state : σ)
    (x : Bytes) :
    ((feed (noting note : Listener σ ε) { room := bound } state x).stop = none ↔
      Viable ε note bound state x) ∧
    ∀ left state' stop,
      feed (noting note : Listener σ ε) { room := bound } state x = ⟨left, state', some stop⟩ →
      ∃ error, stop = .fault error ∧
        left.consumed < x.length ∧
        (∀ n ≤ x.length, Viable ε note bound state (x.take n) ↔ n ≤ left.consumed) ∧
        x[error.position]? = some error.byte ∧
        (error.fault ≠ .trailingComma → error.position = left.consumed) ∧
        (error.fault = .trailingComma →
          (∃ kind : Bracket, x[left.consumed]? = some kind.closing) ∧
          error.position < left.consumed ∧ x[error.position]? = some Ascii.comma ∧
          ∀ b ∈ (x.take left.consumed).drop (error.position + 1), Ascii.isSpace b = true) := by
  refine ⟨stop_feed_eq_none_iff x, ?_⟩
  intro left state' stop hstop
  obtain ⟨before, b, after, at_b, heard, rfl, hbefore, hrun⟩ := exists_byte_of_stop _ hstop
  have hcoherent := (coherent_start bound).of_feed _ hbefore
  obtain ⟨hconsumed, hpending⟩ := pendingComma_of_feed _ hbefore
  obtain ⟨error, rfl, hresult⟩ := Reaction.result_of_stop hrun
  obtain ⟨hleft, hreported⟩ := (hcoherent.reacts b).rejection hresult
  have hlength : left.consumed = before.length := hleft.trans hconsumed
  have hb : (feed (noting note : Listener σ ε) { room := bound } state (before ++ [b])).stop ≠
      none := by
    rw [feed_append, hbefore]
    simp only [feed, hrun]
    exact Option.some_ne_none _
  refine ⟨error, rfl, by simp [hlength], ?_, ?_⟩
  · intro n _
    rw [hlength]
    exact viable_take_iff (by rw [hbefore]) hb n
  rcases hreported with ⟨hfault, hbyte, hposition⟩ | ⟨hfault, hbyte, hposition, hclosing⟩
  · have hat : error.position = left.consumed := hposition.trans hleft.symm
    refine ⟨?_, fun _ => hat, fun h => absurd h hfault⟩
    rw [hat, hlength, hbyte]
    simp
  · obtain ⟨hlt, hcomma, hbetween⟩ := (hpending _ hposition).at_offset (b :: after)
    refine ⟨hbyte ▸ hcomma, fun h => absurd hfault h, fun _ => ⟨?_, ?_, hcomma, ?_⟩⟩
    · obtain ⟨kind, rfl⟩ := hclosing
      refine ⟨kind, ?_⟩
      rw [hlength]
      simp
    · rwa [hlength]
    · rwa [hlength]

/-- A trailing comma: the bracket is hopeless, the comma is reported. -/
example : feed (noting fun (heard : Nat) _ _ => heard + 1 : Listener Nat Empty) { room := 8 } 0
    [Ascii.openSquare, Ascii.zero, Ascii.comma, Ascii.space, Ascii.closeSquare] =
      ⟨{ phase := .arrayItem, consumed := 4, stack := [.square], room := 7, pendingComma := some 2,
         text := #[Ascii.zero] }, 2, some (.fault ⟨.trailingComma, Ascii.comma, 2⟩)⟩ := by
  rfl

end

end DocCodec.Scanner
