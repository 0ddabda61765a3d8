/-
**Errors are final, and stopping only ever replaces what would have come.**

The first call that fails decides everything after it: every later call replies with the same error,
whatever it is given and whether or not it is to stop, no container is open any more, and there is
no root.  Before that call the decoder has not been stopped, so it is where it would be without a
caller who may stop it.

A call that is told to stop fails for that alone; its bytes are not looked at.  A call that is not
fails at the first byte that is wrong, and never by being stopped.  So a source whose reading is
stopped at some question either comes to that question, all parts before it being taken in, or is
read as if there were no signal.

Main definitions:

* `DocCodec.Decoder.replies` — what a decoder replies to calls, one by one;
* `DocCodec.chunks` — the parts of a text that a source delivers before its end.

Main results:

* `DocCodec.Decoder.exists_first_byte` — a part is refused at one of its bytes, whatever follows it;
* `DocCodec.Decoder.replies_of_failure`, `DocCodec.Decoder.called_of_replies` — what calls lead to
  after a failure, and without one;
* `DocCodec.decodeFrom_fromPoll` — reading a source that is stopped at some question;
* `DocCodec.errors_final_and_stopping` — **errors are final, and stopping only ever replaces what
  would have come**.
-/

import DocCodec.Proofs.Decoder.Lockstep
import DocCodec.Proofs.Scanner.Completion

set_option relaxedAutoImplicit false
set_option autoImplicit false

namespace DocCodec

/-! ### No event is refused for being stopped -/

namespace Assembly

/-- The text of a number is not touched, if it is UTF-8. -/
theorem numberText_cases (raw : Bytes) :
    numberText raw = .ok raw ∨ ∃ defect, numberText raw = .error (.invalidUtf8 defect) := by
  unfold numberText
  split
  · exact .inl rfl
  · exact .inr ⟨_, rfl⟩

theorem scalar_ne_aborted (token : Token) (raw : Bytes) : scalar token raw ≠ .error .aborted := by
  cases token with
  | boolean truth => rintro ⟨⟩
  | null => rintro ⟨⟩
  | integer =>
      rcases numberText_cases raw with htext | ⟨defect, htext⟩
      · rw [scalar_integer htext]
        cases Numeral.integer? raw <;> rintro ⟨⟩
      · simp only [scalar, htext]
        rintro ⟨⟩
  | float =>
      rcases numberText_cases raw with htext | ⟨defect, htext⟩
      · rw [scalar_float htext]
        cases Numeral.double? raw <;> rintro ⟨⟩
      · simp only [scalar, htext]
        rintro ⟨⟩
  | string =>
      unfold scalar
      simp only
      split <;> rintro ⟨⟩

theorem key_ne_aborted (raw : Bytes) : key raw ≠ .error .aborted := by
  unfold key
  split
  · rintro ⟨⟩
  · split <;> rintro ⟨⟩

/-- An event is refused for what it is. -/
theorem handle_ne_aborted (a : Assembly) (event : Event) : (a.handle event).2 ≠ some .aborted := by
  cases event with
  | enter kind =>
      unfold handle enter
      simp only
      repeat' split
      all_goals rintro ⟨⟩
  | leave kind =>
      unfold handle leave
      simp only
      repeat' split
      all_goals rintro ⟨⟩
  | key raw =>
      unfold handle announce
      simp only
      split
      · rintro ⟨⟩
      split
      · rintro ⟨⟩
      split
      · next error hkey =>
          rintro ⟨⟩
          exact key_ne_aborted raw hkey
      · rintro ⟨⟩
  | scalar token raw =>
      unfold handle add
      simp only
      split
      · rintro ⟨⟩
      split
      · next error hscalar =>
          rintro ⟨⟩
          exact scalar_ne_aborted token raw hscalar
      · split <;> rintro ⟨⟩

end Assembly

theorem DecodeError.ofSyntax_ne_aborted (error : SyntaxError) : ofSyntax error ≠ .aborted := by
  unfold ofSyntax
  split <;> rintro ⟨⟩

namespace Decoder

open Scanner (Reaction Stop)

/-- What a byte brings about is not that the reading was stopped. -/
theorem errorOf_ne_aborted {r : Reaction} {offset : Nat} {a a' : Assembly} {left : Scanner}
    {stop : Stop DecodeError} (h : r.run listen offset a = ⟨left, a', some stop⟩) :
    errorOf stop ≠ .aborted := by
  induction r generalizing a with
  | accept after => cases h
  | reject error found =>
      cases h
      exact DecodeError.ofSyntax_ne_aborted error
  | raise event refused next ih =>
      rw [Reaction.run, listen] at h
      rcases hhandle : a.handle event with ⟨after, _ | reason⟩
      · rw [hhandle] at h
        exact ih h
      · rw [hhandle] at h
        cases h
        have hreason := a.handle_ne_aborted event
        rw [hhandle] at hreason
        exact fun hstop => hreason (congrArg some hstop)

/-! ### One call -/

variable {d : Decoder}

/-- A call that is told to stop does not look at its bytes. -/
theorem write_stopped (hd : d.failure = none) (part : Bytes) :
    d.write true part = d.poison .aborted := by
  obtain ⟨scanner, assembly, failure⟩ := d
  cases hd
  rfl

theorem write_nil (hd : d.failure = none) : d.write false [] = (d, none) := by
  obtain ⟨scanner, assembly, failure⟩ := d
  cases hd
  rfl

/-- A call that is not told to stop fails for the sake of its bytes. -/
theorem write_ne_aborted (hd : d.failure = none) (part : Bytes) :
    (d.write false part).2 ≠ some .aborted := by
  obtain ⟨scanner, assembly, failure⟩ := d
  cases hd
  simp only [write, Bool.false_eq_true, if_false]
  rcases hfeed : Scanner.feed listen scanner assembly part with ⟨after, a, _ | stop⟩
  · rintro ⟨⟩
  · obtain ⟨-, b, -, s, heard, -, -, hrun⟩ := Scanner.exists_byte_of_stop listen hfeed
    exact fun h => errorOf_ne_aborted hrun (Option.some_inj.1 h)

/-- So does the end of the text. -/
theorem finish_ne_aborted (hd : d.failure = none) : d.finish false ≠ .error .aborted := by
  obtain ⟨scanner, assembly, failure⟩ := d
  cases hd
  simp only [finish, Bool.false_eq_true, if_false]
  rcases hclose : Scanner.close listen scanner assembly with ⟨after, a, _ | stop⟩
  · simp only
    split
    · rintro ⟨⟩
    · split <;> rintro ⟨⟩
  · exact fun h => errorOf_ne_aborted hclose (Except.error.inj h)

/-- A text is never refused for being stopped. -/
theorem decoded_ne_aborted (hd : d.failure = none) (text : Bytes) :
    d.decoded text ≠ .error .aborted := by
  rw [← finish_write hd]
  rcases hwrite : d.write false text with ⟨after, _ | error⟩
  · exact finish_ne_aborted (failure_of_write hwrite)
  · have hne := write_ne_aborted hd text
    rw [hwrite] at hne
    rw [finish_of_failure (failure_of_write hwrite)]
    exact fun h => hne (congrArg some (Except.error.inj h))

/-- **A part is refused at one of its bytes**, whatever follows that byte. -/
theorem exists_first_byte (hd : d.failure = none) {part : Bytes} {error : DecodeError}
    (h : (d.write false part).2 = some error) :
    ∃ good b rest, part = good ++ b :: rest ∧ (d.write false good).2 = none ∧
      ∀ more, (d.write false (good ++ b :: more)).2 = some error := by
  induction part generalizing d with
  | nil =>
      rw [write_nil hd] at h
      cases h
  | cons b part ih =>
      have hcons (more : Bytes) := d.write_append [b] more
      rcases hwrite : d.write false [b] with ⟨after, _ | found⟩
      · simp only [List.singleton_append, hwrite] at hcons
        rw [hcons] at h
        obtain ⟨good, c, rest, rfl, hgood, hmore⟩ := ih (failure_of_write hwrite) h
        refine ⟨b :: good, c, rest, rfl, ?_, ?_⟩
        · rw [hcons]
          exact hgood
        · intro more
          rw [List.cons_append, hcons]
          exact hmore more
      · simp only [List.singleton_append, hwrite] at hcons
        rw [hcons] at h
        refine ⟨[], b, part, rfl, by rw [write_nil hd], ?_⟩
        intro more
        rw [List.nil_append, hcons]
        exact h

/-- After a failure no container is open. -/
theorem depth_of_write (hd : d.failure = none) {stopped : Bool} {part : Bytes} {after : Decoder}
    {error : DecodeError} (h : d.write stopped part = (after, some error)) : after.depth = 0 := by
  obtain ⟨scanner, assembly, failure⟩ := d
  cases hd
  cases stopped with
  | true =>
      cases h
      rfl
  | false =>
      simp only [write, Bool.false_eq_true, if_false] at h
      rcases hfeed : Scanner.feed listen scanner assembly part with ⟨s, a, _ | stop⟩
      · rw [hfeed] at h
        cases h
      · rw [hfeed] at h
        cases h
        rfl

/-! ### Calls one after another -/

/-- A decoder after some calls. -/
def after (d : Decoder) (calls : List (Bool × Bytes)) : Decoder :=
  calls.foldl (fun d call => (d.write call.1 call.2).1) d

/-- What a decoder replies to calls, one by one. -/
def replies (d : Decoder) : List (Bool × Bytes) → List (Option DecodeError)
  | [] => []
  | call :: calls => (d.write call.1 call.2).2 :: (d.write call.1 call.2).1.replies calls

theorem replies_append (first second : List (Bool × Bytes)) :
    d.replies (first ++ second) = d.replies first ++ (d.after first).replies second := by
  induction first generalizing d with
  | nil => rfl
  | cons call first ih => exact congrArg _ ih

/-- **After a failure nothing changes any more**, and every call replies with the same error. -/
theorem replies_of_failure {error : DecodeError} (h : d.failure = some error)
    (calls : List (Bool × Bytes)) :
    d.after calls = d ∧ d.replies calls = List.replicate calls.length (some error) := by
  induction calls with
  | nil => exact ⟨rfl, rfl⟩
  | cons call calls ih =>
      have hwrite := write_of_failure h call.1 call.2
      refine ⟨?_, ?_⟩
      · change ((d.write call.1 call.2).1).after calls = d
        rw [hwrite]
        exact ih.1
      · rw [replies, hwrite, ih.2]
        rfl

/-- **As long as no call has failed** none was told to stop, and the decoder is where it would be
without a caller who may stop it. -/
theorem called_of_replies (hd : d.failure = none) {calls : List (Bool × Bytes)}
    (h : ∀ reply ∈ d.replies calls, reply = none) :
    (∀ call ∈ calls, call.1 = false) ∧ d.after calls = d.written (calls.map Prod.snd) ∧
      (d.after calls).failure = none := by
  induction calls generalizing d with
  | nil => exact ⟨nofun, rfl, hd⟩
  | cons call calls ih =>
      obtain ⟨stopped, part⟩ := call
      obtain ⟨hfirst, hrest⟩ := List.forall_mem_cons.1 h
      have hstopped : stopped = false := by
        cases stopped with
        | false => rfl
        | true =>
            rw [write_stopped hd] at hfirst
            cases hfirst
      subst hstopped
      have hafter : (d.write false part).1.failure = none := by
        rw [failure_write]
        exact hfirst
      obtain ⟨hnever, hwritten, hfailure⟩ := ih hafter hrest
      exact ⟨List.forall_mem_cons.2 ⟨rfl, hnever⟩, hwritten, hfailure⟩

/-- Replies of which none is an error. -/
theorem replies_eq_replicate {calls : List (Bool × Bytes)}
    (h : ∀ reply ∈ d.replies calls, reply = none) :
    d.replies calls = List.replicate calls.length none := by
  have hlength : (d.replies calls).length = calls.length := by
    clear h
    induction calls generalizing d with
    | nil => rfl
    | cons call calls ih => exact congrArg (· + 1) ih
  rw [← hlength]
  exact List.eq_replicate_of_mem h

end Decoder

/-! ### Sources -/

/-- The parts of a text that a source delivers before it comes to its end. -/
def chunks : List Reading → List Bytes
  | .bytes (b :: part) :: rest =>
    if readBuffer ≤ part.length then [] else (b :: part) :: chunks rest
  | _ => []

/-- At the end of the stream there are no more parts. -/
theorem finish_fromPoll {d : Decoder} (hd : d.failure = none) (n polls : Nat) :
    d.finish (Signal.fromPoll n (polls + 1)) =
      if n ≤ polls + ([] : List Bytes).length + 1 ∧
          (d.written (List.take (n - 1 - polls) [])).failure = none
        then .error .aborted
        else d.finish false := by
  rw [List.take_nil]
  by_cases hn : n ≤ polls + 1
  · rw [if_pos ⟨hn, hd⟩, Signal.fromPoll, decide_eq_true hn, Decoder.finish, hd]
    rfl
  · rw [if_neg fun h => hn h.1, Signal.fromPoll, decide_eq_false hn]

/-- **Reading a source that is stopped at the `n`-th question**, of which `polls` have been asked:
if that question is asked, it is what comes of it, and otherwise there might be no signal. -/
theorem decodeFrom_fromPoll {d : Decoder} (hd : d.failure = none) {n polls : Nat}
    (hpolls : polls < n) {readings : List Reading} (hend : (delivery readings).2 = .complete) :
    decodeFrom (.fromPoll n) polls d readings =
      if n ≤ polls + (chunks readings).length + 1 ∧
          (d.written ((chunks readings).take (n - 1 - polls))).failure = none
        then .error .aborted
        else decodeFrom .never polls d readings := by
  fun_induction delivery readings generalizing d polls with
  | case1 => exact finish_fromPoll hd n polls
  | case2 rest => exact finish_fromPoll hd n polls
  | case3 rest => cases hend
  | case4 rest => cases hend
  | case5 rest => cases hend
  | case6 b part rest hlong => cases hend
  | case7 b part rest hfits ih =>
      rw [decodeFrom, decodeFrom, if_neg hfits, if_neg hfits, chunks, if_neg hfits]
      by_cases hn : n = polls + 1
      · -- this is the question at which it is stopped
        have hnone : n - 1 - polls = 0 := by omega
        rw [if_pos ⟨by omega, by rw [hnone]; exact hd⟩, Signal.fromPoll,
          decide_eq_true (Nat.le_of_eq hn), Decoder.write_stopped hd]
        rfl
      · have hlater : n - 1 - polls = (n - 1 - (polls + 1)) + 1 := by omega
        have hcons (parts : List Bytes) :
            d.written ((b :: part) :: parts) = (d.write false (b :: part)).1.written parts := rfl
        rw [Signal.fromPoll, decide_eq_false (by omega), Signal.never, hlater,
          List.take_succ_cons, List.length_cons, hcons]
        rcases hwrite : d.write false (b :: part) with ⟨after, _ | error⟩
        · have hrest := ih (Decoder.failure_of_write hwrite) (show polls + 1 < n by omega) hend
          rw [Nat.add_assoc polls 1, Nat.add_comm 1] at hrest
          exact hrest
        · have hfailure := Decoder.failure_of_write hwrite
          rw [if_neg]
          rintro ⟨-, hnone⟩
          rw [Decoder.written_eq_write, Decoder.write_of_failure hfailure, hfailure] at hnone
          cases hnone

/-- Without a signal, reading to the end of the stream does not end in being stopped. -/
theorem decodeReadings_never_ne_aborted {readings : List Reading}
    (hend : (delivery readings).2 = .complete) :
    decodeReadings .never readings ≠ .error .aborted := by
  have hfresh : ({} : Decoder).failure = none := rfl
  rw [decodeReadings, decodeFrom_eq_outcome hfresh, hend, Decoder.outcome_complete hfresh]
  exact Decoder.decoded_ne_aborted hfresh _

/-! ### The law of errors and stopping -/

namespace Decoder

/-- **As long as no call has failed**, there might be no caller who may stop it; what is told to
stop then looks at nothing. -/
theorem called_of_none {calls : List (Bool × Bytes)}
    (h : ∀ reply ∈ replies {} calls, reply = none) :
    (∀ call ∈ calls, call.1 = false) ∧ called calls = written {} (calls.map Prod.snd) ∧
      (∀ part, (called calls).write true part = (called calls).poison .aborted) ∧
      ∀ stopped, (called calls).finish stopped =
        if stopped then .error .aborted else decode (calls.flatMap Prod.snd) := by
  obtain ⟨hnever, hwritten, hfailure⟩ := called_of_replies rfl h
  refine ⟨hnever, hwritten, write_stopped hfailure, ?_⟩
  intro stopped
  cases stopped with
  | true =>
      change finish (after {} calls) true = _
      rw [finish, hfailure]
      rfl
  | false =>
      change finish (after {} calls) false = decode (calls.flatMap Prod.snd)
      rw [hwritten, written_eq_write, finish_write rfl, decode_eq_decoded, List.flatMap_def]

/-- **The first error is final**, and it is that of being stopped or that of a byte. -/
theorem called_of_some {earlier : List (Bool × Bytes)}
    (h : ∀ reply ∈ replies {} earlier, reply = none) {stopped : Bool} {part : Bytes}
    {error : DecodeError} (hwrite : ((called earlier).write stopped part).2 = some error)
    (later : List (Bool × Bytes)) :
    (error = .aborted ↔ stopped = true) ∧
      (stopped = false → ∃ good b rest, part = good ++ b :: rest ∧
        ((called earlier).write false good).2 = none ∧
        ∀ more, ((called earlier).write false (good ++ b :: more)).2 = some error) ∧
      replies {} (earlier ++ (stopped, part) :: later) =
        List.replicate earlier.length none ++ List.replicate (later.length + 1) (some error) ∧
      (called (earlier ++ (stopped, part) :: later)).depth = 0 ∧
      ∀ flag, (called (earlier ++ (stopped, part) :: later)).finish flag = .error error := by
  obtain ⟨-, -, hnone⟩ := called_of_replies rfl h
  change (called earlier).failure = none at hnone
  obtain ⟨failed, hcall⟩ : ∃ failed, (called earlier).write stopped part = (failed, some error) :=
    ⟨_, Prod.ext rfl hwrite⟩
  have hfailure := failure_of_write hcall
  obtain ⟨hsame, hreplies⟩ := replies_of_failure hfailure later
  have hcalled : called (earlier ++ (stopped, part) :: later) = failed := by
    change List.foldl _ _ _ = _
    rw [List.foldl_append]
    change after ((called earlier).write stopped part).1 later = failed
    rw [hcall]
    exact hsame
  refine ⟨?_, ?_, ?_, ?_, ?_⟩
  · cases stopped with
    | true =>
        rw [write_stopped hnone] at hwrite
        cases hwrite
        exact ⟨fun _ => rfl, fun _ => rfl⟩
    | false =>
        refine ⟨?_, nofun⟩
        rintro rfl
        exact absurd hwrite (write_ne_aborted hnone part)
  · rintro rfl
    exact exists_first_byte hnone hwrite
  · rw [replies_append, replies_eq_replicate h]
    change _ ++ ((called earlier).write stopped part).2 ::
      ((called earlier).write stopped part).1.replies later = _
    rw [hcall, hreplies]
    rfl
  · rw [hcalled]
    exact depth_of_write hnone hcall
  · intro flag
    rw [hcalled]
    exact finish_of_failure hfailure flag

end Decoder

/-- **Errors are final, and stopping only ever replaces what would have come.**  As long as no call
has failed, the decoder is where it would be if nobody could stop it, and the end is that of the
whole text unless it is stopped there.  The first call that fails does so because it is told to
stop, without a look at its bytes, or else at the first byte that is wrong; it decides what every
later call replies, no container is open any more, and no root comes of it.  A source that is
stopped at the `n`-th question ends so exactly if the question is asked and the parts before it are
taken in; otherwise there might be no signal. -/
theorem errors_final_and_stopping :
    (∀ calls : List (Bool × Bytes), (∀ reply ∈ Decoder.replies {} calls, reply = none) →
      (∀ call ∈ calls, call.1 = false) ∧
      Decoder.called calls = Decoder.written {} (calls.map Prod.snd) ∧
      (∀ part, (Decoder.called calls).write true part = (Decoder.called calls).poison .aborted) ∧
      ∀ stopped, (Decoder.called calls).finish stopped =
        if stopped then .error .aborted else decode (calls.flatMap Prod.snd)) ∧
    (∀ (earlier : List (Bool × Bytes)) (stopped : Bool) (part : Bytes)
        (later : List (Bool × Bytes)) (error : DecodeError),
      (∀ reply ∈ Decoder.replies {} earlier, reply = none) →
      ((Decoder.called earlier).write stopped part).2 = some error →
      (error = .aborted ↔ stopped = true) ∧
      (stopped = false → ∃ good b rest, part = good ++ b :: rest ∧
        ((Decoder.called earlier).write false good).2 = none ∧
        ∀ more, ((Decoder.called earlier).write false (good ++ b :: more)).2 = some error) ∧
      Decoder.replies {} (earlier ++ (stopped, part) :: later) =
        List.replicate earlier.length none ++ List.replicate (later.length + 1) (some error) ∧
      (Decoder.called (earlier ++ (stopped, part) :: later)).depth = 0 ∧
      ∀ flag, (Decoder.called (earlier ++ (stopped, part) :: later)).finish flag =
        .error error) ∧
    ∀ (n : Nat) (readings : List Reading), 0 < n → (delivery readings).2 = .complete →
      (decodeReadings (.fromPoll n) readings = .error .aborted ↔
        n ≤ (chunks readings).length + 1 ∧
          (Decoder.written {} ((chunks readings).take (n - 1))).failure = none) ∧
      (decodeReadings (.fromPoll n) readings ≠ .error .aborted →
        decodeReadings (.fromPoll n) readings = decodeReadings .never readings) := by
  refine ⟨fun calls h => Decoder.called_of_none h,
    fun earlier stopped part later error h hwrite => Decoder.called_of_some h hwrite later, ?_⟩
  intro n readings hn hend
  have hfrom := decodeFrom_fromPoll (d := {}) rfl hn hend
  have hnever := decodeReadings_never_ne_aborted hend
  rw [Nat.zero_add] at hfrom
  change decodeReadings (.fromPoll n) readings = ite _ _ (decodeReadings .never readings) at hfrom
  rw [hfrom]
  split
  · next hstopped => exact ⟨⟨fun _ => hstopped, fun _ => rfl⟩, fun h => absurd rfl h⟩
  · next hpassed => exact ⟨⟨fun h => absurd h hnever, fun h => absurd h hpassed⟩, fun _ => rfl⟩

/-- An array that is stopped in its middle, one that is refused there, and a source that is stopped
before its second part. -/
theorem errors_final_and_stopping_array :
    (Decoder.called [(false, [Ascii.openSquare])]).finish true = .error .aborted ∧
      (Decoder.called [(false, [Ascii.openSquare]), (false, [Ascii.comma]),
          (true, [Ascii.closeSquare])]).finish true =
        .error (.parseSyntaxError ⟨.expectedArrayItem, Ascii.comma, 1⟩) ∧
      decodeReadings (.fromPoll 2) [.bytes [Ascii.openSquare], .bytes [Ascii.closeSquare]] =
        .error .aborted := by
  obtain ⟨hpassed, hfinal, hreadings⟩ := errors_final_and_stopping
  have hopen : ∀ reply ∈ Decoder.replies {} [(false, [Ascii.openSquare])], reply = none :=
    List.forall_mem_singleton.2 rfl
  refine ⟨?_, ?_, ?_⟩
  · exact (hpassed _ hopen).2.2.2 true
  · exact (hfinal _ false [Ascii.comma] [(true, [Ascii.closeSquare])] _ hopen rfl).2.2.2.2 true
  · exact (hreadings 2 _ (by decide) rfl).1.2 ⟨by decide, rfl⟩

end DocCodec
