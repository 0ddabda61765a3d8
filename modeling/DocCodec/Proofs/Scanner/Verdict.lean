/-
**The verdict of a scan.**

What a scan of a whole text comes to is its verdict: the reason why it stops early, or how many
bytes it accepted and the state that its listener ends up in.  A verdict forgets what is left
behind by a scan that stops, so verdicts compose: the verdict on a text is the outcome of the first
byte and then the verdict on the rest.

What a scan does to its listener is a script, a list of cues: an event to be heard, or a fault
that ends the scan.

Main definitions:

* `DocCodec.Scanner.verdict` — **the verdict on a text**;
* `DocCodec.Scanner.Cue`, `DocCodec.Scanner.perform` — an event or a fault, and a list of them
  carried out with a listener;
* `DocCodec.Scanner.scan` — the scan of a whole text from its start.

Main results:

* `DocCodec.Scanner.verdict_cons` — the verdict on a text, byte by byte;
* `DocCodec.Scanner.feed_spaces`, `DocCodec.Scanner.verdict_spaces` — white space between tokens is
  only counted;
* `DocCodec.Scanner.verdict_scan` — the verdict on a whole text is what its scan comes to.
-/

import DocCodec.Scanner.Feed
import DocCodec.Proofs.Grammar

set_option relaxedAutoImplicit false
set_option autoImplicit false

namespace DocCodec.Scanner

variable {σ ε : Type}

/-! ### Outcomes -/

/-- What a scan comes to so far: the scanner and the listener, or why it stopped. -/
def Progress.outcome : Progress σ ε → Except (Stop ε) (Scanner × σ)
  | ⟨scanner, listener, none⟩ => .ok (scanner, listener)
  | ⟨_, _, some stop⟩ => .error stop

/-- What a listener makes of an event. -/
def hear (listen : Listener σ ε) (state : σ) (event : Event) (offset : Nat) : Except (Stop ε) σ :=
  match listen state event offset with
  | (state, none) => .ok state
  | (_, some reason) => .error (.refused reason)

theorem outcome_raise (listen : Listener σ ε) (offset : Nat) (state : σ) (event : Event)
    (refused : Scanner) (next : Reaction) :
    ((Reaction.raise event refused next).run listen offset state).outcome =
      hear listen state event offset >>= fun state => (next.run listen offset state).outcome := by
  rw [Reaction.run, hear]
  rcases listen state event offset with ⟨state, _ | reason⟩ <;> rfl

/-- What comes after something that may fail is reached only if it does not. -/
theorem exists_of_bind_ok {α β δ : Type} {first : Except α β} {next : β → Except α δ} {r : δ}
    (h : (first >>= next) = .ok r) : ∃ x, first = .ok x ∧ next x = .ok r := by
  cases first with
  | error e => cases h
  | ok x => exact ⟨x, rfl, h⟩

/-! ### Scans that go on -/

section

variable {listen : Listener σ ε} {s after : Scanner} {state state' : σ}

/-- A scan of a byte and more is the scan of the byte and then of the others. -/
theorem exists_of_feed_cons {b : UInt8} {x : Bytes}
    (h : feed listen s state (b :: x) = ⟨after, state', none⟩) :
    ∃ next heard, (s.step b).run listen s.consumed state = ⟨next, heard, none⟩ ∧
      feed listen next.advance heard x = ⟨after, state', none⟩ := by
  rw [feed] at h
  rcases hrun : (s.step b).run listen s.consumed state with ⟨next, heard, _ | stop⟩
  · rw [hrun] at h
    exact ⟨next, heard, rfl, h⟩
  · rw [hrun] at h
    cases h

/-- A scan of two parts is the scan of the first and then of the second. -/
theorem exists_of_feed_append {x y : Bytes}
    (h : feed listen s state (x ++ y) = ⟨after, state', none⟩) :
    ∃ next heard, feed listen s state x = ⟨next, heard, none⟩ ∧
      feed listen next heard y = ⟨after, state', none⟩ := by
  rw [feed_append] at h
  rcases hfeed : feed listen s state x with ⟨next, heard, _ | stop⟩
  · rw [hfeed] at h
    exact ⟨next, heard, rfl, h⟩
  · rw [hfeed] at h
    cases h

end

/-! ### Verdicts -/

/-- **The verdict on a text**, which begins where the scanner stands. -/
def verdict (listen : Listener σ ε) (s : Scanner) (state : σ) (text : Bytes) :
    Except (Stop ε) (Nat × σ) := do
  let (after, state) ← (feed listen s state text).outcome
  let (after, state) ← (close listen after state).outcome
  return (after.consumed, state)

section

variable (listen : Listener σ ε)

/-- A byte that is accepted without an event is passed over. -/
theorem feed_of_accept {s after : Scanner} {b : UInt8} (h : s.step b = .accept after) (state : σ)
    (text : Bytes) : feed listen s state (b :: text) = feed listen after.advance state text := by
  rw [feed, h]
  rfl

/-- Scans that go on alike come to the same. -/
theorem verdict_eq_of_feed {s after : Scanner} {state state' : σ} {text rest : Bytes}
    (h : feed listen s state text = feed listen after state' rest) :
    verdict listen s state text = verdict listen after state' rest := by
  unfold verdict
  rw [h]

/-- The verdict on a text that has ended. -/
theorem verdict_nil (s : Scanner) (state : σ) :
    verdict listen s state [] =
      (s.finish.run listen s.consumed state).outcome >>= fun p => .ok (p.1.consumed, p.2) := rfl

/-- **The verdict on a text, byte by byte.** -/
theorem verdict_cons (s : Scanner) (state : σ) (b : UInt8) (text : Bytes) :
    verdict listen s state (b :: text) =
      ((s.step b).run listen s.consumed state).outcome >>= fun p =>
        verdict listen p.1.advance p.2 text := by
  unfold verdict
  simp only [feed]
  rcases (s.step b).run listen s.consumed state with ⟨after, state, _ | stop⟩ <;> rfl

/-- A byte that is accepted without an event. -/
theorem verdict_of_accept {s after : Scanner} {b : UInt8} (h : s.step b = .accept after)
    (state : σ) (text : Bytes) :
    verdict listen s state (b :: text) = verdict listen after.advance state text :=
  verdict_eq_of_feed listen (feed_of_accept listen h state text)

/-- A byte that is rejected. -/
theorem verdict_of_reject {s left : Scanner} {b : UInt8} {error : SyntaxError}
    (h : s.step b = .reject error left) (state : σ) (text : Bytes) :
    verdict listen s state (b :: text) = .error (.fault error) := by
  rw [verdict_cons, h]
  rfl

/-- A byte that completes one event. -/
theorem verdict_of_raise {s refused after : Scanner} {b : UInt8} {event : Event}
    (h : s.step b = .raise event refused (.accept after)) (state : σ) (text : Bytes) :
    verdict listen s state (b :: text) =
      hear listen state event s.consumed >>= fun state =>
        verdict listen after.advance state text := by
  rw [verdict_cons, h, outcome_raise, bind_assoc]
  rfl

/-- A rejected byte is not accepted. -/
theorem ne_ok_of_reject {s left : Scanner} {b : UInt8} {error : SyntaxError}
    (h : s.step b = .reject error left) {state : σ} {text : Bytes} {r : Nat × σ} :
    verdict listen s state (b :: text) ≠ .ok r := by
  rw [verdict_of_reject listen h]
  nofun

/-- A byte that is rejected after an event is not accepted either. -/
theorem ne_ok_of_raise_reject {s refused left : Scanner} {b : UInt8} {event : Event}
    {error : SyntaxError} (h : s.step b = .raise event refused (.reject error left)) {state : σ}
    {text : Bytes} {r : Nat × σ} : verdict listen s state (b :: text) ≠ .ok r := by
  rw [verdict_cons, h, outcome_raise]
  cases hear listen state event s.consumed <;> nofun

/-- The input may only end when no container is open, after the root or within a number that is
complete. -/
theorem ended_of_ok {s : Scanner} {state : σ} {r : Nat × σ}
    (h : verdict listen s state [] = .ok r) :
    s.stack = [] ∧ (s.phase = .finished ∨ ∃ p, s.phase = .number p ∧ p.isComplete = true) := by
  have hfault (fault : Fault) : s.finish ≠ s.fail fault Ascii.space := by
    intro hfinish
    rw [verdict_nil, hfinish] at h
    cases h
  unfold finish at hfault
  by_cases hstack : s.stack = []
  · refine ⟨hstack, ?_⟩
    split at hfault
    · exact absurd rfl (hfault _)
    · rw [if_neg (not_not_intro hstack)] at hfault
      split at hfault
      · exact absurd rfl (hfault _)
      · split at hfault
        · next hphase => exact .inl hphase
        · next p hphase =>
            split at hfault
            · next hp => exact .inr ⟨p, hphase, hp⟩
            · exact absurd rfl (hfault _)
        · exact absurd rfl (hfault _)
  · split at hfault
    · exact absurd rfl (hfault _)
    · rw [if_pos hstack] at hfault
      exact absurd rfl (hfault _)

end

/-! ### Where a scan goes on -/

/-- A scanner in another phase. -/
def move (s : Scanner) (phase : Phase) : Scanner := { s with phase }

section

variable (s : Scanner) (phase : Phase)

@[simp] theorem phase_move : (s.move phase).phase = phase := rfl

@[simp] theorem stack_move : (s.move phase).stack = s.stack := rfl

@[simp] theorem consumed_move : (s.move phase).consumed = s.consumed := rfl

@[simp] theorem text_move : (s.move phase).text = s.text := rfl

@[simp] theorem move_move (phase' : Phase) : (s.move phase).move phase' = s.move phase' := rfl

theorem resume_eq_move : s.resume = s.move (.afterValue s.stack) := rfl

end

/-! ### White space -/

/-- Whether white space may stand where a scan stands. -/
def Phase.skips : Phase → Bool
  | .text _ _ | .number _ | .word _ _ => false
  | _ => true

theorem step_space {s : Scanner} (hs : s.phase.skips = true) {b : UInt8}
    (hb : Ascii.isSpace b = true) : s.step b = .accept s := by
  unfold step
  split <;> simp_all [Phase.skips, beforeKey, beforeItem]

/-- A scanner that has counted some bytes more. -/
def skip (s : Scanner) (count : Nat) : Scanner := { s with consumed := s.consumed + count }

@[simp] theorem skip_skip (s : Scanner) (m n : Nat) : (s.skip m).skip n = s.skip (m + n) := by
  simp [skip, Nat.add_assoc]

@[simp] theorem consumed_advance (s : Scanner) : s.advance.consumed = s.consumed + 1 := rfl

theorem advance_eq_skip (s : Scanner) : s.advance = s.skip 1 := rfl

@[simp] theorem phase_skip (s : Scanner) (count : Nat) : (s.skip count).phase = s.phase := rfl

@[simp] theorem room_skip (s : Scanner) (count : Nat) : (s.skip count).room = s.room := rfl

@[simp] theorem consumed_skip (s : Scanner) (count : Nat) :
    (s.skip count).consumed = s.consumed + count := rfl

/-- **White space between tokens is only counted.** -/
theorem feed_spaces (listen : Listener σ ε) {s : Scanner} (hs : s.phase.skips = true) {bytes : Bytes}
    (hbytes : ∀ b ∈ bytes, Ascii.isSpace b = true) (state : σ) (text : Bytes) :
    feed listen s state (bytes ++ text) = feed listen (s.skip bytes.length) state text := by
  induction bytes generalizing s with
  | nil => rfl
  | cons b bytes ih =>
      have hb := hbytes b (by simp)
      have hrest : ∀ b ∈ bytes, Ascii.isSpace b = true := fun b h => hbytes b (by simp [h])
      rw [List.cons_append, feed_of_accept listen (step_space hs hb), advance_eq_skip,
        ih (by simpa using hs) hrest]
      simp [Nat.add_comm]

/-- A text of nothing but white space. -/
theorem feed_of_spaces (listen : Listener σ ε) {s : Scanner} (hs : s.phase.skips = true)
    {bytes : Bytes} (hbytes : ∀ b ∈ bytes, Ascii.isSpace b = true) (state : σ) :
    feed listen s state bytes = ⟨s.skip bytes.length, state, none⟩ := by
  have hfeed := feed_spaces listen hs hbytes state []
  rwa [List.append_nil] at hfeed

theorem verdict_spaces (listen : Listener σ ε) {s : Scanner} (hs : s.phase.skips = true)
    (spaces : Grammar.Spaces) (state : σ) (text : Bytes) :
    verdict listen s state (spaces.bytes ++ text) =
      verdict listen (s.skip spaces.bytes.length) state text :=
  verdict_eq_of_feed listen (feed_spaces listen hs spaces.isSpace_of_mem state text)

/-- Every text begins with white space, as much as there is. -/
theorem exists_spaces (text : Bytes) :
    ∃ (spaces : Grammar.Spaces) (rest : Bytes), text = spaces.bytes ++ rest ∧
      ∀ b ∈ rest.head?, Ascii.isSpace b = false := by
  refine ⟨⟨text.takeWhile Ascii.isSpace, ?_⟩, text.dropWhile Ascii.isSpace, ?_, ?_⟩
  · intro b hb
    exact List.all_eq_true.1 List.all_takeWhile b hb
  · exact List.takeWhile_append_dropWhile.symm
  · intro b hb
    have := List.head?_dropWhile_not Ascii.isSpace text
    rw [hb] at this
    simpa using this

/-! ### After a value -/

/-- A scanner whose innermost container, which is of the given kind, has been closed. -/
def closed (s : Scanner) : Scanner := { s with stack := s.stack.tail, room := s.room + 1 }

theorem leave_eq {s : Scanner} {kind : Bracket} (h : kind ∈ s.stack.head?) :
    s.leave kind = .raise (.leave kind) s.closed (.accept s.closed.resume) := by
  cases hstack : s.stack with
  | nil => rw [hstack] at h; cases h
  | cons top outer =>
      rw [hstack] at h
      cases h
      simp [leave, hstack, closed]

theorem leave_eq_fail {s : Scanner} {kind : Bracket} (h : kind ∉ s.stack.head?) :
    ∃ fault, s.leave kind = s.fail fault kind.closing := by
  cases hstack : s.stack with
  | nil => exact ⟨_, by rw [leave, hstack]⟩
  | cons top outer =>
      have htop : top ≠ kind := by
        rintro rfl
        exact h (by rw [hstack]; rfl)
      exact ⟨leave.unopened kind, by simp [leave, hstack, htop]⟩

/-- After a value, a comma separates it from the next one. -/
theorem step_comma {s : Scanner} (hs : s.phase = .afterValue s.stack) (h : s.stack ≠ []) :
    s.step Ascii.comma = s.separate := by
  cases hstack : s.stack with
  | nil => exact absurd hstack h
  | cons top outer => cases top <;> rw [step, hs, hstack] <;> rfl

/-- After a value, the closing bracket of the innermost container closes it. -/
theorem step_closing {s : Scanner} (hs : s.phase = .afterValue s.stack) {kind : Bracket}
    (h : kind ∈ s.stack.head?) : s.step kind.closing = s.leave kind := by
  cases hstack : s.stack with
  | nil => rw [hstack] at h; cases h
  | cons top outer =>
      rw [hstack] at h
      cases h
      cases kind <;> rw [step, hs, hstack] <;> rfl

/-! ### Scripts -/

/-- What a scan has its listener do: hear an event, or be told that the scan ends with a fault. -/
inductive Cue
  | event (event : Event) (offset : Nat)
  | fault (error : SyntaxError)
  deriving DecidableEq, Repr

/-- Carries out one cue. -/
def cue (listen : Listener σ ε) (state : σ) : Cue → Except (Stop ε) σ
  | .event event offset => hear listen state event offset
  | .fault error => .error (.fault error)

/-- **Carries out a script** up to the first fault or refusal. -/
def perform (listen : Listener σ ε) (state : σ) (script : List Cue) : Except (Stop ε) σ :=
  script.foldlM (cue listen) state

section

variable (listen : Listener σ ε) (state : σ)

@[simp] theorem perform_cons (first : Cue) (script : List Cue) :
    perform listen state (first :: script) =
      cue listen state first >>= fun state => perform listen state script := rfl

@[simp] theorem perform_singleton (only : Cue) :
    perform listen state [only] = cue listen state only := by
  rw [perform_cons]
  cases cue listen state only <;> rfl

@[simp] theorem perform_append (first second : List Cue) :
    perform listen state (first ++ second) =
      perform listen state first >>= fun state => perform listen state second :=
  List.foldlM_append

end

/-- Whether a cue is an event. -/
def Cue.isEvent : Cue → Bool
  | .event _ _ => true
  | .fault _ => false

/-- A script that is carried out to its end has no faults. -/
theorem isEvent_of_perform_ok (listen : Listener σ ε) {state after : σ} {script : List Cue}
    (h : perform listen state script = .ok after) : ∀ c ∈ script, c.isEvent = true := by
  induction script generalizing state with
  | nil => simp
  | cons first script ih =>
      rw [perform_cons] at h
      cases first with
      | fault error => cases h
      | event event offset =>
          cases hfirst : cue listen state (.event event offset) with
          | error stop => rw [hfirst] at h; cases h
          | ok next =>
              rw [hfirst] at h
              simpa [Cue.isEvent] using ih h

/-! ### Whole texts -/

/-- The scan of a whole text from its start, with at most `bound` containers open at a time. -/
def scan (listen : Listener σ ε) (bound : Nat) (state : σ) (text : Bytes) : Progress σ ε :=
  match feed listen { room := bound } state text with
  | ⟨after, state, none⟩ => close listen after state
  | stopped => stopped

/-- **The verdict on a whole text is what its scan comes to.** -/
theorem verdict_scan (listen : Listener σ ε) (bound : Nat) (state : σ) (text : Bytes) :
    verdict listen { room := bound } state text =
      (scan listen bound state text).outcome.map fun p => (p.1.consumed, p.2) := by
  unfold verdict scan
  rcases feed listen { room := bound } state text with ⟨after, state, _ | stop⟩
  · simp only [Progress.outcome]
    change ((close listen after state).outcome >>= _) = _
    rcases (close listen after state) with ⟨after, state, _ | stop⟩ <;> rfl
  · rfl

end DocCodec.Scanner
