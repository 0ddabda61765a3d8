/-
**Texts that are cut short.**

A text that is decoded may be cut anywhere.  What is left is decoded as before if all of the root is
left.  Otherwise it is refused: as a literal that is not terminated if the cut is within a literal,
and as incomplete input wherever else it is, within a word or a number, between an entry and the
next, or before the root.

For a container that has been opened is open until the root is complete, and the end of the input is
refused while one is.  A scan that has come to the end of the root completes no more events; so the
end of the root, which is the last event of the text, is then before the cut.

Main definitions:

* `DocCodec.Scanner.Rooted` — a scanner that has come to a root which is a container;
* `DocCodec.Scanner.shortfall` — what the end of the input is refused with, if it comes too early.

Main results:

* `DocCodec.Scanner.Reacts.rooted` — a root that has been opened is open until it is complete;
* `DocCodec.Scanner.unfinished_of_cut` — **before the end of the root the scan is not finished**;
* `DocCodec.decode_truncated` — **what a text that is cut short is decoded as**.
-/

import DocCodec.Proofs.Decoder.Language
import DocCodec.Proofs.Scanner.Literal

set_option relaxedAutoImplicit false
set_option autoImplicit false

namespace DocCodec

/-- A container begins with a bracket, and its last event is that of its last byte. -/
theorem Grammar.Node.exists_opening {n : Node} (h : n.denoted.container?.isSome = true)
    (start : Nat) : ∃ (kind : Bracket) (body : Bytes), n.bytes = kind.opening :: body ∧
      (.leave kind, start + body.length) ∈ n.trace start := by
  cases n with
  | word word => cases word <;> cases h
  | number number =>
      rw [denoted] at h
      unfold Number.denoted at h
      split at h <;> cases h
  | string letters => cases h
  | empty kind gap => exact ⟨kind, _, rfl, by simp [trace]; omega⟩
  | array items => exact ⟨.square, _, rfl, by simp [trace]; omega⟩
  | object members => exact ⟨.brace, _, rfl, by simp [trace]; omega⟩

namespace Scanner

variable {σ ε : Type}

/-! ### Scans with other listeners -/

theorem Reaction.run_noting_of_result (note : σ → Event → Nat → σ) {r : Reaction}
    {after : Scanner} (h : r.result = .ok after) (offset : Nat) (state : σ) :
    ∃ heard, r.run (noting note : Listener σ ε) offset state = ⟨after, heard, none⟩ := by
  induction r generalizing state with
  | accept found =>
      cases h
      exact ⟨state, rfl⟩
  | reject error left => cases h
  | raise event refused next ih => exact ih h (note state event offset)

/-- A scan that goes on comes as far with a listener that refuses nothing. -/
theorem feed_noting_of_feed (note : σ → Event → Nat → σ) {σ' ε' : Type} {listen : Listener σ' ε'}
    {s after : Scanner} {state state' : σ'} {x : Bytes}
    (h : feed listen s state x = ⟨after, state', none⟩) (heard : σ) :
    ∃ heard', feed (noting note : Listener σ ε) s heard x = ⟨after, heard', none⟩ := by
  induction x generalizing s state heard with
  | nil =>
      cases h
      exact ⟨heard, rfl⟩
  | cons b x ih =>
      obtain ⟨next, state'', hrun, hrest⟩ := exists_of_feed_cons h
      obtain ⟨noted, hnoted⟩ := Reaction.run_noting_of_result (ε := ε) note
        (Reaction.result_of_run listen hrun) s.consumed heard
      obtain ⟨heard', hfeed⟩ := ih hrest noted
      refine ⟨heard', ?_⟩
      rw [feed, hnoted]
      exact hfeed

/-! ### Open roots -/

/-- **Whether a scanner has come to a root which is a container**: the container is open, or the
root is complete. -/
def Rooted (s : Scanner) : Prop := s.stack ≠ [] ∨ s.phase = .finished

theorem rooted_of_afterValue {s : Scanner} (h : s.phase = .afterValue s.stack) : s.Rooted := by
  cases hstack : s.stack with
  | nil =>
      rw [hstack] at h
      exact .inr h
  | cons kind outer => exact .inl (by simp [hstack])

theorem Rooted.of_stack {s after : Scanner} (hs : s.Rooted) (hphase : s.phase ≠ .finished)
    (hstack : after.stack = s.stack) : after.Rooted := by
  refine .inl ?_
  rw [hstack]
  exact hs.resolve_right hphase

section

variable {s : Scanner} {b : UInt8} {r : Reaction} {after : Scanner}

theorem ReactsPast.rooted (h : ReactsPast s b r) (hr : r.result = .ok after) : after.Rooted := by
  cases h with
  | space hb =>
      cases hr
      exact rooted_of_afterValue rfl
  | comma hb hkind =>
      cases hr
      refine .inl ?_
      rintro (hnil : s.stack = [])
      rw [hnil] at hkind
      cases hkind
  | close hb hkind =>
      cases hr
      exact rooted_of_afterValue rfl
  | reject fault hfault comma => cases hr

/-- **A root that has been opened is open until it is complete.** -/
theorem Reacts.rooted (h : Reacts s b r) (hs : s.Rooted) (hr : r.result = .ok after) :
    after.Rooted := by
  cases h with
  | space hskips hb =>
      cases hr
      exact hs
  | enter hvalue hb hroom =>
      cases hr
      exact .inl (List.cons_ne_nil _ _)
  | leave hphase hpending hb hkind =>
      cases hr
      exact rooted_of_afterValue rfl
  | beginString hvalue hb =>
      cases hr
      exact hs.of_stack hvalue.ne_finished rfl
  | beginKey hphase hb =>
      cases hr
      exact hs.of_stack (by simp [hphase]) rfl
  | text hphase hb =>
      cases hr
      exact hs.of_stack (by simp [hphase]) rfl
  | string hphase hb =>
      cases hr
      exact rooted_of_afterValue rfl
  | key hphase hb =>
      cases hr
      exact hs.of_stack (by simp [hphase]) rfl
  | colon hphase hb =>
      cases hr
      exact hs.of_stack (by simp [hphase]) rfl
  | beginWord hvalue hb =>
      cases hr
      exact hs.of_stack hvalue.ne_finished rfl
  | letter hphase =>
      cases hr
      exact hs.of_stack (by simp [hphase]) rfl
  | word hphase =>
      cases hr
      exact rooted_of_afterValue rfl
  | beginNumber hvalue hb =>
      cases hr
      exact hs.of_stack hvalue.ne_finished rfl
  | digit hphase hb =>
      cases hr
      exact hs.of_stack (by simp [hphase]) rfl
  | number hphase hp hnext => exact hnext.rooted hr
  | past hphase hpast => exact hpast.rooted hr
  | trailingComma hpending hb => cases hr
  | reject fault hfault comma => cases hr

end

theorem rooted_of_feed (listen : Listener σ ε) {s after : Scanner} {state state' : σ} {x : Bytes}
    (hcoherent : s.Coherent) (hs : s.Rooted)
    (h : feed listen s state x = ⟨after, state', none⟩) : after.Rooted := by
  refine hcoherent.kept_by_feed listen (P := fun _ t => t.Rooted) (x := []) hs ?_ h
  intro _ t b next ht hrooted hresult
  have hnext : next.Rooted := (ht.reacts b).rooted hrooted hresult
  exact hnext

theorem stack_of_enter {s after : Scanner} {kind : Bracket}
    (h : (s.enter kind).result = .ok after) : after.stack = kind :: s.stack := by
  unfold enter at h
  split at h
  · cases h
  · cases h
    rfl

/-- A scan that has come past the opening bracket of the root. -/
theorem rooted_of_opening (listen : Listener σ ε) {bound : Nat} {before x : Bytes}
    (hbefore : ∀ b ∈ before, Ascii.isSpace b = true) {kind : Bracket} {state state' : σ}
    {after : Scanner}
    (h : feed listen { room := bound } state (before ++ kind.opening :: x) =
      ⟨after, state', none⟩) : after.Rooted := by
  have hfeed : feed listen { room := bound } state before = _ :=
    feed_of_spaces listen rfl hbefore state
  rw [feed_append, hfeed] at h
  obtain ⟨next, heard, hrun, hrest⟩ := exists_of_feed_cons h
  have hcoherent := ((coherent_start bound).of_feed listen hfeed).of_run listen hrun
  have hexpects : (skip { room := bound } before.length).ExpectsValue := .inr ⟨.inl rfl, rfl⟩
  have hresult := Reaction.result_of_run listen hrun
  rw [step_opening hexpects] at hresult
  have hstack : next.stack = [kind] := stack_of_enter hresult
  refine rooted_of_feed listen hcoherent (.inl ?_) hrest
  change next.stack ≠ []
  rw [hstack]
  exact List.cons_ne_nil _ _

/-! ### Scans behind the root -/

theorem step_finished {s next : Scanner} {b : UInt8} (hs : s.phase = .finished)
    (h : (s.step b).result = .ok next) : s.step b = .accept s := by
  rw [step, hs] at h ⊢
  simp only at h ⊢
  split
  · rfl
  · next hb =>
      rw [if_neg hb] at h
      cases h

theorem events_finish_finished {s : Scanner} (hs : s.phase = .finished) : s.finish.events = [] := by
  rw [finish, hs]
  simp only
  split
  · rfl
  · split <;> rfl

/-- **Behind the root no more events are raised.** -/
theorem eq_nil_of_finished {s after : Scanner} {x : Bytes} {log : Grammar.Trace}
    (hcoherent : s.Coherent) (hs : s.phase = .finished)
    (h : feed logging s [] x = ⟨after, log, none⟩) : after.phase = .finished ∧ log = [] := by
  refine hcoherent.of_feed_logging (P := fun t heard => t.phase = .finished ∧ heard = [])
    ⟨hs, rfl⟩ ?_ h
  rintro t heard b next - ⟨hphase, rfl⟩ hresult -
  have hstep := step_finished hphase hresult
  rw [hstep] at hresult ⊢
  cases hresult
  exact ⟨hphase, rfl⟩

section

variable {t : Grammar.Text} {bound : Nat} {first second : Bytes} {s : Scanner}
  {log : Grammar.Trace}

/-- **Before the end of the root the scan is not finished.** -/
theorem unfinished_of_cut (hroot : t.root.denoted.container?.isSome = true)
    (hdepth : t.depth ≤ bound) (hcut : t.bytes = first ++ second)
    (hshort : first.length < t.before.bytes.length + t.root.bytes.length)
    (h : feed logging { room := bound } [] first = ⟨s, log, none⟩) : s.phase ≠ .finished := by
  intro hphase
  obtain ⟨found, after, closed, log, more, last, hfirst, hsecond, hclose, htrace⟩ :=
    exists_logs_of_cut hdepth hcut
  cases h.symm.trans hfirst
  obtain ⟨hconsumed, -⟩ := pendingComma_of_feed _ hfirst
  obtain ⟨hafter, rfl⟩ := eq_nil_of_finished ((coherent_start bound).of_feed logging hfirst)
    hphase hsecond
  have hlast := listener_run_logging after.finish after.consumed []
  rw [close] at hclose
  rw [hclose, events_finish_finished hafter] at hlast
  obtain rfl : last = [] := hlast
  -- So the event of the closing bracket is among those before the cut.
  obtain ⟨kind, body, hbytes, hmem⟩ := t.root.exists_opening hroot t.before.bytes.length
  rw [← Grammar.Text.trace, htrace, List.append_nil, List.append_nil] at hmem
  have hlt := offset_lt_of_feed hfirst _ hmem
  rw [hbytes, List.length_cons] at hshort
  simp only at hlt
  omega

/-- **Where a scan stands before the end of the root**: before the root or within it. -/
theorem start_or_open_of_cut (hroot : t.root.denoted.container?.isSome = true)
    (hdepth : t.depth ≤ bound) (hcut : t.bytes = first ++ second)
    (hshort : first.length < t.before.bytes.length + t.root.bytes.length)
    (h : feed logging { room := bound } [] first = ⟨s, log, none⟩) :
    s.phase = .start ∨ s.stack ≠ [] := by
  have hspaces (hfirst : ∀ b ∈ first, Ascii.isSpace b = true) : s.phase = .start := by
    have hfeed := feed_of_spaces logging (s := { room := bound }) rfl hfirst []
    rw [h] at hfeed
    cases hfeed
    rfl
  obtain ⟨kind, body, hbody, -⟩ := t.root.exists_opening hroot 0
  -- Either the cut is before the root, or it is behind its opening bracket.
  rcases List.append_eq_append_iff.1 hcut with ⟨within, hwithin, hrest⟩ | ⟨gap, hgap, -⟩
  · cases within with
    | nil =>
        refine .inl (hspaces ?_)
        rw [hwithin, List.append_nil]
        exact t.before.isSpace_of_mem
    | cons b within =>
        rw [hbody, List.cons_append, List.cons_append, List.cons.injEq] at hrest
        obtain ⟨rfl, -⟩ := hrest
        have hunfinished := unfinished_of_cut hroot hdepth hcut hshort h
        rw [hwithin] at h
        have hrooted := rooted_of_opening logging t.before.isSpace_of_mem h
        exact .inr (hrooted.resolve_right hunfinished)
  · refine .inl (hspaces ?_)
    intro b hb
    refine t.before.isSpace_of_mem b ?_
    rw [hgap]
    exact List.mem_append_left _ hb

end

/-! ### The end of the input -/

/-- What the end of the input is refused with, if it comes too early. -/
def shortfall (s : Scanner) : DecodeError :=
  if s.literal?.isSome then
    .parseSyntaxError ⟨.unterminatedString, Ascii.space, s.consumed⟩
  else .incompleteInput

theorem exists_finish_eq {s : Scanner}
    (h : s.literal?.isSome = true ∨ s.stack ≠ [] ∨ s.phase = .start) :
    ∃ error, s.finish = .reject error s ∧ DecodeError.ofSyntax error = s.shortfall := by
  unfold shortfall finish
  split
  · next role place hs =>
      rw [literal?_of_text hs]
      exact ⟨_, rfl, rfl⟩
  · next hs =>
      have hnone : s.literal? = none := literal?_of_ne fun role place => hs role place
      rw [hnone] at h ⊢
      split
      · exact ⟨_, rfl, rfl⟩
      · next hstack =>
          split
          · exact ⟨_, rfl, rfl⟩
          · rcases h with h | h | h
            · cases h
            · exact absurd h hstack
            · rw [h]
              exact ⟨_, rfl, rfl⟩

end Scanner

/-! ### Texts that are cut -/

section

variable {first second : Bytes} {root : Container}

/-- A first part of a text that is decoded is taken in. -/
theorem exists_feed_of_decode (h : decode (first ++ second) = .ok root) :
    ∃ s a, Scanner.feed Decoder.listen {} {} first = ⟨s, a, none⟩ := by
  rw [decode_eq_decoded, Decoder.decoded, Scanner.verdict_append] at h
  rcases hfeed : Scanner.feed Decoder.listen {} {} first with ⟨s, a, _ | stop⟩
  · exact ⟨s, a, rfl⟩
  · rw [hfeed] at h
    cases h

/-- The end of the input that comes too early. -/
theorem decode_of_unfinished {s : Scanner} {a : Assembly}
    (hfeed : Scanner.feed Decoder.listen {} {} first = ⟨s, a, none⟩)
    (hs : s.literal?.isSome = true ∨ s.stack ≠ [] ∨ s.phase = .start) :
    decode first = .error s.shortfall := by
  obtain ⟨error, hfinish, herror⟩ := Scanner.exists_finish_eq hs
  rw [decode_eq_decoded, Decoder.decoded, Scanner.verdict, hfeed, ← herror]
  change (Scanner.verdict Decoder.listen s a []).mapError _ >>= _ = _
  rw [Scanner.verdict_nil, hfinish]
  rfl

/-- All of the root is what matters. -/
theorem decode_of_cut_behind {t : Grammar.Text} (h : decode t.bytes = .ok root)
    (hcut : t.bytes = first ++ second) (hroot : t.before.bytes ++ t.root.bytes <+: first) :
    decode first = .ok root := by
  obtain ⟨gap, rfl⟩ := hroot
  have hafter : t.after.bytes = gap ++ second := by
    simpa only [Grammar.Text.bytes, List.append_assoc, List.append_cancel_left_eq] using hcut
  have hgap : ∀ b ∈ gap, Ascii.isSpace b = true := by
    intro b hb
    refine t.after.isSpace_of_mem b ?_
    rw [hafter]
    exact List.mem_append_left _ hb
  have hread := decode_bytes ⟨t.before, t.root, ⟨gap, hgap⟩⟩
  rw [Grammar.Text.bytes, ← List.append_assoc] at hread
  rw [decode_bytes] at h
  exact hread.trans h

/-- **Where a text that is decoded is cut**, and what is then made of it. -/
theorem decode_of_cut {t : Grammar.Text} (h : decode t.bytes = .ok root)
    (hcut : t.bytes = first ++ second) :
    (Grammar.CutsLiteral t.trace first.length →
      decode first = .error (.parseSyntaxError ⟨.unterminatedString, Ascii.space, first.length⟩)) ∧
    (¬ t.before.bytes ++ t.root.bytes <+: first → ¬ Grammar.CutsLiteral t.trace first.length →
      decode first = .error .incompleteInput) := by
  have hadmitted := ((t.reading_eq_ok_iff root).1 ((decode_bytes t).symm.trans h)).1
  rw [hcut] at h
  obtain ⟨s, a, hfeed⟩ := exists_feed_of_decode h
  obtain ⟨log, hlog⟩ := Scanner.feed_noting_of_feed (ε := Empty)
    (fun heard event offset => heard ++ [(event, offset)]) hfeed ([] : Grammar.Trace)
  change Scanner.feed Scanner.logging _ _ _ = _ at hlog
  obtain ⟨hconsumed, -⟩ := Scanner.pendingComma_of_feed _ hlog
  have hcuts := Scanner.cutsLiteral_trace_iff hadmitted.depth_le hcut hlog
  refine ⟨?_, ?_⟩
  · intro hliteral
    rw [hcuts] at hliteral
    rw [decode_of_unfinished hfeed (.inl hliteral), Scanner.shortfall, if_pos hliteral, hconsumed]
  · intro hshort hliteral
    rw [hcuts] at hliteral
    have hlength : first.length < t.before.bytes.length + t.root.bytes.length := by
      rw [← List.length_append]
      refine Nat.lt_of_not_le ?_
      intro hle
      refine hshort (List.prefix_of_prefix_length_le ⟨t.after.bytes, ?_⟩ ⟨second, hcut.symm⟩ hle)
      rw [List.append_assoc]
      rfl
    have hstands := Scanner.start_or_open_of_cut hadmitted.isSome_container? hadmitted.depth_le
      hcut hlength hlog
    rw [decode_of_unfinished hfeed (.inr hstands.symm), Scanner.shortfall, if_neg hliteral]

end

/-- **What a text that is cut short is decoded as.**  What is left of a text that is decoded is
decoded as before if it has all of the root; it is refused as a literal that is not terminated if it
ends within a literal, and as incomplete input otherwise.  It makes no difference in which parts it
is delivered. -/
theorem decode_truncated {x : Bytes} {root : Container} (h : decode x = .ok root) :
    (∃ t : Grammar.Text, t.bytes = x) ∧
    ∀ t : Grammar.Text, t.bytes = x → ∀ left : Bytes, left <+: x →
      (t.before.bytes ++ t.root.bytes <+: left → decode left = .ok root) ∧
      (Grammar.CutsLiteral t.trace left.length →
        decode left =
          .error (.parseSyntaxError ⟨.unterminatedString, Ascii.space, left.length⟩)) ∧
      (¬ t.before.bytes ++ t.root.bytes <+: left → ¬ Grammar.CutsLiteral t.trace left.length →
        decode left = .error .incompleteInput) ∧
      (∀ parts : List Bytes, parts.flatten = left →
        (Decoder.written {} parts).finish false = decode left) ∧
      (∀ chunk : Option Nat,
        decodeReadings .never (ChunkReader.ofBytes left chunk).readings = decode left) ∧
      ∀ readings : List Reading, (∀ r ∈ readings, r = .interrupted ∨ r.IsPart) →
        readings.flatMap Reading.given = left →
          decodeReadings .never (retrying readings) = decode left := by
  refine ⟨?_, ?_⟩
  · obtain ⟨t, hbytes, -⟩ := exists_text_of_decode h
    exact ⟨t, hbytes⟩
  rintro t rfl left ⟨right, hcut⟩
  obtain ⟨hliteral, hincomplete⟩ := decode_of_cut h hcut.symm
  refine ⟨decode_of_cut_behind h hcut.symm, hliteral, hincomplete, ?_, decodeReadings_ofBytes left,
    ?_⟩
  · rintro parts rfl
    exact Decoder.finish_written parts
  · rintro readings hparts rfl
    exact decodeReadings_retrying hparts

/-- An array that holds a letter in quotation marks, and a space behind it. -/
def lettered : Grammar.Text :=
  ⟨.none, .array (.last .none (.string [.plain (Ascii.byte 'a') (by decide)]) .none), .one⟩

theorem decode_lettered :
    decode lettered.bytes = .ok (.array [.scalar (.string [Ascii.byte 'a'])]) := by
  have hread : Literal.decode? [Ascii.quote, Ascii.byte 'a'] = some [Ascii.byte 'a'] := by
    change (Literal.unescapeFrom #[] [Ascii.byte 'a']).map Array.toList = _
    rw [Literal.unescapeFrom_plain _ _ (by decide), if_neg (by decide), Literal.unescapeFrom_nil]
    rfl
  rw [decode_bytes, Grammar.Text.reading_eq_ok_iff]
  refine ⟨⟨rfl, Nat.le_of_ble_eq_true rfl, ?_⟩, ?_⟩
  · intro part hpart
    rw [List.mem_singleton.1 hpart]
    rfl
  · change Value.array [.scalar (.string ((Literal.decode? [Ascii.quote, _]).getD []))] = _
    rw [hread]
    rfl

/-- The text is cut within the letter's quotation marks, before its bracket and behind it. -/
theorem decode_truncated_lettered :
    decode lettered.bytes = .ok (.array [.scalar (.string [Ascii.byte 'a'])]) ∧
      decode (lettered.bytes.take 3) =
        .error (.parseSyntaxError ⟨.unterminatedString, Ascii.space, 3⟩) ∧
      decode (lettered.bytes.take 4) = .error .incompleteInput ∧
      decode (lettered.bytes.take 5) = .ok (.array [.scalar (.string [Ascii.byte 'a'])]) := by
  obtain ⟨-, hcut⟩ := decode_truncated decode_lettered
  have htake (length : Nat) := hcut lettered rfl _ (List.take_prefix length lettered.bytes)
  obtain ⟨-, hliteral, -⟩ := htake 3
  obtain ⟨-, -, hincomplete, -⟩ := htake 4
  obtain ⟨hroot, -⟩ := htake 5
  exact ⟨decode_lettered, hliteral (by decide), hincomplete (by decide) (by decide),
    hroot (by decide)⟩

end DocCodec
