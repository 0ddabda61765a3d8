/-
**A scanner that is used on after errors.**

A byte that is rejected stops the part of the input it stands in, but the scanner may be fed further
parts.  It then goes on as a fresh scanner would that was only fed the bytes that were accepted: what
is left behind by a rejection differs from the scanner before it in the pending comma at most, and
outside of containers no comma matters.  Two things a rejection does leave.  A comma or a closing
bracket right after a number completes the number, so the number is reported even if the byte is
then rejected, and reported again when it is completed by a byte that is accepted.  And where an
item is expected, a byte that is rejected settles the comma before it.  Such a comma is forgotten, but
an item that comes next settles it for both scanners, and until then only white space is accepted; so
only those runs are left out in which a bracket closes the array instead, or nothing comes next.

Main definitions:

* `DocCodec.Scanner.Alike` — **scanners that cannot be told apart**;
* `DocCodec.Scanner.Call`, `DocCodec.Scanner.calls` — what comes of feeding parts one by one;
* `DocCodec.Scanner.Forgets`, `DocCodec.Scanner.Follows` — how a scanner that is used on after errors
  stands to a fresh one;
* `DocCodec.Scanner.keepsCommas` — whether an item follows each comma that is forgotten;
* `DocCodec.Scanner.untimely` — the number that a rejected byte completes.

Main results:

* `DocCodec.Scanner.Alike.feed` — scanners that are alike stay so, and their listeners hear the same;
* `DocCodec.Scanner.Forgets.call_cases` — what a forgotten comma can change;
* `DocCodec.Scanner.Follows.call` — **one call keeps a scanner in step with a fresh one**;
* `DocCodec.Scanner.rejected_bytes_leave_no_trace` — **a scanner that is used on after errors is like
  a fresh one that was fed what was accepted**.
-/

import DocCodec.Proofs.Scanner.Completion

set_option relaxedAutoImplicit false
set_option autoImplicit false

namespace DocCodec.Scanner

open Grammar (Trace)

variable {σ ε : Type}

/-! ### Scanners that cannot be told apart -/

/-- Whether no container is open, and the root is a number that is being read or is complete. -/
def AtRootEnd (s : Scanner) : Prop :=
  s.stack = [] ∧ (s.phase = .finished ∨ ∃ p, s.phase = .number p)

/-- **Scanners that cannot be told apart**: they are equal but for a pending comma, where it does not
matter. -/
structure Alike (s t : Scanner) : Prop where
  settle_eq : s.settle = t.settle
  comma : s.pendingComma = t.pendingComma ∨ s.AtRootEnd

namespace Alike

variable {s t : Scanner}

theorem refl (s : Scanner) : s.Alike s := ⟨rfl, .inl rfl⟩

theorem phase_eq (h : s.Alike t) : s.phase = t.phase := congrArg (fun r => r.phase) h.settle_eq

theorem stack_eq (h : s.Alike t) : s.stack = t.stack := congrArg (fun r => r.stack) h.settle_eq

theorem consumed_eq (h : s.Alike t) : s.consumed = t.consumed :=
  congrArg (fun r => r.consumed) h.settle_eq

theorem room_eq (h : s.Alike t) : s.room = t.room := congrArg (fun r => r.room) h.settle_eq

theorem text_eq (h : s.Alike t) : s.text = t.text := congrArg (fun r => r.text) h.settle_eq

theorem depth_eq (h : s.Alike t) : s.depth = t.depth := congrArg List.length h.stack_eq

theorem atRootEnd (h : s.Alike t) (hs : s.AtRootEnd) : t.AtRootEnd := by
  rwa [AtRootEnd, ← h.stack_eq, ← h.phase_eq]

theorem symm (h : s.Alike t) : t.Alike s where
  settle_eq := h.settle_eq.symm
  comma := h.comma.imp Eq.symm h.atRootEnd

theorem trans {u : Scanner} (h : s.Alike t) (h' : t.Alike u) : s.Alike u where
  settle_eq := h.settle_eq.trans h'.settle_eq
  comma := by
    rcases h.comma with hst | hs
    · rw [hst]
      exact h'.comma.imp_right h.symm.atRootEnd
    · exact .inr hs

theorem advance (h : s.Alike t) : s.advance.Alike t.advance where
  settle_eq := congrArg Scanner.advance h.settle_eq
  comma := h.comma

/-- Scanners that are alike are equal but for the end of the root. -/
theorem eq_or (h : s.Alike t) : s = t ∨ s.AtRootEnd := by
  obtain ⟨phase, consumed, stack, room, comma, text⟩ := s
  obtain ⟨phase', consumed', stack', room', comma', text'⟩ := t
  obtain ⟨hsettle, hcomma⟩ := h
  cases hsettle
  rcases hcomma with hcomma | hend
  · cases hcomma
    exact .inl rfl
  · exact .inr hend

end Alike

/-- Reactions that differ only in scanners that cannot be told apart. -/
inductive Reaction.Alike : Reaction → Reaction → Prop
  | accept {s t : Scanner} (h : s.Alike t) : Alike (.accept s) (.accept t)
  | reject (error : SyntaxError) {s t : Scanner} (h : s.Alike t) :
      Alike (.reject error s) (.reject error t)
  | raise (event : Event) {s t : Scanner} (h : s.Alike t) {next next' : Reaction}
      (hnext : Alike next next') : Alike (.raise event s next) (.raise event t next')

theorem Reaction.Alike.refl (r : Reaction) : r.Alike r := by
  induction r with
  | accept after => exact .accept (.refl after)
  | reject error left => exact .reject error (.refl left)
  | raise event refused next ih => exact .raise event (.refl refused) ih

/-- A comma after the root is marked before it is rejected. -/
theorem separate_of_nil {s : Scanner} (h : s.stack = []) :
    s.separate = s.marked.fail .contentEnded Ascii.comma := by
  unfold separate
  split
  · next hstack => rw [h] at hstack; cases hstack
  · next hstack => rw [h] at hstack; cases hstack
  · rfl

namespace Alike

variable {s t : Scanner}

/-- A byte that is rejected for what it is. -/
theorem fail (h : s.Alike t) (fault : Fault) (b : UInt8) :
    (s.fail fault b).Alike (t.fail fault b) := by
  rw [Scanner.fail, Scanner.fail, h.consumed_eq]
  exact .reject _ h

/-- At the end of the root no container is open, so that a bracket closes none. -/
theorem leave (h : s.Alike t) (hstack : s.stack = []) (kind : Bracket) :
    (s.leave kind).Alike (t.leave kind) := by
  have hstack' : t.stack = [] := h.stack_eq ▸ hstack
  simp only [Scanner.leave, hstack, hstack']
  exact h.fail _ _

/-- The comma that is marked there is rejected. -/
theorem separate (h : s.Alike t) (hstack : s.stack = []) : s.separate.Alike t.separate := by
  have hmarked : s.marked.Alike t.marked :=
    ⟨h.settle_eq, .inl (congrArg some h.consumed_eq)⟩
  rw [separate_of_nil hstack, separate_of_nil (h.stack_eq ▸ hstack)]
  exact hmarked.fail _ _

theorem resume (h : s.Alike t) (hstack : s.stack = []) : s.resume.Alike t.resume where
  settle_eq := congrArg Scanner.resume h.settle_eq
  comma := .inr ⟨hstack, .inl (by rw [Scanner.resume, hstack]; rfl)⟩

/-- The event of a number that is complete. -/
theorem raise_number (h : s.Alike t) {next next' : Reaction} (hnext : next.Alike next') :
    (Reaction.raise (.scalar (numberToken s.text.toList) s.text.toList) s next).Alike
      (.raise (.scalar (numberToken t.text.toList) t.text.toList) t next') := by
  rw [h.text_eq]
  exact .raise _ h hnext

theorem inNumber (h : s.Alike t) (hstack : s.stack = []) (p : NumberPlace) (b : UInt8) :
    (s.inNumber p b).Alike (t.inNumber p b) := by
  unfold Scanner.inNumber
  cases p.next? b with
  | some q =>
      have hextend : (s.extend b (.number q)).Alike (t.extend b (.number q)) := by
        rw [extend, extend, h.text_eq]
        refine .accept ⟨?_, .inr ⟨hstack, .inr ⟨q, rfl⟩⟩⟩
        exact congrArg (fun r => settle { r with phase := .number q, text := t.text.push b })
          h.settle_eq
      exact hextend
  | none =>
      simp only
      split
      · split
        · exact h.raise_number (h.separate hstack)
        split
        · exact h.raise_number (.accept (h.resume hstack))
        split
        · exact h.raise_number (h.leave hstack .square)
        split
        · exact h.raise_number (h.leave hstack .brace)
        · exact h.fail _ _
      · exact h.fail _ _

/-- **Scanners that are alike react alike.** -/
theorem step (h : s.Alike t) (b : UInt8) : (s.step b).Alike (t.step b) := by
  rcases h.eq_or with rfl | ⟨hstack, hphase | ⟨p, hphase⟩⟩
  · exact .refl _
  · rw [Scanner.step, Scanner.step, ← h.phase_eq, hphase]
    simp only
    split
    · exact .accept h
    · exact h.fail _ _
  · rw [Scanner.step, Scanner.step, ← h.phase_eq, hphase]
    exact h.inNumber hstack p b

theorem finish (h : s.Alike t) : s.finish.Alike t.finish := by
  rcases h.eq_or with rfl | ⟨hstack, hphase | ⟨p, hphase⟩⟩
  · exact .refl _
  · rw [Scanner.finish, Scanner.finish, ← h.phase_eq, ← h.stack_eq, ← h.consumed_eq, hphase]
    simp only
    split
    · exact h.fail _ _
    split
    · exact h.fail _ _
    · exact .accept h
  · rw [Scanner.finish, Scanner.finish, ← h.phase_eq, ← h.stack_eq, ← h.consumed_eq, hphase]
    simp only
    split
    · exact h.fail _ _
    split
    · exact h.fail _ _
    split
    · refine h.raise_number (.accept ⟨?_, .inr ⟨hstack, .inl rfl⟩⟩)
      simp only [settle, h.room_eq, h.text_eq]
    · exact h.fail _ _

end Alike

/-- Scans that have come equally far, with scanners that cannot be told apart. -/
structure Progress.Alike (p q : Progress σ ε) : Prop where
  scanner : p.scanner.Alike q.scanner
  listener : p.listener = q.listener
  stop : p.stop = q.stop

theorem Reaction.Alike.run (listen : Listener σ ε) (offset : Nat) {r r' : Reaction}
    (h : r.Alike r') (state : σ) :
    (r.run listen offset state).Alike (r'.run listen offset state) := by
  induction h generalizing state with
  | accept h => exact ⟨h, rfl, rfl⟩
  | reject error h => exact ⟨h, rfl, rfl⟩
  | raise event h hnext ih =>
      simp only [Reaction.run]
      rcases listen state event offset with ⟨heard, _ | reason⟩
      · exact ih heard
      · exact ⟨h, rfl, rfl⟩

section

variable (listen : Listener σ ε) {s t : Scanner}

/-- **Scanners that are alike stay so**, and their listeners hear the same. -/
theorem Alike.feed (h : s.Alike t) (state : σ) (x : Bytes) :
    (Scanner.feed listen s state x).Alike (Scanner.feed listen t state x) := by
  induction x generalizing s t state with
  | nil => exact ⟨h, rfl, rfl⟩
  | cons b x ih =>
      have hrun := (h.step b).run listen s.consumed state
      simp only [Scanner.feed]
      rw [← h.consumed_eq]
      generalize (s.step b).run listen s.consumed state = p at hrun
      generalize (t.step b).run listen s.consumed state = q at hrun
      obtain ⟨after, heard, stop⟩ := p
      obtain ⟨after', heard', stop'⟩ := q
      obtain ⟨hafter, rfl, rfl⟩ := hrun
      cases stop with
      | none => exact ih (Alike.advance hafter) heard
      | some stop => exact ⟨hafter, rfl, rfl⟩

theorem Alike.close (h : s.Alike t) (state : σ) :
    (Scanner.close listen s state).Alike (Scanner.close listen t state) := by
  have hrun := h.finish.run listen s.consumed state
  simp only [Scanner.close]
  rwa [← h.consumed_eq]

end

/-! ### Calls -/

/-- What comes of a call that feeds a part of the input to a scanner. -/
structure Call where
  /-- The bytes of the part that were accepted. -/
  taken : Bytes
  /-- The events that were raised, with their offsets. -/
  raised : Trace
  /-- Why the scan stopped, or nothing if all of the part was accepted. -/
  stop : Option (Stop Empty)
  /-- How many containers are then open. -/
  depth : Nat
  deriving DecidableEq

/-- What comes of one call. -/
def call (s : Scanner) (part : Bytes) : Call :=
  let p := feed logging s [] part
  ⟨part.take (p.scanner.consumed - s.consumed), p.listener, p.stop, p.scanner.depth⟩

/-- The scanner that a call leaves, whether or not it stopped. -/
def afterCall (s : Scanner) (part : Bytes) : Scanner := (feed logging s [] part).scanner

/-- **What comes of calls that feed parts one by one**, each to the scanner that the last one left. -/
def calls (s : Scanner) : List Bytes → List Call
  | [] => []
  | part :: parts => s.call part :: (s.afterCall part).calls parts

/-- The scanner that calls leave. -/
def afterCalls (s : Scanner) : List Bytes → Scanner
  | [] => s
  | part :: parts => (s.afterCall part).afterCalls parts

/-- The bytes that were accepted. -/
def accepted (past : List Call) : Bytes := past.flatMap Call.taken

/-- The events that were raised. -/
def raised (past : List Call) : Trace := past.flatMap Call.raised

/-- Scanners that are alike give the same calls. -/
theorem Alike.call {s t : Scanner} (h : s.Alike t) (part : Bytes) :
    s.call part = t.call part ∧ (s.afterCall part).Alike (t.afterCall part) := by
  obtain ⟨hscanner, hlistener, hstop⟩ := h.feed logging [] part
  refine ⟨?_, hscanner⟩
  simp only [Scanner.call, hscanner.consumed_eq, h.consumed_eq, hlistener, hstop,
    hscanner.depth_eq]

theorem Alike.calls {s t : Scanner} (h : s.Alike t) (parts : List Bytes) :
    s.calls parts = t.calls parts ∧ (s.afterCalls parts).Alike (t.afterCalls parts) := by
  induction parts generalizing s t with
  | nil => exact ⟨rfl, h⟩
  | cons part parts ih =>
      obtain ⟨hcall, hafter⟩ := h.call part
      obtain ⟨hcalls, hlast⟩ := ih hafter
      exact ⟨by rw [Scanner.calls, Scanner.calls, hcall, hcalls], hlast⟩

/-! ### What a rejection leaves -/

/-- The number that a rejected byte completes, if it is a comma or a closing bracket. -/
def untimely (s : Scanner) (b : UInt8) : Trace :=
  if s.delimitsNumber b then
    [(.scalar (numberToken s.text.toList) s.text.toList, s.consumed)]
  else []

/-- The events of the byte that stopped a call, given the scanner before that byte. -/
def Call.untimely (c : Call) (s : Scanner) : Trace :=
  match c.stop with
  | some (.fault error) => s.untimely error.byte
  | _ => []

/-- Whether a comma is pending in an array. -/
def isAfterComma (s : Scanner) : Bool := s.phase == .arrayItem && s.pendingComma.isSome

/-- Whether a scanner is another one that has forgotten the comma pending in an array. -/
def Forgets (s t : Scanner) : Prop := s = t.settle ∧ t.isAfterComma = true

/-- **How a scanner that is used on after errors stands to a fresh one** that is only fed what was
accepted: they cannot be told apart, or a comma has been forgotten. -/
def Follows (s t : Scanner) : Prop := s.Alike t ∨ s.Forgets t

/-- Whether a comma is pending in an array for one scanner and has been forgotten by another. -/
def forgot (s t : Scanner) : Bool := t.isAfterComma && !s.isAfterComma

/-- Whether a part of the input begins with the bracket that closes an array, white space apart. -/
def closesFirst (part : Bytes) : Bool :=
  (part.dropWhile Ascii.isSpace).head? == some Ascii.closeSquare

/-- **Whether an item follows each comma that is forgotten** in calls to a scanner `s`, while it is
pending for a scanner `t` that is only fed what is accepted: no bracket closes the array before an
item begins, and one has begun in the end. -/
def keepsCommas (s t : Scanner) : List Bytes → Bool
  | [] => !s.forgot t
  | part :: parts =>
    !(s.forgot t && closesFirst part) &&
      keepsCommas (s.afterCall part) (feed logging t [] (s.call part).taken).scanner parts

/-- The events of calls, those of the bytes that each accepted and those of the byte that stopped
it, as a scanner tells them that is only fed what was accepted. -/
def told (s : Scanner) : List Call → List (Trace × Trace)
  | [] => []
  | c :: past =>
    let p := feed logging s [] c.taken
    (p.listener, c.untimely p.scanner) :: told p.scanner past

/-- **What a rejection leaves**: the scanner as it was, or with the comma forgotten, and the log with
the number that was completed. -/
theorem Coherent.rejection {s left : Scanner} (h : s.Coherent) {b : UInt8} {heard log : Trace}
    {stop : Stop Empty}
    (hrun : (s.step b).run logging s.consumed heard = ⟨left, log, some stop⟩) :
    ∃ error, stop = .fault error ∧ log = heard ++ s.untimely error.byte ∧
      left.Follows s ∧ left.consumed = s.consumed := by
  have hreacts := h.reacts b
  generalize s.step b = r at hreacts hrun
  -- A byte is rejected for the comma before it, for what it is, or for what it is after a number.
  cases hreacts with
  | space | enter | leave | beginString | beginKey | text | string | key | colon | beginWord
  | letter | word | beginNumber | digit => cases hrun
  | trailingComma hcomma hb =>
      cases hrun
      have hnumber : ∀ p, s.phase ≠ .number p := by
        intro p hp
        have hnone := h.pendingComma_eq_none (by simp [hp]) (by simp [hp])
        rw [hnone] at hcomma
        cases hcomma
      refine ⟨_, rfl, ?_, .inl (.refl s), rfl⟩
      simp [untimely, delimitsNumber_eq_false hnumber]
  | reject fault hfault comma hb hcomma =>
      cases hrun
      refine ⟨_, rfl, by simp [untimely, hb], ?_, rfl⟩
      rcases hcomma with rfl | ⟨rfl, hitem, hpending⟩
      · exact .inl (.refl s)
      · refine .inr ⟨rfl, ?_⟩
        simpa [isAfterComma, hitem, Option.isSome_iff_ne_none] using hpending
  | past hs hpast =>
      have hnumber : ∀ p, s.phase ≠ .number p := by
        intro p
        rw [hs]
        rcases s.stack with _ | ⟨_ | _, outer⟩ <;> nofun
      cases hpast with
      | space | comma | close => cases hrun
      | reject fault hfault comma hb hcomma =>
          cases hrun
          refine ⟨_, rfl, by simp [untimely, delimitsNumber_eq_false hnumber], .inl ?_, rfl⟩
          refine ⟨rfl, hcomma.imp_right ?_⟩
          intro hstack
          exact ⟨hstack, .inl (by rw [hs, hstack]; rfl)⟩
  | @number p hs hp next hnext =>
      cases hnext with
      | space | comma | close => cases hrun
      | reject fault hfault comma hb hcomma =>
          cases hrun
          have hdelimits : s.delimitsNumber b = true := by
            rcases hb with rfl | ⟨kind, rfl⟩
            · simp [delimitsNumber, hs, hp]
            · cases kind <;> simp [delimitsNumber, hs, hp, Bracket.closing]
          refine ⟨_, rfl, by simp [untimely, hdelimits], .inl ?_, rfl⟩
          exact ⟨rfl, hcomma.imp_right fun hstack => ⟨hstack, .inr ⟨p, hs⟩⟩⟩

/-- All bytes of a scan that goes on are accepted. -/
theorem Coherent.consumed_of_feed (listen : Listener σ ε) {s after : Scanner} (h : s.Coherent)
    {x : Bytes} {state state' : σ} (hfeed : feed listen s state x = ⟨after, state', none⟩) :
    after.consumed = s.consumed + x.length := by
  refine h.kept_by_feed listen (x := []) (P := fun x t => t.consumed = s.consumed + x.length) rfl
    ?_ hfeed
  intro x t b next ht hconsumed hresult
  obtain ⟨hsame, -⟩ := (ht.reacts b).pendingComma ht hresult
  rw [consumed_advance, hsame, hconsumed, List.length_append]
  rfl

/-- **One call**: the scanner comes as far as the bytes it accepts lead it, and raises their events
and those of the byte that stops it; and it stays there, or forgets a comma. -/
theorem Coherent.call_eq {s : Scanner} (h : s.Coherent) (part : Bytes) :
    ∃ reached timely, feed logging s [] (s.call part).taken = ⟨reached, timely, none⟩ ∧
      (s.call part).raised = timely ++ (s.call part).untimely reached ∧
      (s.afterCall part).Follows reached := by
  rcases hfeed : feed logging s [] part with ⟨left, log, _ | stop⟩
  · have hconsumed := h.consumed_of_feed logging hfeed
    have hcall : s.call part = ⟨part, log, none, left.depth⟩ := by
      simp [call, hfeed, hconsumed]
    refine ⟨left, log, by rw [hcall, hfeed], by simp [hcall, Call.untimely], .inl ?_⟩
    rw [afterCall, hfeed]
    exact .refl left
  · obtain ⟨before, b, after, reached, timely, rfl, hbefore, hrun⟩ := exists_byte_of_stop _ hfeed
    have hreached := h.of_feed logging hbefore
    obtain ⟨error, rfl, rfl, hleft, hsame⟩ := hreached.rejection hrun
    have hconsumed : left.consumed = s.consumed + before.length :=
      hsame.trans (h.consumed_of_feed logging hbefore)
    have hcall : s.call (before ++ b :: after) =
        ⟨before, timely ++ reached.untimely error.byte, some (.fault error), left.depth⟩ := by
      simp [call, hfeed, hconsumed]
    refine ⟨reached, timely, by rw [hcall, hbefore], by rw [hcall]; rfl, ?_⟩
    rwa [afterCall, hfeed]

/-! ### A comma that is forgotten -/

theorem phase_of_isAfterComma {s : Scanner} (h : s.isAfterComma = true) : s.phase = .arrayItem := by
  simp only [isAfterComma, Bool.and_eq_true, beq_iff_eq] at h
  exact h.1

theorem Forgets.forgot {s t : Scanner} (h : s.Forgets t) : s.forgot t = true := by
  obtain ⟨rfl, hcomma⟩ := h
  have hsettled : t.settle.isAfterComma = false := Bool.and_false _
  rw [Scanner.forgot, hcomma, hsettled]
  rfl

/-- A scanner that has forgotten a comma can be told apart from all but itself. -/
theorem Alike.forgets {s t u : Scanner} (h : s.Alike t) (htu : t.Forgets u) : s.Forgets u := by
  have hitem := phase_of_isAfterComma htu.2
  have hphase : t.phase = .arrayItem := by
    rw [htu.1]
    exact hitem
  rcases h.eq_or with rfl | ⟨-, hend | ⟨p, hend⟩⟩
  · exact htu
  · rw [h.phase_eq, hphase] at hend
    cases hend
  · rw [h.phase_eq, hphase] at hend
    cases hend

theorem Alike.follows {s t u : Scanner} (h : s.Alike t) (htu : t.Follows u) : s.Follows u :=
  htu.imp h.trans h.forgets

/-- Where an item is expected, a pending comma matters to closing brackets only. -/
theorem step_settle_of_isAfterComma {t : Scanner} (h : t.isAfterComma = true) {b : UInt8}
    (hspace : Ascii.isSpace b = false) (hsquare : b ≠ Ascii.closeSquare)
    (hbrace : b ≠ Ascii.closeBrace) : t.settle.step b = t.step b := by
  have hphase := phase_of_isAfterComma h
  simp only [isAfterComma, Bool.and_eq_true] at h
  obtain ⟨position, hposition⟩ := Option.isSome_iff_exists.1 h.2
  have hsettled : t.settle.step b = t.settle.beginValue b .expectedArrayItem := by
    rw [step, show t.settle.phase = .arrayItem from hphase]
    simp [beforeItem, hspace, hsquare, settle]
  rw [hsettled, step, hphase]
  simp [beforeItem, hspace, hposition, hsquare, hbrace, settle]

/-- Without a comma a brace is rejected for what it is. -/
theorem step_settle_closeBrace {t : Scanner} (hphase : t.phase = .arrayItem) :
    t.settle.step Ascii.closeBrace = t.settle.fail .expectedArrayItem Ascii.closeBrace := by
  rw [step, show t.settle.phase = .arrayItem from hphase]
  rfl

theorem untimely_of_isAfterComma {s : Scanner} (h : s.isAfterComma = true) (b : UInt8) :
    s.untimely b = [] := by
  have hnumber : s.delimitsNumber b = false :=
    delimitsNumber_eq_false (by simp [phase_of_isAfterComma h])
  rw [untimely, hnumber]
  rfl

theorem skips_of_isAfterComma {s : Scanner} (h : s.isAfterComma = true) : s.phase.skips = true := by
  rw [phase_of_isAfterComma h]
  rfl

/-- A call of which only white space is accepted leaves a comma forgotten. -/
theorem call_settle_of_blank {t : Scanner} (h : t.isAfterComma = true) {blank rest : Bytes}
    (hblank : ∀ b ∈ blank, Ascii.isSpace b = true) {stop : Option (Stop Empty)}
    (hrest : feed logging (t.skip blank.length).settle [] rest =
      ⟨(t.skip blank.length).settle, [], stop⟩) :
    ∃ reached, feed logging t [] (t.settle.call (blank ++ rest)).taken = ⟨reached, [], none⟩ ∧
      (t.settle.call (blank ++ rest)).raised = [] ∧
      (t.settle.call (blank ++ rest)).untimely reached = [] ∧
      (t.settle.afterCall (blank ++ rest)).Forgets reached := by
  have hpending : (t.skip blank.length).isAfterComma = true := h
  have hskips := skips_of_isAfterComma h
  have hfeed : feed logging t.settle [] (blank ++ rest) =
      ⟨(t.skip blank.length).settle, [], stop⟩ := by
    rw [feed_spaces logging (s := t.settle) hskips hblank]
    exact hrest
  have hcall : t.settle.call (blank ++ rest) =
      ⟨blank, [], stop, (t.skip blank.length).settle.depth⟩ := by
    have hcount : (t.skip blank.length).settle.consumed - t.settle.consumed = blank.length :=
      Nat.add_sub_cancel_left ..
    rw [call, hfeed, hcount, List.take_left]
  have hreached := feed_spaces logging hskips hblank [] []
  rw [List.append_nil] at hreached
  refine ⟨t.skip blank.length, by rw [hcall]; exact hreached, by rw [hcall], ?_, ?_⟩
  · rw [hcall]
    rcases stop with _ | ⟨error⟩ | ⟨⟨⟩⟩
    · rfl
    · exact untimely_of_isAfterComma hpending error.byte
  · rw [afterCall, hfeed]
    exact ⟨rfl, hpending⟩

/-- **What a forgotten comma can change** if no bracket closes the array: nothing, if an item comes
next; and if none does, there is but white space, and the comma is forgotten still. -/
theorem Forgets.call_cases {s t : Scanner} (h : s.Forgets t) {part : Bytes}
    (hcloses : closesFirst part = false) :
    (s.call part = t.call part ∧ s.afterCall part = t.afterCall part) ∨
      ∃ reached, feed logging t [] (s.call part).taken = ⟨reached, [], none⟩ ∧
        (s.call part).raised = [] ∧ (s.call part).untimely reached = [] ∧
        (s.afterCall part).Forgets reached := by
  obtain ⟨rfl, hcomma⟩ := h
  have hpart := List.takeWhile_append_dropWhile (p := Ascii.isSpace) (l := part)
  have hblank : ∀ b ∈ part.takeWhile Ascii.isSpace, Ascii.isSpace b = true :=
    List.all_eq_true.1 List.all_takeWhile
  have hhead := List.head?_dropWhile_not Ascii.isSpace part
  rw [closesFirst] at hcloses
  generalize part.takeWhile Ascii.isSpace = blank at hpart hblank
  generalize part.dropWhile Ascii.isSpace = rest at hpart hhead hcloses
  subst hpart
  have hpending : (t.skip blank.length).isAfterComma = true := hcomma
  -- White space leads both scanners equally far, and what comes then decides.
  cases rest with
  | nil => exact .inr (call_settle_of_blank hcomma hblank rfl)
  | cons b more =>
      have hsquare : b ≠ Ascii.closeSquare := by
        rintro rfl
        cases hcloses
      by_cases hbrace : b = Ascii.closeBrace
      · subst hbrace
        have hrejected : feed logging (t.skip blank.length).settle [] (Ascii.closeBrace :: more) =
            ⟨(t.skip blank.length).settle, [], some (.fault ⟨.expectedArrayItem, Ascii.closeBrace,
              (t.skip blank.length).consumed⟩)⟩ := by
          rw [feed, step_settle_closeBrace (phase_of_isAfterComma hpending)]
          rfl
        exact .inr (call_settle_of_blank hcomma hblank hrejected)
      · have hskips := skips_of_isAfterComma hcomma
        have hfeed : feed logging t.settle [] (blank ++ b :: more) =
            feed logging t [] (blank ++ b :: more) := by
          rw [feed_spaces logging (s := t.settle) hskips hblank, feed_spaces logging hskips hblank,
            feed, feed, ← step_settle_of_isAfterComma hpending hhead hsquare hbrace]
          rfl
        refine .inl ⟨?_, ?_⟩
        · rw [call, call, hfeed]
          rfl
        · rw [afterCall, afterCall, hfeed]

/-- **One call keeps a scanner in step with a fresh one** that is fed what is accepted, unless a bracket
closes an array of which a comma was forgotten. -/
theorem Follows.call {s t : Scanner} (h : s.Follows t) (ht : t.Coherent) {part : Bytes}
    (hcloses : (s.forgot t && closesFirst part) = false) :
    ∃ reached timely, feed logging t [] (s.call part).taken = ⟨reached, timely, none⟩ ∧
      (s.call part).raised = timely ++ (s.call part).untimely reached ∧
      (s.afterCall part).Follows reached := by
  obtain ⟨reached, timely, htaken, hraised, hafter⟩ := ht.call_eq part
  rcases h with halike | hforgets
  · obtain ⟨hcall, hleft⟩ := halike.call part
    rw [hcall]
    exact ⟨reached, timely, htaken, hraised, hleft.follows hafter⟩
  · rw [hforgets.forgot, Bool.true_and] at hcloses
    rcases hforgets.call_cases hcloses with ⟨hcall, hleft⟩ | ⟨after, hspaces, hnone, hlate, hstill⟩
    · rw [hcall, hleft]
      exact ⟨reached, timely, htaken, hraised, hafter⟩
    · exact ⟨after, [], hspaces, by rw [hnone, hlate]; rfl, .inr hstill⟩

/-- **Calls one after another**, to a scanner that follows a coherent one: what they leave and what
they raise is told by the coherent one, which is only fed what they accept. -/
theorem Coherent.calls_eq {s t : Scanner} (h : t.Coherent) (hst : s.Follows t) {parts : List Bytes}
    (hkeeps : s.keepsCommas t parts = true) :
    (feed logging t [] (accepted (s.calls parts))).stop = none ∧
      (s.afterCalls parts).Alike (feed logging t [] (accepted (s.calls parts))).scanner ∧
      raised (s.calls parts) = (t.told (s.calls parts)).flatMap (fun e => e.1 ++ e.2) ∧
      (feed logging t [] (accepted (s.calls parts))).listener =
        (t.told (s.calls parts)).flatMap Prod.fst := by
  induction parts generalizing s t with
  | nil =>
      rw [keepsCommas, Bool.not_eq_true'] at hkeeps
      have halike : s.Alike t := hst.resolve_right fun hforgets => by
        rw [hforgets.forgot] at hkeeps
        cases hkeeps
      exact ⟨rfl, halike, rfl, rfl⟩
  | cons part parts ih =>
      rw [keepsCommas, Bool.and_eq_true, Bool.not_eq_true'] at hkeeps
      obtain ⟨hpart, hparts⟩ := hkeeps
      obtain ⟨reached, timely, htaken, hraised, hafter⟩ := hst.call h hpart
      rw [htaken] at hparts
      obtain ⟨hstop, hlast, hall, hlog⟩ := ih (h.of_feed logging htaken) hafter hparts
      have hfeed := feed_logging_append (accepted ((s.afterCall part).calls parts))
        (x := (s.call part).taken) (by rw [htaken])
      rw [htaken] at hfeed
      have haccepted : accepted (s.calls (part :: parts)) =
          (s.call part).taken ++ accepted ((s.afterCall part).calls parts) := rfl
      have htold : t.told (s.calls (part :: parts)) =
          (timely, (s.call part).untimely reached) ::
            reached.told ((s.afterCall part).calls parts) := by
        rw [calls, told, htaken]
      rw [haccepted, hfeed, htold, List.flatMap_cons, List.flatMap_cons, ← hall, ← hlog, ← hraised]
      exact ⟨hstop, hlast, rfl, rfl⟩

/-! ### From the start -/

/-- What a caller sees of the progress of a scan. -/
def Progress.seen (p : Progress σ ε) : σ × Option (Stop ε) × Nat × Nat :=
  (p.listener, p.stop, p.scanner.consumed, p.scanner.depth)

theorem Progress.Alike.seen_eq {p q : Progress σ ε} (h : p.Alike q) : p.seen = q.seen := by
  rw [Progress.seen, Progress.seen, h.listener, h.stop, h.scanner.consumed_eq, h.scanner.depth_eq]

/-- A text that may end where it was fed to is the text of a tree. -/
theorem exists_text_of_close {bound : Nat} {x : Bytes}
    (hfeed : (feed logging { room := bound } [] x).stop = none)
    (hclose : (close logging (feed logging { room := bound } [] x).scanner []).stop = none) :
    ∃ t : Grammar.Text, t.bytes = x ∧ t.depth ≤ bound := by
  have hscan : (scan logging bound [] x).stop = none := by
    unfold scan
    rcases hprogress : feed logging { room := bound } [] x with ⟨after, log, _ | stop⟩
    · rw [hprogress] at hclose
      simp only [close, run_logging after.finish _ log]
      exact hclose
    · rw [hprogress] at hfeed
      cases hfeed
  have hverdict := verdict_scan logging bound [] x
  rw [outcome_eq_ok hscan] at hverdict
  obtain ⟨t, rfl⟩ := exists_text_of_ok _ hverdict
  rw [verdict_text] at hverdict
  obtain ⟨after, hperform, -⟩ := exists_of_bind_ok hverdict
  exact ⟨t, rfl, t.root.depth_le_of_isEvent (isEvent_of_perform_ok _ hperform)⟩

/-- **A scanner that is used on after errors is like a fresh one that was fed what was accepted.**
The fresh one accepts it and has the same depth; both give the same answers to all later calls and to
the end of the input, which may only come if what was accepted is the text of a tree.  The events
that were raised are those of the fresh one and, after those of each call, the number that is
completed by the byte that stopped it.  A comma of an array that was forgotten, because another byte
than a closing bracket was rejected right after it, must be followed by an item. -/
theorem rejected_bytes_leave_no_trace (bound : Nat) (parts : List Bytes)
    (h : keepsCommas { room := bound } { room := bound } parts = true) :
    let used := afterCalls { room := bound } parts
    let past := calls { room := bound } parts
    let fresh := feed logging { room := bound } [] (accepted past)
    fresh.stop = none ∧ used.consumed = (accepted past).length ∧
    used.depth = fresh.scanner.depth ∧
    raised past = (told { room := bound } past).flatMap (fun e => e.1 ++ e.2) ∧
    fresh.listener = (told { room := bound } past).flatMap Prod.fst ∧
    (∀ more, used.calls more = fresh.scanner.calls more ∧
      (close logging (used.afterCalls more) []).seen =
        (close logging (fresh.scanner.afterCalls more) []).seen) ∧
    ((close logging used []).stop = none →
      ∃ t : Grammar.Text, t.bytes = accepted past ∧ t.depth ≤ bound) := by
  intro used past fresh
  obtain ⟨hstop, halike, hraised, hlog⟩ := (coherent_start bound).calls_eq (.inl (.refl _)) h
  have hfresh : fresh = ⟨fresh.scanner, fresh.listener, none⟩ := by rw [← hstop]
  have hconsumed := (coherent_start bound).consumed_of_feed logging hfresh
  refine ⟨hstop, ?_, halike.depth_eq, hraised, hlog, ?_, ?_⟩
  · rw [halike.consumed_eq, hconsumed]
    exact Nat.zero_add _
  · intro more
    obtain ⟨hcalls, hlast⟩ := halike.calls more
    exact ⟨hcalls, (hlast.close logging []).seen_eq⟩
  · intro hclose
    rw [(halike.close logging []).stop] at hclose
    exact exists_text_of_close hstop hclose

/-- A brace after a number in an array, another digit and a bracket after a comma, and a letter there
before another item. -/
def corrections : List Bytes :=
  [[Ascii.openSquare, Ascii.byte '1', Ascii.closeBrace],
   [Ascii.byte '2', Ascii.comma, Ascii.closeSquare], [Ascii.space, Ascii.byte 'x'],
   [Ascii.space, Ascii.byte '3', Ascii.closeSquare]]

theorem rejected_bytes_leave_no_trace_corrections :
    keepsCommas { room := 8 } { room := 8 } corrections = true ∧
      (close logging (afterCalls { room := 8 } corrections) []).stop = none ∧
      ∃ t : Grammar.Text, t.bytes = [Ascii.openSquare, Ascii.byte '1', Ascii.byte '2', Ascii.comma,
        Ascii.space, Ascii.space, Ascii.byte '3', Ascii.closeSquare] := by
  have hkeeps : keepsCommas { room := 8 } { room := 8 } corrections = true := by decide
  have hclose : (close logging (afterCalls { room := 8 } corrections) []).stop = none := by decide
  obtain ⟨-, -, -, -, -, -, htext⟩ := rejected_bytes_leave_no_trace 8 corrections hkeeps
  obtain ⟨t, ht, -⟩ := htext hclose
  exact ⟨hkeeps, hclose, t, ht⟩

/-- A brace after a number in an array has the number reported, and so has the bracket after it; and
after a letter behind a comma, which is rejected, a bracket closes the array. -/
theorem rejected_bytes_leave_traces :
    (∃ past, past = calls { room := 8 } [[Ascii.openSquare, Ascii.byte '1', Ascii.closeBrace],
        [Ascii.closeSquare]] ∧
      raised past ≠ (feed logging { room := 8 } [] (accepted past)).listener) ∧
    ∃ parts, parts = [[Ascii.openSquare, Ascii.byte '1', Ascii.comma, Ascii.byte 'x'],
        [Ascii.closeSquare]] ∧
      (close logging (afterCalls { room := 8 } parts) []).stop = none ∧
      (feed logging { room := 8 } [] (accepted (calls { room := 8 } parts))).stop ≠ none := by
  refine ⟨⟨_, rfl, ?_⟩, ⟨_, rfl, ?_, ?_⟩⟩
  · decide
  · rfl
  · decide

end DocCodec.Scanner
