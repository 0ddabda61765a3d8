/-
**Literals under a scan.**

While a literal is being read, the scanner holds what it has read of it, and nothing else that comes
before or after the literal.  So a byte does one of four things to it: it begins a literal, it goes
on with one, it ends one, which is then reported, or there is none.

A text that is cut in two is cut within a literal if and only if the scanner holds a part of a
literal there.  The literal is found in the trace of the whole text: it is the one that has its
opening quotation mark before the cut and its closing one behind it.

Main definitions:

* `DocCodec.Scanner.literal?` — **the literal that is being read**;
* `DocCodec.Scanner.Spells` — what a byte does to literals;
* `DocCodec.Scanner.Quoting` — a scanner that has collected what it has read;
* `DocCodec.Grammar.CutsLiteral` — **whether a text is cut within a literal**.

Main results:

* `DocCodec.Scanner.Reacts.spells` — every byte does one of the four things;
* `DocCodec.Scanner.quoting_of_feed` — a literal so far is the end of the text so far;
* `DocCodec.Scanner.cutsLiteral_trace_iff` — **a text is cut within a literal exactly where the
  scanner is within one**.
-/

import DocCodec.Proofs.Scanner.Completion

set_option relaxedAutoImplicit false
set_option autoImplicit false

namespace DocCodec

/-- The raw text of the literal that is complete with an event. -/
def Event.literal? : Event → Option Bytes
  | .key raw | .scalar .string raw => some raw
  | _ => none

namespace Scanner

/-! ### One byte -/

/-- **The literal that is being read**, with its quotation mark, as far as it was read. -/
def literal? (s : Scanner) : Option Bytes :=
  match s.phase with
  | .text _ _ => some s.text.toList
  | _ => none

section

variable {s : Scanner} {role : Role} {place : TextPlace}

theorem literal?_of_text (h : s.phase = .text role place) : s.literal? = some s.text.toList := by
  rw [literal?, h]

theorem literal?_of_ne (h : ∀ role place, s.phase ≠ .text role place) : s.literal? = none := by
  unfold literal?
  split
  · next role place hs => exact absurd hs (h role place)
  · rfl

theorem ExpectsValue.literal?_eq_none (h : s.ExpectsValue) : s.literal? = none := by
  rcases h with h | ⟨h | h, -⟩ <;> rw [literal?, h]

theorem literal?_of_afterValue (h : s.phase = .afterValue s.stack) : s.literal? = none := by
  rw [literal?, h]
  rcases s.stack with _ | ⟨_ | _, outer⟩ <;> rfl

theorem literal?_of_inside {kind : Bracket} (h : s.phase = .inside kind) : s.literal? = none := by
  rw [literal?, h]
  cases kind <;> rfl

theorem literal?_of_skips (h : s.phase.skips = true) : s.literal? = none := by
  refine literal?_of_ne ?_
  intro role place hs
  rw [hs] at h
  cases h

end

theorem literal?_word (word : Word) (raw : Bytes) :
    (Event.scalar word.token raw).literal? = none := by cases word <;> rfl

theorem literal?_number (text raw : Bytes) :
    (Event.scalar (numberToken text) raw).literal? = none := by
  unfold numberToken
  split <;> rfl

/-- **What a byte does to literals**, given the events that it completes and the scanner behind it. -/
inductive Spells (s : Scanner) (b : UInt8) (events : List Event) (after : Scanner) : Prop
  /-- There is no literal. -/
  | apart (hs : s.literal? = none) (hevents : ∀ event ∈ events, event.literal? = none)
      (hafter : after.literal? = none)
  /-- A literal begins. -/
  | begins (hs : s.literal? = none) (hb : b = Ascii.quote) (hevents : events = [])
      (hafter : after.literal? = some [b])
  /-- A literal goes on. -/
  | goesOn {raw : Bytes} (hs : s.literal? = some raw) (hevents : events = [])
      (hafter : after.literal? = some (raw ++ [b]))
  /-- A literal ends. -/
  | ends {raw : Bytes} (hs : s.literal? = some raw) (hb : b = Ascii.quote) {event : Event}
      (hevent : event.literal? = some raw) (hevents : events = [event])
      (hafter : after.literal? = none)

section

variable {s : Scanner} {b : UInt8} {r : Reaction} {after : Scanner}

/-- After a complete value there is no literal. -/
theorem ReactsPast.apart (h : ReactsPast s b r) (hr : r.result = .ok after) :
    (∀ event ∈ r.events, event.literal? = none) ∧ after.literal? = none := by
  cases h with
  | space hb =>
      cases hr
      exact ⟨nofun, literal?_of_afterValue (s := s.resume) rfl⟩
  | @comma _ kind hkind =>
      cases hr
      exact ⟨nofun, literal?_of_inside (s := s.marked.move (.inside kind)) rfl⟩
  | close hb hkind =>
      cases hr
      refine ⟨?_, literal?_of_afterValue (s := s.closed.resume) rfl⟩
      intro event hevent
      rw [List.mem_singleton.1 hevent]
      rfl
  | reject fault hfault comma => cases hr

/-- A byte that completes an event which is no literal. -/
theorem Spells.of_event {event : Event} (hs : s.literal? = none) (hevent : event.literal? = none)
    (hafter : after.literal? = none) : Spells s b [event] after := by
  refine .apart hs ?_ hafter
  intro found hfound
  rw [List.mem_singleton.1 hfound]
  exact hevent

/-- **Every byte that is accepted does one of the four things.** -/
theorem Reacts.spells (h : Reacts s b r) (hr : r.result = .ok after) :
    Spells s b r.events after := by
  cases h with
  | space hskips hb =>
      cases hr
      exact .apart (literal?_of_skips hskips) nofun (literal?_of_skips hskips)
  | @enter hvalue kind hb room hroom =>
      cases hr
      exact .of_event hvalue.literal?_eq_none rfl
        (literal?_of_inside (s := (s.settle.opened kind room).move (.inside kind)) rfl)
  | leave hphase hpending hb hkind =>
      cases hr
      exact .of_event (literal?_of_inside hphase) rfl
        (literal?_of_afterValue (s := s.closed.resume) rfl)
  | beginString hvalue hb =>
      cases hr
      exact .begins hvalue.literal?_eq_none hb rfl rfl
  | beginKey hphase hb =>
      cases hr
      exact .begins (by rw [literal?, hphase]) hb rfl rfl
  | text hphase hb =>
      cases hr
      exact .goesOn (literal?_of_text hphase) rfl (congrArg some Array.toList_push)
  | string hphase hb =>
      cases hr
      exact .ends (literal?_of_text hphase) hb rfl rfl
        (literal?_of_afterValue (s := s.resume) rfl)
  | key hphase hb =>
      cases hr
      exact .ends (literal?_of_text hphase) hb rfl rfl rfl
  | colon hphase hb =>
      cases hr
      exact .apart (by rw [literal?, hphase]) nofun rfl
  | beginWord hvalue hb =>
      cases hr
      exact .apart hvalue.literal?_eq_none nofun rfl
  | letter hphase =>
      cases hr
      exact .apart (by rw [literal?, hphase]) nofun rfl
  | @word word hphase =>
      cases hr
      exact .of_event (by rw [literal?, hphase]) (literal?_word word word.letters)
        (literal?_of_afterValue (s := s.resume) rfl)
  | beginNumber hvalue hb =>
      cases hr
      exact .apart hvalue.literal?_eq_none nofun rfl
  | digit hphase hb =>
      cases hr
      exact .apart (by rw [literal?, hphase]) nofun rfl
  | number hphase hp hnext =>
      obtain ⟨hevents, hafter⟩ := hnext.apart hr
      refine .apart (by rw [literal?, hphase]) ?_ hafter
      intro event hevent
      rcases List.mem_cons.1 hevent with rfl | hevent
      · exact literal?_number ..
      · exact hevents event hevent
  | past hphase hpast =>
      obtain ⟨hevents, hafter⟩ := hpast.apart hr
      exact .apart (literal?_of_afterValue hphase) hevents hafter
  | trailingComma hpending hb => cases hr
  | reject fault hfault comma => cases hr

end

/-- At the end of the text no literal is reported, and none may be left. -/
theorem apart_finish (s : Scanner) :
    (∀ event ∈ s.finish.events, event.literal? = none) ∧
      ∀ after, s.finish.result = .ok after → s.literal? = none := by
  unfold finish
  split
  · exact ⟨nofun, nofun⟩
  · next hs =>
      refine ⟨?_, fun _ _ => literal?_of_ne fun role place => hs role place⟩
      intro event hevent
      split at hevent
      · cases hevent
      split at hevent
      · cases hevent
      split at hevent
      · cases hevent
      · split at hevent
        · rw [List.mem_singleton.1 hevent]
          exact literal?_number ..
        · cases hevent
      · cases hevent

/-! ### The literal so far -/

/-- Whether what a scanner has collected of a literal, behind its quotation mark, is what was read
last. -/
def Quoting (x : Bytes) (s : Scanner) : Prop :=
  ∀ role place, s.phase = .text role place →
    ∃ before literal, s.text.toList = Ascii.quote :: literal ∧ x = before ++ s.text.toList

theorem quoting_of_literal? {x : Bytes} {s : Scanner}
    (h : ∀ raw ∈ s.literal?, ∃ before literal, raw = Ascii.quote :: literal ∧ x = before ++ raw) :
    Quoting x s := fun _ _ hs => h _ (literal?_of_text hs)

theorem Quoting.exists_literal {x : Bytes} {s : Scanner} (h : Quoting x s) {raw : Bytes}
    (hraw : s.literal? = some raw) :
    ∃ before literal, raw = Ascii.quote :: literal ∧ x = before ++ raw := by
  unfold literal? at hraw
  split at hraw
  · next role place hs =>
      cases hraw
      exact h role place hs
  · cases hraw

/-- **One byte keeps the literal so far** at the end of the text so far. -/
theorem Spells.quoting {s after : Scanner} {b : UInt8} {events : List Event} {x : Bytes}
    (h : Spells s b events after) (hs : Quoting x s) : Quoting (x ++ [b]) after.advance := by
  refine quoting_of_literal? ?_
  intro found hfound
  change found ∈ after.literal? at hfound
  cases h with
  | apart hnone hevents hafter =>
      rw [hafter] at hfound
      cases hfound
  | begins hnone hb hevents hafter =>
      rw [hafter] at hfound
      cases hfound
      exact ⟨x, [], by rw [hb], rfl⟩
  | goesOn hraw hevents hafter =>
      rw [hafter] at hfound
      cases hfound
      obtain ⟨before, literal, rfl, rfl⟩ := hs.exists_literal hraw
      exact ⟨before, literal ++ [b], rfl, List.append_assoc ..⟩
  | ends hraw hb hevent hevents hafter =>
      rw [hafter] at hfound
      cases hfound

/-- **A literal so far is the end of the text so far.** -/
theorem quoting_of_feed {σ ε : Type} (listen : Listener σ ε) {bound : Nat} {x : Bytes}
    {state state' : σ} {after : Scanner}
    (h : feed listen { room := bound } state x = ⟨after, state', none⟩) : Quoting x after := by
  refine (coherent_start bound).kept_by_feed listen (P := Quoting) (x := []) ?_ ?_ h
  · exact quoting_of_literal? nofun
  · intro x t b next ht hquoting hresult
    exact ((ht.reacts b).spells hresult).quoting hquoting

end Scanner

/-! ### Cuts -/

namespace Grammar

/-- **Whether a text is cut within a literal** of its trace when it is cut behind so many bytes: the
opening quotation mark is before the cut, and the closing one, at the offset of the event, is not. -/
def CutsLiteral (trace : Trace) (length : Nat) : Prop :=
  ∃ p ∈ trace, ∃ raw ∈ p.1.literal?, length ≤ p.2 ∧ p.2 < length + raw.length

instance (trace : Trace) (length : Nat) : Decidable (CutsLiteral trace length) :=
  inferInstanceAs (Decidable (∃ p ∈ trace, ∃ raw ∈ p.1.literal?, _ ∧ _))

theorem cutsLiteral_append (first second : Trace) (length : Nat) :
    CutsLiteral (first ++ second) length ↔
      CutsLiteral first length ∨ CutsLiteral second length := by
  unfold CutsLiteral
  simp only [List.mem_append, or_and_right, exists_or]

end Grammar

namespace Scanner

open Grammar (Trace CutsLiteral)

/-- Whether a text is cut within a literal of the log, or within the one that is being read. -/
def Straddles (s : Scanner) (log : Trace) (length : Nat) : Prop :=
  CutsLiteral log length ∨ ∃ raw ∈ s.literal?, s.consumed < length + raw.length

theorem listener_run_logging (r : Reaction) (offset : Nat) (heard : Trace) :
    (r.run logging offset heard).listener = heard ++ r.events.map fun event => (event, offset) := by
  induction r generalizing heard with
  | accept after => exact (List.append_nil heard).symm
  | reject error left => exact (List.append_nil heard).symm
  | raise event refused next ih =>
      change (next.run logging offset (heard ++ [(event, offset)])).listener = _
      rw [ih, List.append_assoc]
      rfl

theorem not_cutsLiteral_of_apart {events : List Event}
    (h : ∀ event ∈ events, event.literal? = none) (offset length : Nat) :
    ¬ CutsLiteral (events.map fun event => (event, offset)) length := by
  rintro ⟨p, hp, raw, hraw, -⟩
  obtain ⟨event, hevent, rfl⟩ := List.mem_map.1 hp
  rw [h event hevent] at hraw
  cases hraw

/-- **A byte behind the cut does not change where the text is cut.** -/
theorem Spells.straddles_iff {s after : Scanner} {b : UInt8} {events : List Event}
    (h : Spells s b events after) (hafter : after.consumed = s.consumed) {length : Nat}
    (hlength : length ≤ s.consumed) (log : Trace) :
    after.advance.Straddles (log ++ events.map fun event => (event, s.consumed)) length ↔
      s.Straddles log length := by
  have hliteral : after.advance.literal? = after.literal? := rfl
  unfold Straddles
  rw [Grammar.cutsLiteral_append, hliteral, consumed_advance, hafter, or_assoc]
  refine or_congr_right ?_
  cases h with
  | apart hs hevents hnone =>
      have hcuts := not_cutsLiteral_of_apart hevents s.consumed length
      simp [hs, hnone, hcuts]
  | begins hs hb hevents hsome =>
      have hlt : ¬ s.consumed < length := Nat.not_lt_of_le hlength
      simp [hs, hsome, hevents, CutsLiteral, hlt]
  | goesOn hs hevents hsome =>
      simp [hs, hsome, hevents, CutsLiteral, ← Nat.add_assoc]
  | ends hs hb hevent hevents hnone =>
      simp [hs, hnone, hevents, CutsLiteral, hevent, hlength]

section

variable {s after : Scanner} {log : Trace}

/-- **What every byte keeps with the events that it completes**, a scan that is logged keeps. -/
theorem Coherent.of_feed_logging {P : Scanner → Trace → Prop} (hs : s.Coherent) (hstart : P s [])
    (hstep : ∀ t heard b next, t.Coherent → P t heard → (t.step b).result = .ok next →
      next.consumed = t.consumed →
        P next.advance (heard ++ (t.step b).events.map fun event => (event, t.consumed)))
    {x : Bytes} (h : feed logging s [] x = ⟨after, log, none⟩) : P after log := by
  suffices hkept : after.Coherent ∧ P after log from hkept.2
  refine Scanner.of_feed logging (x := []) (P := fun _ t heard => t.Coherent ∧ P t heard) ?_
    ⟨hs, hstart⟩ h
  rintro x t heard b next heard' ⟨ht, hP⟩ hrun
  have hresult := Reaction.result_of_run logging hrun
  obtain ⟨hconsumed, -⟩ := (ht.reacts b).pendingComma ht hresult
  have hheard := listener_run_logging (t.step b) t.consumed heard
  rw [hrun] at hheard
  refine ⟨ht.of_run logging hrun, ?_⟩
  change heard' = _ at hheard
  rw [hheard]
  exact hstep t heard b next ht hP hresult hconsumed

/-- **A scan behind the cut does not change where the text is cut.** -/
theorem Coherent.straddles_iff (hs : s.Coherent) {length : Nat} (hlength : length ≤ s.consumed)
    {x : Bytes} (h : feed logging s [] x = ⟨after, log, none⟩) :
    after.Straddles log length ↔ s.Straddles [] length := by
  suffices hkept : length ≤ after.consumed ∧ (after.Straddles log length ↔ s.Straddles [] length)
    from hkept.2
  refine hs.of_feed_logging (P := fun t heard => length ≤ t.consumed ∧
    (t.Straddles heard length ↔ s.Straddles [] length)) ⟨hlength, Iff.rfl⟩ ?_ h
  rintro t heard b next ht ⟨hle, hiff⟩ hresult hconsumed
  have hspells := (ht.reacts b).spells hresult
  refine ⟨?_, (hspells.straddles_iff hconsumed hle heard).trans hiff⟩
  rw [consumed_advance, hconsumed]
  exact Nat.le_succ_of_le hle

/-- What was heard was complete before the end of what was fed. -/
theorem offset_lt_of_feed {bound : Nat} {x : Bytes}
    (h : feed logging { room := bound } [] x = ⟨after, log, none⟩) :
    ∀ p ∈ log, p.2 < after.consumed := by
  refine (coherent_start bound).of_feed_logging
    (P := fun t heard => ∀ p ∈ heard, p.2 < t.consumed) nofun ?_ h
  intro t heard b next _ hlt _ hconsumed p hp
  rw [consumed_advance, hconsumed]
  rcases List.mem_append.1 hp with hp | hp
  · exact Nat.lt_succ_of_lt (hlt p hp)
  · obtain ⟨event, -, rfl⟩ := List.mem_map.1 hp
    exact Nat.lt_succ_self t.consumed

/-- **A text is cut within a literal exactly where the scanner is within one.** -/
theorem cutsLiteral_trace_iff {t : Grammar.Text} {bound : Nat} (hdepth : t.depth ≤ bound)
    {first second : Bytes} (hcut : t.bytes = first ++ second)
    (h : feed logging { room := bound } [] first = ⟨s, log, none⟩) :
    CutsLiteral t.trace first.length ↔ s.literal?.isSome = true := by
  obtain ⟨found, after, closed, log, more, last, hfirst, hsecond, hclose, htrace⟩ :=
    exists_logs_of_cut hdepth hcut
  cases h.symm.trans hfirst
  obtain ⟨hconsumed, -⟩ := pendingComma_of_feed _ hfirst
  -- The literal can neither be over before the cut nor come only at the end of the text.
  have hlog : ¬ CutsLiteral log first.length := by
    rintro ⟨p, hp, raw, -, hle, -⟩
    have hlt := offset_lt_of_feed hfirst p hp
    omega
  obtain ⟨hevents, hliteral⟩ := apart_finish after
  have hlast : ¬ CutsLiteral last first.length := by
    have hheard := listener_run_logging after.finish after.consumed []
    rw [close] at hclose
    rw [hclose] at hheard
    simp only [List.nil_append] at hheard
    rw [hheard]
    exact not_cutsLiteral_of_apart hevents after.consumed first.length
  have hnone := hliteral closed (Reaction.result_of_run logging hclose)
  have hmore := ((coherent_start bound).of_feed logging hfirst).straddles_iff
    (Nat.le_of_eq hconsumed.symm) hsecond
  have hquoting := quoting_of_feed logging hfirst
  calc CutsLiteral t.trace first.length
    _ ↔ CutsLiteral more first.length := by
        rw [htrace, Grammar.cutsLiteral_append, Grammar.cutsLiteral_append]
        simp only [hlog, hlast, false_or, or_false]
    _ ↔ after.Straddles more first.length := by simp [Straddles, hnone]
    _ ↔ s.Straddles [] first.length := hmore
    _ ↔ s.literal?.isSome = true := by
        cases hs : s.literal? with
        | none => simp [Straddles, CutsLiteral, hs]
        | some raw =>
            obtain ⟨before, literal, rfl, -⟩ := hquoting.exists_literal hs
            simp [Straddles, hs, hconsumed]

end

end Scanner

end DocCodec
