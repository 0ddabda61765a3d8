/-
**What a byte can do to any scanner.**

The listener of a scan may refuse an event.  A refusal interrupts a byte between two changes of the
scanner, so it may leave a scanner that no text leads to: a container is open, say, while the root is
still expected.  Such a scanner may be used on, and it is not coherent.  What a byte can do to the open
containers, to the count of bytes and to the literal that is being read needs no coherence; it is
listed here for all scanners, with less detail than for coherent ones.

Main definitions:

* `DocCodec.Scanner.Beside` — scanners with the same open containers and the same count;
* `DocCodec.Scanner.Handles` — **what a byte can make any scanner do**.

Main results:

* `DocCodec.Scanner.handles_step` — every reaction to a byte is of these kinds;
* `DocCodec.Scanner.handles_finish` — so is the reaction to the end of the input.
-/

import DocCodec.Proofs.Scanner.Literal

set_option relaxedAutoImplicit false
set_option autoImplicit false

namespace DocCodec.Scanner

/-! ### What a byte can do -/

/-- A scanner with another pending comma. -/
def withComma (s : Scanner) (comma : Option Nat) : Scanner := { s with pendingComma := comma }

/-- Scanners with the same open containers and the same count of bytes. -/
structure Beside (t s : Scanner) : Prop where
  stack_eq : t.stack = s.stack
  room_eq : t.room = s.room
  consumed_eq : t.consumed = s.consumed

/-- **What a byte can make any scanner do**, coherent or not. -/
inductive Handles (s : Scanner) (b : UInt8) : Reaction → Prop
  /-- A byte that is rejected. -/
  | reject (error : SyntaxError) (comma : Option Nat) :
      Handles s b (.reject error (s.withComma comma))
  /-- A byte outside of literals that raises no event. -/
  | pass (hs : s.literal? = none) {after : Scanner} (hbeside : after.Beside s)
      (hafter : after.literal? = none) : Handles s b (.accept after)
  /-- The quotation mark that begins a literal. -/
  | quote (hs : s.literal? = none) (hb : b = Ascii.quote) (role : Role) (comma : Option Nat) :
      Handles s b (.accept ((s.withComma comma).begin (.text role .plain) b))
  /-- A byte within a literal. -/
  | text {role : Role} {place next : TextPlace} (hs : s.phase = .text role place)
      (hb : place.next? b = some next) : Handles s b (s.extend b (.text role next))
  /-- The quotation mark that ends a literal. -/
  | literal {role : Role} (hs : s.phase = .text role .plain) {event : Event}
      (hevent : event = .key s.text.toList ∨ event = .scalar .string s.text.toList)
      {after : Scanner} (hbeside : after.Beside s) (hafter : after.literal? = none) :
      Handles s b (.raise event s (.accept after))
  /-- The byte that completes another scalar, and what it does besides. -/
  | scalar (hs : s.literal? = none) {token : Token} {raw : Bytes}
      (hevent : (Event.scalar token raw).literal? = none) {next : Reaction}
      (hnext : Handles s b next) : Handles s b (.raise (.scalar token raw) s next)
  /-- A bracket that opens a container. -/
  | enter (hs : s.literal? = none) (kind : Bracket) {room : Nat} (hroom : s.room = room + 1)
      (comma : Option Nat) :
      Handles s b (.raise (.enter kind) ((s.withComma comma).opened kind room)
        (.accept (((s.withComma comma).opened kind room).move (.inside kind))))
  /-- A bracket that closes the innermost container. -/
  | leave (hs : s.literal? = none) {kind : Bracket} (hkind : kind ∈ s.stack.head?) :
      Handles s b (.raise (.leave kind) s.closed (.accept s.closed.resume))

section

variable {s : Scanner} {b : UInt8}

theorem handles_fail (fault : Fault) (byte : UInt8) : Handles s b (s.fail fault byte) :=
  .reject ⟨fault, byte, s.consumed⟩ s.pendingComma

theorem handles_enter (hs : s.literal? = none) (kind : Bracket) (comma : Option Nat) :
    Handles s b ((s.withComma comma).enter kind) := by
  cases hroom : s.room with
  | zero =>
      have henter : (s.withComma comma).enter kind =
          (s.withComma comma).fail .maxDepthReached kind.opening := by simp [enter, withComma, hroom]
      rw [henter]
      exact .reject _ comma
  | succ room =>
      have henter : (s.withComma comma).enter kind =
          .raise (.enter kind) ((s.withComma comma).opened kind room)
            (.accept (((s.withComma comma).opened kind room).move (.inside kind))) := by
        simp [enter, withComma, hroom, opened, move]
      rw [henter]
      exact .enter hs kind hroom comma

theorem handles_leave (hs : s.literal? = none) (kind : Bracket) : Handles s b (s.leave kind) := by
  by_cases hkind : kind ∈ s.stack.head?
  · rw [leave_eq hkind]
    exact .leave hs hkind
  · obtain ⟨fault, hfail⟩ := leave_eq_fail hkind
    rw [hfail]
    exact handles_fail fault kind.closing

theorem handles_separate (hs : s.literal? = none) : Handles s b s.separate := by
  unfold separate
  split
  · exact .pass hs ⟨rfl, rfl, rfl⟩ rfl
  · exact .pass hs ⟨rfl, rfl, rfl⟩ rfl
  · exact .reject _ (some s.consumed)

theorem literal?_resume (s : Scanner) : s.resume.literal? = none := literal?_of_afterValue rfl

theorem handles_resume (hs : s.literal? = none) : Handles s b (.accept s.resume) :=
  .pass hs ⟨rfl, rfl, rfl⟩ s.literal?_resume

/-- The first byte of a value. -/
theorem handles_beginValue (hs : s.literal? = none) (comma : Option Nat) (fault : Fault) :
    Handles s b ((s.withComma comma).beginValue b fault) := by
  unfold beginValue
  split
  · exact handles_enter hs .square comma
  split
  · exact handles_enter hs .brace comma
  split
  · next hb => exact .quote hs hb .value comma
  split
  · exact .pass hs ⟨rfl, rfl, rfl⟩ rfl
  · exact .pass hs ⟨rfl, rfl, rfl⟩ rfl
  · exact .reject _ comma

theorem handles_inNumber (hs : s.literal? = none) (place : NumberPlace) :
    Handles s b (s.inNumber place b) := by
  have hnumber {next : Reaction} (hnext : Handles s b next) :
      Handles s b (.raise (.scalar (numberToken s.text.toList) s.text.toList) s next) :=
    .scalar hs (literal?_number ..) hnext
  unfold inNumber
  split
  · exact .pass hs ⟨rfl, rfl, rfl⟩ rfl
  split
  · split
    · exact hnumber (handles_separate hs)
    split
    · exact hnumber (handles_resume hs)
    split
    · exact hnumber (handles_leave hs .square)
    split
    · exact hnumber (handles_leave hs .brace)
    · exact handles_fail _ _
  · exact handles_fail _ _

/-- A byte within a literal, of which `TextPlace.next?` says where it leads. -/
theorem handles_inText {role : Role} {place : TextPlace} (hs : s.phase = .text role place) :
    Handles s b (s.inText role place b) := by
  cases place with
  | plain =>
      by_cases hquote : b = Ascii.quote
      · simp only [inText, if_pos hquote]
        cases role with
        | key => exact .literal hs (.inl rfl) ⟨rfl, rfl, rfl⟩ rfl
        | value => exact .literal hs (.inr rfl) ⟨rfl, rfl, rfl⟩ s.literal?_resume
      have hnext : TextPlace.next? .plain b =
          if b = Ascii.backslash then some .escape
          else if Ascii.isControl b then none else some .plain := if_neg hquote
      simp only [inText, if_neg hquote]
      split
      · next hb => exact .text hs (by rw [hnext, if_pos hb])
      · next hb =>
          split
          · exact handles_fail _ _
          · next hcontrol => exact .text hs (by rw [hnext, if_neg hb, if_neg hcontrol])
  | escape =>
      unfold inText
      simp only
      split
      · next hb => exact .text hs (by rw [TextPlace.next?, if_pos hb])
      · next hb =>
          split
          · next hu => exact .text hs (by rw [TextPlace.next?, if_neg hb, if_pos hu])
          · exact handles_fail _ _
  | digits more =>
      unfold inText
      simp only
      split
      · next hb =>
          cases more with
          | zero => exact .text hs (by rw [TextPlace.next?, if_pos hb])
          | succ more => exact .text hs (by rw [TextPlace.next?, if_pos hb])
      · exact handles_fail _ _

theorem handles_inWord (hs : s.literal? = none) (word : Word) (owed : Bytes) :
    Handles s b (s.inWord word owed b) := by
  unfold inWord
  split
  · exact handles_fail _ _
  · split
    · split
      · exact .scalar hs (literal?_word ..) (handles_resume hs)
      · exact .pass hs ⟨rfl, rfl, rfl⟩ rfl
    · exact handles_fail _ _

theorem handles_space (hs : s.literal? = none) : Handles s b (.accept s) :=
  .pass hs ⟨rfl, rfl, rfl⟩ hs

theorem handles_beforeKey (hs : s.literal? = none) : Handles s b (s.beforeKey b) := by
  unfold beforeKey
  split
  · exact handles_space hs
  split
  · next hb => exact .quote hs hb .key none
  split
  · split
    · exact .reject _ s.pendingComma
    · exact handles_leave hs .brace
  · exact handles_fail _ _

theorem handles_beforeItem (hs : s.literal? = none) : Handles s b (s.beforeItem b) := by
  unfold beforeItem
  split
  · exact handles_space hs
  split
  · split
    · exact .reject _ s.pendingComma
    · exact handles_beginValue hs none .expectedArrayItem
  · split
    · exact handles_leave hs .square
    · exact handles_beginValue hs s.pendingComma .expectedArrayItem

/-- A byte outside of literals. -/
theorem handles_apart (hs : s.literal? = none) : Handles s b (s.step b) := by
  unfold step
  split
  · next role place hphase =>
      rw [literal?_of_text hphase] at hs
      cases hs
  · next place hphase => exact handles_inNumber hs place
  · next word owed hphase => exact handles_inWord hs word owed
  · exact handles_beforeKey hs
  · exact handles_beforeItem hs
  · split
    · exact handles_space hs
    · exact handles_beginValue hs s.pendingComma .invalidRoot
  · split
    · exact handles_space hs
    split
    · exact .pass hs ⟨rfl, rfl, rfl⟩ rfl
    · exact handles_fail _ _
  · split
    · exact handles_space hs
    · exact handles_beginValue hs s.pendingComma .expectedObjectValue
  · split
    · exact handles_space hs
    split
    · exact handles_separate hs
    split
    · exact handles_leave hs .brace
    · exact handles_fail _ _
  · split
    · exact handles_space hs
    split
    · exact handles_separate hs
    split
    · exact handles_leave hs .square
    · exact handles_fail _ _
  · split
    · exact handles_space hs
    · exact handles_fail _ _

/-- **What a byte can make any scanner do.** -/
theorem handles_step (s : Scanner) (b : UInt8) : Handles s b (s.step b) := by
  by_cases h : ∃ role place, s.phase = .text role place
  · obtain ⟨role, place, hs⟩ := h
    rw [step_text hs]
    exact handles_inText hs
  · refine handles_apart (literal?_of_ne ?_)
    intro role place hs
    exact h ⟨role, place, hs⟩

/-- The end of the input does nothing else; a space stands in for the byte. -/
theorem handles_finish (s : Scanner) : Handles s Ascii.space s.finish := by
  unfold finish
  split
  · exact handles_fail _ _
  · next phase hne =>
      have hnone : s.literal? = none := literal?_of_ne fun role place => hne role place
      split
      · exact handles_fail _ _
      split
      · exact handles_fail _ _
      split
      · exact handles_space hnone
      · split
        · exact .scalar hnone (literal?_number ..) (.pass hnone ⟨rfl, rfl, rfl⟩ rfl)
        · exact handles_fail _ _
      · exact handles_fail _ _

end

end DocCodec.Scanner
