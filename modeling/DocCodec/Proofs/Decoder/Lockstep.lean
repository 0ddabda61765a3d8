/-
**Scanner and assembly in lockstep.**

The scanner keeps the kinds of the open containers, and the assembly keeps a frame for each of them.
Neither looks at the other, but after every byte they agree: the frames are of the kinds on the
scanner's stack, there is room for as many more containers in both, the result is there when the
scanner is past the root, and an object has an announced key exactly as long as the scanner is
between that key and its value.  A container that is open has taken the key of its parent along.

So most of what the assembly checks for can never be what is wrong.  What it refuses in a text is a
scalar that is the root, an integer that is too large, an escape that stands for no character, and a
key that is not UTF-8.

Main definitions:

* `DocCodec.Assembly.Refusal` — **what can be refused in a text**;
* `DocCodec.Assembly.Lockstep` — a scanner and an assembly that agree;
* `DocCodec.Scanner.Reaction.Ensures` — what every way through a reaction leads to;
* `DocCodec.Decoder.told` — the events that an assembly is told when a part is written, each with
  the assembly that it is told to;
* `DocCodec.Decoder.Cause` — where the error of a call comes from;
* `DocCodec.Decoder.Agrees`, `DocCodec.Decoder.Answers` — what is claimed of a decoder that has not
  failed.

Main results:

* `DocCodec.Scanner.Reacts.ensures` — one byte keeps scanner and assembly in lockstep;
* `DocCodec.Decoder.write_spec` — so does every part that is written;
* `DocCodec.Decoder.lockstep_of_calls` — **scanner and assembly stay in lockstep**, and no error is
  one that only a disorder between them could bring about.
-/

import DocCodec.Proofs.Decoder.Assembling
import DocCodec.Proofs.Decoder.Delivery
import DocCodec.Proofs.Scanner.Reaction

set_option relaxedAutoImplicit false
set_option autoImplicit false

namespace DocCodec

/-! ### Phases within an entry -/

namespace Scanner.Phase

/-- Whether a scan stands between a key and its value, or within a scalar. -/
def owesValue : Phase → Bool
  | .objectColon | .objectValue | .text .value _ | .number _ | .word _ _ => true
  | .start | .text .key _ | .objectKey | .objectRest | .arrayItem | .arrayRest | .finished => false

/-- At the start of a container no value is owed, and the root is not complete. -/
theorem inside_class (kind : Bracket) :
    inside kind ≠ .finished ∧ (inside kind).owesValue = false := by
  cases kind <;> exact ⟨nofun, rfl⟩

/-- Nor after a value within a container. -/
theorem afterValue_cons (kind : Bracket) (outer : List Bracket) :
    afterValue (kind :: outer) ≠ .finished ∧ (afterValue (kind :: outer)).owesValue = false := by
  cases kind <;> exact ⟨nofun, rfl⟩

theorem ne_finished_of_owesValue {phase : Phase} (h : phase.owesValue = true) :
    phase ≠ .finished := by
  rintro rfl
  cases h

end Scanner.Phase

namespace Assembly

open Scanner (Phase)

/-! ### Open containers -/

/-- Whether every open container but the innermost has given its key to the container in it. -/
def Linked : List Frame → Prop
  | frame :: parent :: outer =>
    parent.pendingKey = none ∧ parent.accepts frame.installKey = true ∧ Linked (parent :: outer)
  | _ => True

theorem Linked.tail {frame : Frame} {outer : List Frame} (h : Linked (frame :: outer)) :
    Linked outer := by
  cases outer with
  | nil => trivial
  | cons parent outer => exact h.2.2

/-- Only the key that it was opened under links a container to those around it. -/
theorem Linked.replace {frame other : Frame} {outer : List Frame} (h : Linked (frame :: outer))
    (hkey : other.installKey = frame.installKey) : Linked (other :: outer) := by
  cases outer with
  | nil => trivial
  | cons parent outer =>
      refine ⟨h.1, ?_, h.2.2⟩
      rw [hkey]
      exact h.2.1

theorem Linked.pendingKey_eq_none {frames : List Frame} (h : Linked frames) :
    ∀ frame ∈ frames.tail, frame.pendingKey = none := by
  induction frames with
  | nil => nofun
  | cons frame outer ih =>
      cases outer with
      | nil => nofun
      | cons parent outer =>
          intro found hfound
          rcases List.mem_cons.1 hfound with rfl | hfound
          · exact h.1
          · exact ih h.tail found hfound

/-! ### What is refused -/

/-- **What can be refused in a text.** -/
inductive Refusal (a : Assembly) : Event → DecodeError → Prop
  /-- A scalar that is the root. -/
  | scalarRoot (token : Token) (raw : Bytes) (h : a.frames = []) :
      Refusal a (.scalar token raw) .invalidRoot
  /-- An integer that is too large. -/
  | integer (raw : Bytes) : Refusal a (.scalar .integer raw) .integerOverflow
  /-- A string with an escape that stands for no character. -/
  | stringEscape (raw : Bytes) : Refusal a (.scalar .string raw) .malformedEscape
  /-- A key with an escape that stands for no character. -/
  | keyEscape (raw : Bytes) : Refusal a (.key raw) .malformedEscape
  /-- A key that is not UTF-8. -/
  | keyUtf8 (raw : Bytes) (defect : Utf8.Defect) : Refusal a (.key raw) (.invalidUtf8 defect)

/-- Whether an event is taken in, or refused for one of these reasons. -/
def Suits (a : Assembly) (event : Event) : Prop :=
  ∀ error, (a.handle event).2 = some error → a.Refusal event error

/-- Whether a scalar can be refused only for what a text may hold. -/
def Readable (token : Token) (raw : Bytes) : Prop :=
  ∀ error, scalar token raw = .error error → ∀ a : Assembly, a.Refusal (.scalar token raw) error

theorem readable_string (raw : Bytes) : Readable .string raw := by
  intro error h a
  rw [scalar] at h
  split at h
  · cases h
  · cases h
    exact .stringEscape raw

theorem readable_word (word : Scanner.Word) : Readable word.token word.letters := by
  intro error h a
  rw [scalar_word] at h
  cases h

/-- A number of the grammar denotes a double, or an integer that may be too large. -/
theorem readable_number (n : Grammar.Number) : Readable n.token n.bytes := by
  intro error h a
  rw [scalar_number n 0] at h
  by_cases hlarge : n.token = .integer ∧ ¬ Grammar.Fits n.integer
  · have hviolation : (Grammar.Part.number n).violation? = some .integerOverflow := if_pos hlarge
    rw [Grammar.Part.violations, hviolation] at h
    cases h
    rw [hlarge.1]
    exact .integer n.bytes
  · have hviolation : (Grammar.Part.number n).violation? = none := if_neg hlarge
    rw [Grammar.Part.violations, hviolation] at h
    cases h

/-! ### Lockstep -/

/-- **A scanner and an assembly that agree.** -/
structure Lockstep (s : Scanner) (a : Assembly) : Prop where
  kinds : a.frames.map Frame.kind = s.stack
  room_eq : a.room = s.room
  depth_add_room : s.stack.length + s.room = nestingLimit
  result : a.result.isSome = true ↔ s.phase = .finished
  pendingKey : ∀ frame ∈ a.frames.head?,
    frame.pendingKey.isSome = (frame.kind == .brace && s.phase.owesValue)
  linked : Linked a.frames

theorem lockstep_start : Lockstep {} {} where
  kinds := rfl
  room_eq := rfl
  depth_add_room := rfl
  result := by constructor <;> nofun
  pendingKey := nofun
  linked := trivial

section

variable {s : Scanner} {a : Assembly}

theorem Lockstep.result_eq_none (h : Lockstep s a) (hs : s.phase ≠ .finished) :
    a.result = none := by
  rw [← Option.not_isSome_iff_eq_none, h.result]
  exact hs

/-- The scanner may move on by itself, within an entry or outside of one. -/
theorem Lockstep.of_scanner (h : Lockstep s a) {after : Scanner} (hstack : after.stack = s.stack)
    (hroom : after.room = s.room) (hfinished : after.phase = .finished ↔ s.phase = .finished)
    (howes : .brace ∈ s.stack.head? → after.phase.owesValue = s.phase.owesValue) :
    Lockstep after a where
  kinds := h.kinds.trans hstack.symm
  room_eq := h.room_eq.trans hroom.symm
  depth_add_room := by rw [hstack, hroom, h.depth_add_room]
  result := h.result.trans hfinished.symm
  pendingKey := by
    intro frame hframe
    rw [h.pendingKey frame hframe]
    cases hkind : frame.kind with
    | square => rfl
    | brace =>
        have htop : .brace ∈ s.stack.head? := by
          rw [← h.kinds, List.head?_map, ← hkind]
          exact Option.mem_map_of_mem _ hframe
        rw [howes htop]
  linked := h.linked

/-- The scanner may move on by itself before the end of the root. -/
theorem Lockstep.of_unfinished (h : Lockstep s a) {after : Scanner}
    (hstack : after.stack = s.stack) (hroom : after.room = s.room)
    (hafter : after.phase ≠ .finished) (hs : s.phase ≠ .finished)
    (howes : .brace ∈ s.stack.head? → after.phase.owesValue = s.phase.owesValue) :
    Lockstep after a :=
  h.of_scanner hstack hroom ⟨fun hf => absurd hf hafter, fun hf => absurd hf hs⟩ howes

theorem Lockstep.advance (h : Lockstep s a) : Lockstep s.advance a :=
  h.of_scanner rfl rfl Iff.rfl fun _ => rfl

/-- The frame of the innermost container. -/
theorem Lockstep.exists_frame (h : Lockstep s a) {kind : Bracket} (hkind : kind ∈ s.stack.head?) :
    ∃ frame outer, a.frames = frame :: outer ∧ frame.kind = kind := by
  have hkinds := h.kinds
  cases hframes : a.frames with
  | nil =>
      rw [hframes] at hkinds
      rw [← hkinds] at hkind
      cases hkind
  | cons frame outer =>
      rw [hframes] at hkinds
      rw [← hkinds] at hkind
      cases hkind
      exact ⟨frame, outer, rfl, rfl⟩

/-- Within the root, the innermost frame is all that is to be looked at. -/
theorem lockstep_within {frame : Frame} {outer : List Frame} {room : Nat}
    {result : Option Container} (hresult : result = none)
    (hkinds : frame.kind :: outer.map Frame.kind = s.stack) (hroom : room = s.room)
    (hdepth : s.stack.length + s.room = nestingLimit) (hphase : s.phase ≠ .finished)
    (hkey : frame.pendingKey.isSome = (frame.kind == .brace && s.phase.owesValue))
    (hlinked : Linked (frame :: outer)) : Lockstep s ⟨frame :: outer, room, result⟩ where
  kinds := hkinds
  room_eq := hroom
  depth_add_room := hdepth
  result := by
    subst hresult
    exact ⟨nofun, fun h => absurd h hphase⟩
  pendingKey := by
    rintro found ⟨⟩
    exact hkey
  linked := hlinked

/-- Where no value is owed, no key is announced. -/
theorem isSome_of_none {frame : Frame} {phase : Phase} (hkey : frame.pendingKey = none)
    (howes : phase.owesValue = false) :
    frame.pendingKey.isSome = (frame.kind == .brace && phase.owesValue) := by
  rw [hkey, howes, Bool.and_false]
  rfl

/-- Where an object is owed a value, its key has been announced. -/
theorem Lockstep.accepts (h : Lockstep s a)
    (howes : .brace ∈ s.stack.head? → s.phase.owesValue = true) {frame : Frame}
    {outer : List Frame} (hframes : a.frames = frame :: outer) :
    frame.accepts frame.pendingKey = true := by
  refine Frame.accepts_of_isSome ?_
  intro hbrace
  have htop : .brace ∈ s.stack.head? := by
    rw [← h.kinds, hframes, ← hbrace]
    rfl
  rw [h.pendingKey frame (by rw [hframes]; rfl), howes htop, hbrace]
  rfl

/-- **A container opens.** -/
theorem Lockstep.enter (h : Lockstep s a) (hs : s.phase ≠ .finished)
    (howes : .brace ∈ s.stack.head? → s.phase.owesValue = true) (kind : Bracket) {room : Nat}
    (hroom : s.room = room + 1) :
    ∃ after, a.handle (.enter kind) = (after, none) ∧
      Lockstep ((s.settle.opened kind room).move (.inside kind)) after := by
  have hresult := h.result_eq_none hs
  obtain ⟨hfinished, hphase⟩ := Phase.inside_class kind
  have henter : a.handle (.enter kind) =
      (⟨Frame.start kind a.announced :: a.around, room, a.result⟩, none) := by
    rw [handle, Assembly.enter, h.room_eq, hroom, hresult]
    cases hframes : a.frames with
    | nil => simp [announced, around, hframes]
    | cons parent outer => simp [announced, around, hframes]
  have hkinds : (Frame.start kind a.announced).kind :: a.around.map Frame.kind =
      kind :: s.stack := by
    rw [Frame.kind_start, ← h.kinds, around]
    cases a.frames <;> rfl
  have hdepth : s.stack.length + 1 + room = nestingLimit := by
    have hsum := h.depth_add_room
    omega
  have hlinked : Linked (Frame.start kind a.announced :: a.around) := by
    rw [announced, around]
    cases hframes : a.frames with
    | nil => trivial
    | cons parent outer =>
        have houter := h.linked
        rw [hframes] at houter
        refine ⟨rfl, ?_, houter.replace rfl⟩
        rw [Frame.installKey_start]
        exact h.accepts howes hframes
  exact ⟨_, henter, lockstep_within hresult hkinds rfl hdepth hfinished
    (isSome_of_none (Frame.pendingKey_start ..) hphase) hlinked⟩

/-- **The innermost container closes.** -/
theorem Lockstep.leave (h : Lockstep s a) (hfits : s.phase.Fits s.stack) {kind : Bracket}
    (hkind : kind ∈ s.stack.head?) :
    ∃ after, a.handle (.leave kind) = (after, none) ∧ Lockstep s.closed.resume after := by
  obtain ⟨frame, outer, hframes, rfl⟩ := h.exists_frame hkind
  have hstack : s.stack = frame.kind :: outer.map Frame.kind := by
    rw [← h.kinds, hframes, List.map_cons]
  have hresult : a.result = none := by
    refine h.result_eq_none ?_
    intro hs
    rw [hs, hstack] at hfits
    cases hfits
  have hclosed : s.closed.stack = outer.map Frame.kind := by
    rw [Scanner.closed, hstack]
    rfl
  have hroom : a.room + 1 = s.room + 1 := by rw [h.room_eq]
  have hdepth : s.closed.stack.length + (s.room + 1) = nestingLimit := by
    have hsum := h.depth_add_room
    rw [hstack, List.length_cons] at hsum
    rw [hclosed]
    omega
  have hphase : s.closed.resume.phase = Phase.afterValue (outer.map Frame.kind) :=
    congrArg Phase.afterValue hclosed
  rw [handle, Assembly.leave, hframes]
  cases outer with
  | nil =>
      exact ⟨_, if_neg (not_not_intro rfl),
        ⟨hclosed.symm, hroom, hdepth, ⟨fun _ => hphase, fun _ => rfl⟩, by rintro frame ⟨⟩, trivial⟩⟩
  | cons parent outer =>
      have hlinked := h.linked
      rw [hframes] at hlinked
      obtain ⟨hkey, haccepts, hparent⟩ := hlinked
      obtain ⟨hfinished, howes⟩ := Phase.afterValue_cons parent.kind (outer.map Frame.kind)
      have hkinds : (parent.install frame.installKey frame.container.toValue).kind ::
          outer.map Frame.kind = s.closed.stack := by
        rw [hclosed, Frame.kind_install]
        rfl
      have hnone : (parent.install frame.installKey frame.container.toValue).pendingKey = none := by
        rw [Frame.pendingKey_install, hkey]
      refine ⟨_, (if_neg (not_not_intro rfl)).trans (if_pos haccepts), ?_⟩
      refine lockstep_within hresult hkinds hroom hdepth (by rw [hphase]; exact hfinished)
        (isSome_of_none hnone (by rw [hphase]; exact howes)) ?_
      exact hparent.replace (Frame.installKey_install ..)

/-- **A scalar is complete.** -/
theorem Lockstep.scalar (h : Lockstep s a) (hs : s.phase ≠ .finished)
    (howes : .brace ∈ s.stack.head? → s.phase.owesValue = true) {token : Token} {raw : Bytes}
    (hreadable : Readable token raw) :
    a.Suits (.scalar token raw) ∧
      ∀ after, a.handle (.scalar token raw) = (after, none) → Lockstep s.resume after := by
  unfold Suits
  rw [handle, add]
  cases hframes : a.frames with
  | nil =>
      refine ⟨?_, by rintro after ⟨⟩⟩
      rintro error ⟨⟩
      exact .scalarRoot token raw hframes
  | cons frame outer =>
      have hkinds := h.kinds
      have hlinked := h.linked
      rw [hframes] at hkinds hlinked
      cases hscalar : Assembly.scalar token raw with
      | error error =>
          refine ⟨?_, by rintro after ⟨⟩⟩
          rintro found ⟨⟩
          exact hreadable error hscalar a
      | ok content =>
          simp only [h.accepts howes hframes, if_true]
          refine ⟨by rintro error ⟨⟩, ?_⟩
          rintro after ⟨⟩
          obtain ⟨hfinished, hvalue⟩ := Phase.afterValue_cons frame.kind (outer.map Frame.kind)
          have hphase : s.resume.phase = Phase.afterValue (frame.kind :: outer.map Frame.kind) :=
            congrArg Phase.afterValue hkinds.symm
          refine lockstep_within (h.result_eq_none hs) ?_ h.room_eq h.depth_add_room
            (by rw [hphase]; exact hfinished)
            (isSome_of_none (Frame.pendingKey_takeKey _) (by rw [hphase]; exact hvalue))
            (hlinked.replace ?_)
          · rw [Frame.kind_takeKey, Frame.kind_install]
            exact hkinds
          · rw [Frame.installKey_takeKey, Frame.installKey_install]

/-- **A key is complete.** -/
theorem Lockstep.key (h : Lockstep s a) (hs : s.phase ≠ .finished)
    (hkind : .brace ∈ s.stack.head?) (raw : Bytes) :
    a.Suits (.key raw) ∧
      ∀ after, a.handle (.key raw) = (after, none) → Lockstep (s.move .objectColon) after := by
  obtain ⟨frame, outer, hframes, hbrace⟩ := h.exists_frame hkind
  have hkinds := h.kinds
  have hlinked := h.linked
  rw [hframes] at hkinds hlinked
  unfold Suits
  rw [handle, announce, hframes]
  simp only [hbrace]
  cases hread : Assembly.key raw with
  | error error =>
      refine ⟨?_, by rintro after ⟨⟩⟩
      rintro found ⟨⟩
      unfold Assembly.key at hread
      split at hread
      · cases hread
        exact .keyEscape raw
      · split at hread
        · cases hread
        · cases hread
          exact .keyUtf8 raw _
  | ok text =>
      refine ⟨by rintro found ⟨⟩, ?_⟩
      rintro after ⟨⟩
      refine lockstep_within (h.result_eq_none hs) hkinds h.room_eq h.depth_add_room
        (by rintro ⟨⟩) ?_ (hlinked.replace rfl)
      change true = (frame.kind == .brace && true)
      rw [hbrace]
      rfl

end

end Assembly

/-! ### One byte -/

namespace Scanner

open Assembly (Lockstep Suits)

/-- **What every way through a reaction leads to**: each event that an assembly is told suits it,
and if the byte is accepted, scanner and assembly are as claimed. -/
def Reaction.Ensures (claim : Scanner → Assembly → Prop) : Reaction → Assembly → Prop
  | .accept after, a => claim after a
  | .reject _ _, _ => True
  | .raise event _ next, a =>
    a.Suits event ∧ ∀ after, a.handle event = (after, none) → next.Ensures claim after

/-- An event that is taken in for certain. -/
theorem Reaction.ensures_raise {claim : Scanner → Assembly → Prop} {event : Event}
    {refused : Scanner} {next : Reaction} {a after : Assembly}
    (h : a.handle event = (after, none)) (hnext : next.Ensures claim after) :
    (Reaction.raise event refused next).Ensures claim a := by
  refine ⟨?_, ?_⟩
  · intro error herror
    rw [h] at herror
    cases herror
  · intro found hfound
    rw [h] at hfound
    cases hfound
    exact hnext

variable {s : Scanner} {b : UInt8} {a : Assembly}

theorem ReactsPast.ensures {r : Reaction} (h : ReactsPast s b r) (ha : Lockstep s.resume a) :
    r.Ensures Lockstep a := by
  cases h with
  | space hb => exact ha
  | @comma _ kind hkind =>
      obtain ⟨hfinished, howes⟩ := Phase.inside_class kind
      have hresume : s.resume.phase ≠ .finished ∧ s.resume.phase.owesValue = false := by
        change Phase.afterValue s.stack ≠ _ ∧ (Phase.afterValue s.stack).owesValue = _
        cases hstack : s.stack with
        | nil => rw [hstack] at hkind; cases hkind
        | cons top outer => exact Phase.afterValue_cons top outer
      exact ha.of_unfinished rfl rfl hfinished hresume.1 fun _ => howes.trans hresume.2.symm
  | close hb hkind =>
      obtain ⟨after, hhandle, hafter⟩ := ha.leave (Phase.fits_afterValue s.stack) hkind
      exact Reaction.ensures_raise hhandle hafter
  | reject fault hfault comma => trivial

/-- Where a value of an object is expected, its key has been read. -/
theorem ExpectsValue.owesValue (hs : s.ExpectsValue) (hfits : s.phase.Fits s.stack)
    (hstack : .brace ∈ s.stack.head?) : s.phase.owesValue = true := by
  rcases hs with hs | ⟨hs | hs, -⟩
  · rw [hs] at hfits
    cases Option.some.inj (hfits.symm.trans hstack)
  · rw [hs] at hfits
    rw [show s.stack = [] from hfits] at hstack
    cases hstack
  · rw [hs]
    rfl

/-- A token that begins where a value is expected. -/
theorem lockstep_begin (hs : s.Coherent) (ha : Lockstep s a) (hvalue : s.ExpectsValue)
    {after : Scanner} (hstack : after.stack = s.stack) (hroom : after.room = s.room)
    (howes : after.phase.owesValue = true) : Lockstep after a := by
  refine ha.of_unfinished hstack hroom (Phase.ne_finished_of_owesValue howes) hvalue.ne_finished ?_
  intro hbrace
  rw [howes, hvalue.owesValue hs.fits hbrace]

/-- A scalar that is complete, and what the same byte then makes the scanner do. -/
theorem ensures_scalar (ha : Lockstep s a) (howes : s.phase.owesValue = true) {token : Token}
    {raw : Bytes} (hreadable : Assembly.Readable token raw) {next : Reaction}
    (hnext : ∀ after, Lockstep s.resume after → next.Ensures Lockstep after) :
    (Reaction.raise (.scalar token raw) s next).Ensures Lockstep a := by
  obtain ⟨hsuits, hafter⟩ :=
    ha.scalar (Phase.ne_finished_of_owesValue howes) (fun _ => howes) hreadable
  exact ⟨hsuits, fun after hhandle => hnext after (hafter after hhandle)⟩

/-- **One byte keeps scanner and assembly in lockstep.** -/
theorem Reacts.ensures {r : Reaction} (h : Reacts s b r) (hs : s.Coherent) (ha : Lockstep s a) :
    r.Ensures Lockstep a := by
  cases h with
  | space hskips hb => exact ha
  | enter hvalue hb hroom =>
      obtain ⟨after, hhandle, hafter⟩ :=
        ha.enter hvalue.ne_finished (hvalue.owesValue hs.fits) _ hroom
      exact Reaction.ensures_raise hhandle hafter
  | leave hphase hcomma hb hkind =>
      obtain ⟨after, hhandle, hafter⟩ := ha.leave hs.fits hkind
      exact Reaction.ensures_raise hhandle hafter
  | beginString hvalue hb => exact lockstep_begin hs ha hvalue rfl rfl rfl
  | beginWord hvalue hb => exact lockstep_begin hs ha hvalue rfl rfl rfl
  | beginNumber hvalue hb => exact lockstep_begin hs ha hvalue rfl rfl rfl
  | beginKey hphase hb =>
      exact ha.of_unfinished rfl rfl nofun (by simp [hphase]) fun _ => by rw [hphase]; rfl
  | @text role place next hphase hb =>
      refine ha.of_unfinished rfl rfl nofun (by simp [hphase]) ?_
      intro _
      rw [hphase]
      cases role <;> rfl
  | colon hphase hb =>
      exact ha.of_unfinished rfl rfl nofun (by simp [hphase]) fun _ => by rw [hphase]; rfl
  | letter hphase =>
      exact ha.of_unfinished rfl rfl nofun (by simp [hphase]) fun _ => by rw [hphase]; rfl
  | digit hphase hb =>
      exact ha.of_unfinished rfl rfl nofun (by simp [hphase]) fun _ => by rw [hphase]; rfl
  | string hphase hb =>
      exact ensures_scalar ha (by rw [hphase]; rfl) (Assembly.readable_string _) fun _ h => h
  | @word word hphase =>
      exact ensures_scalar ha (by rw [hphase]; rfl) (Assembly.readable_word word) fun _ h => h
  | key hphase hb =>
      have hfits := hs.fits
      rw [hphase] at hfits
      exact ha.key (by simp [hphase]) hfits _
  | number hphase hp hnext =>
      obtain ⟨n, hn⟩ := (hs.reads _ hphase).exists_number hp
      rw [← hn, numberToken_bytes]
      exact ensures_scalar ha (by rw [hphase]; rfl) (Assembly.readable_number n) fun _ hafter =>
        hnext.ensures hafter
  | past hphase hpast =>
      refine hpast.ensures (ha.of_scanner rfl rfl ?_ fun _ => ?_) <;> rw [hphase] <;> rfl
  | trailingComma hcomma hb => trivial
  | reject fault hfault comma => trivial

end Scanner

namespace Decoder

open Assembly (Lockstep Suits Refusal)
open Scanner (Reaction Progress Stop)

/-! ### The events that are told -/

/-- An assembly together with the events that were told so far, each with the assembly that it was
told to. -/
abbrev Record := Assembly × List (Assembly × Event)

/-- The assembly as a listener that keeps record of the events. -/
def recording : Scanner.Listener Record DecodeError :=
  fun (a, told) event _ => (((a.handle event).1, told ++ [(a, event)]), (a.handle event).2)

/-- A scan without its record. -/
def unrecorded (progress : Progress Record DecodeError) : Progress Assembly DecodeError :=
  ⟨progress.scanner, progress.listener.1, progress.stop⟩

theorem unrecorded_run (offset : Nat) (r : Reaction) (record : Record) :
    unrecorded (r.run recording offset record) = r.run listen offset record.1 := by
  induction r generalizing record with
  | accept after => rfl
  | reject error left => rfl
  | raise event refused next ih =>
      obtain ⟨a, told⟩ := record
      simp only [Reaction.run, recording, listen]
      rcases a.handle event with ⟨after, _ | reason⟩
      · exact ih _
      · rfl

/-- Keeping record changes nothing. -/
theorem unrecorded_feed (s : Scanner) (record : Record) (part : Bytes) :
    unrecorded (Scanner.feed recording s record part) =
      Scanner.feed listen s record.1 part := by
  induction part generalizing s record with
  | nil => rfl
  | cons b part ih =>
      have hrun := unrecorded_run s.consumed (s.step b) record
      rw [Scanner.feed, Scanner.feed, ← hrun]
      rcases (s.step b).run recording s.consumed record with ⟨after, record, _ | stop⟩
      · exact ih _ _
      · rfl

/-- The events that an assembly is told when a part is written. -/
def told (d : Decoder) (part : Bytes) : List (Assembly × Event) :=
  (Scanner.feed recording d.scanner (d.assembly, []) part).listener.2

/-- The events that an assembly is told at the end of the text. -/
def toldAtEnd (d : Decoder) : List (Assembly × Event) :=
  (Scanner.close recording d.scanner (d.assembly, [])).listener.2

/-- Whether all events that were told suited the assembly. -/
def AllSuit (told : List (Assembly × Event)) : Prop := ∀ p ∈ told, p.1.Suits p.2

/-- Why a scan stopped: a refusal is that of an event that was told. -/
def Explained (stop : Stop DecodeError) (record : Record) : Prop :=
  AllSuit record.2 ∧ ∀ reason, stop = .refused reason →
    ∃ p ∈ record.2, (p.1.handle p.2).2 = some reason

theorem allSuit_nil : AllSuit [] := fun _ h => absurd h List.not_mem_nil

theorem allSuit_snoc {told : List (Assembly × Event)} (h : AllSuit told) {a : Assembly}
    {event : Event} (hevent : a.Suits event) : AllSuit (told ++ [(a, event)]) := by
  intro p hp
  rcases List.mem_append.1 hp with hp | hp
  · exact h p hp
  · rw [List.mem_singleton.1 hp]
    exact hevent

/-- A reaction is carried out as it ensures. -/
theorem meets_run {claim : Scanner → Assembly → Prop} {r : Reaction} {a : Assembly}
    (h : r.Ensures claim a) {told : List (Assembly × Event)} (htold : AllSuit told) (offset : Nat) :
    (r.run recording offset (a, told)).Meets
      (fun after record => claim after record.1 ∧ AllSuit record.2) Explained := by
  induction r generalizing a told with
  | accept after => exact ⟨h, htold⟩
  | reject error left => exact ⟨htold, nofun⟩
  | raise event refused next ih =>
      obtain ⟨hsuits, hnext⟩ := h
      have hall := allSuit_snoc htold hsuits
      simp only [Reaction.run, recording]
      rcases hhandle : a.handle event with ⟨after, _ | reason⟩
      · exact ih (hnext after hhandle) hall
      · refine ⟨hall, ?_⟩
        rintro found ⟨⟩
        exact ⟨(a, event), List.mem_append_right _ List.mem_cons_self, by rw [hhandle]⟩

/-- **Every part of a text keeps scanner and assembly in lockstep.** -/
theorem meets_feed {s : Scanner} {a : Assembly} (hs : s.Coherent) (ha : Lockstep s a)
    (part : Bytes) :
    (Scanner.feed recording s (a, []) part).Meets
      (fun after record => (after.Coherent ∧ Lockstep after record.1) ∧ AllSuit record.2)
      Explained := by
  refine Scanner.meets_feed recording (x := [])
    (P := fun _ s record => (s.Coherent ∧ Lockstep s record.1) ∧ AllSuit record.2) ?_
    ⟨⟨hs, ha⟩, allSuit_nil⟩ part
  rintro x s ⟨a, told⟩ b ⟨⟨hs, ha⟩, htold⟩
  have hmeets := meets_run ((hs.reacts b).ensures hs ha) htold s.consumed
  rcases hrun : (s.step b).run recording s.consumed (a, told) with ⟨after, record, _ | stop⟩
  · rw [hrun] at hmeets
    exact ⟨⟨hs.of_run recording hrun, hmeets.1.advance⟩, hmeets.2⟩
  · rw [hrun] at hmeets
    exact hmeets

/-- What the end of the text ensures: the root is closed. -/
theorem ensures_finish {s : Scanner} {a : Assembly} (ha : Lockstep s a) :
    s.finish.Ensures (fun _ after => after.frames = [] ∧ after.result.isSome = true) a := by
  unfold Scanner.finish
  split
  · trivial
  · next phase _ =>
      by_cases hstack : s.stack = []
      · have hframes : a.frames = [] := List.map_eq_nil_iff.1 (ha.kinds.trans hstack)
        rw [if_neg (not_not_intro hstack)]
        split
        · trivial
        split
        · next hphase => exact ⟨hframes, ha.result.2 hphase⟩
        · split
          · refine ⟨?_, ?_⟩
            · intro error herror
              rw [Assembly.handle, Assembly.add, hframes] at herror
              cases herror
              exact .scalarRoot _ _ hframes
            · intro after hafter
              rw [Assembly.handle, Assembly.add, hframes] at hafter
              cases hafter
          · trivial
        · trivial
      · rw [if_pos hstack]
        trivial

/-! ### The errors of a decoder -/

/-- **Where the error of a call comes from**, given the events that were told in the call. -/
inductive Cause (told : List (Assembly × Event)) : DecodeError → Prop
  /-- The caller had the reading stopped. -/
  | aborted : Cause told .aborted
  /-- The text is not well-formed. -/
  | fault (error : SyntaxError) : Cause told (.ofSyntax error)
  /-- An event was refused. -/
  | refused {a : Assembly} {event : Event} {error : DecodeError} (hmem : (a, event) ∈ told)
      (hrefused : (a.handle event).2 = some error) (h : a.Refusal event error) : Cause told error

/-- Whether an error could only come of a disorder within the decoder. -/
def Internal (error : DecodeError) : Prop :=
  error = .invalidNumber ∨ ∃ disorder, error = .unexpectedState disorder

theorem not_internal_ofSyntax (error : SyntaxError) : ¬ Internal (.ofSyntax error) := by
  unfold DecodeError.ofSyntax
  rintro (h | ⟨disorder, h⟩) <;> split at h <;> cases h

theorem Cause.not_internal {told : List (Assembly × Event)} {error : DecodeError}
    (h : Cause told error) : ¬ Internal error := by
  cases h with
  | aborted => rintro (h | ⟨disorder, h⟩) <;> cases h
  | fault error => exact not_internal_ofSyntax error
  | refused hmem hrefused h => cases h <;> rintro (h | ⟨disorder, h⟩) <;> cases h

/-- An error that says that something is not UTF-8 comes from a key. -/
theorem Cause.exists_key {told : List (Assembly × Event)} {error : DecodeError}
    (h : Cause told error) {defect : Utf8.Defect} (herror : error = .invalidUtf8 defect) :
    ∃ a raw, (a, .key raw) ∈ told ∧ (a.handle (.key raw)).2 = some error := by
  cases h with
  | aborted => cases herror
  | fault error =>
      unfold DecodeError.ofSyntax at herror
      split at herror <;> cases herror
  | refused hmem hrefused h =>
      cases h with
      | keyUtf8 raw => exact ⟨_, raw, hmem, hrefused⟩
      | scalarRoot | integer | stringEscape | keyEscape => cases herror

theorem cause_of_explained {stop : Stop DecodeError} {record : Record}
    (h : Explained stop record) : Cause record.2 (errorOf stop) := by
  cases stop with
  | fault error => exact .fault error
  | refused reason =>
      obtain ⟨p, hmem, hrefused⟩ := h.2 reason rfl
      exact .refused hmem hrefused (h.1 p hmem reason hrefused)

section

variable {d : Decoder}

/-- **A part that is written** keeps scanner and assembly in lockstep, or there is a cause for its
error; and every event suits the assembly. -/
theorem write_spec (hfailure : d.failure = none) (hs : d.scanner.Coherent)
    (ha : Lockstep d.scanner d.assembly) (stopped : Bool) (part : Bytes) :
    AllSuit (d.told part) ∧
      match d.write stopped part with
      | (after, none) => after.scanner.Coherent ∧ Lockstep after.scanner after.assembly
      | (_, some error) => Cause (d.told part) error := by
  obtain ⟨scanner, a, failure⟩ := d
  cases hfailure
  have hmeets := meets_feed hs ha part
  have hfeed := unrecorded_feed scanner (a, []) part
  simp only [write, told, ← hfeed]
  rcases hrun : Scanner.feed recording scanner (a, []) part with ⟨after, record, _ | stop⟩ <;>
    rw [hrun] at hmeets
  · refine ⟨hmeets.2, ?_⟩
    cases stopped with
    | true => exact .aborted
    | false => exact hmeets.1
  · refine ⟨hmeets.1, ?_⟩
    cases stopped with
    | true => exact .aborted
    | false => exact cause_of_explained hmeets

/-- **The end of the text**: there is a cause for an error, and without one there is a root. -/
theorem finish_spec (hfailure : d.failure = none) (ha : Lockstep d.scanner d.assembly) :
    AllSuit d.toldAtEnd ∧
      (∀ after a, Scanner.close listen d.scanner d.assembly = ⟨after, a, none⟩ →
        a.depth = 0 ∧ a.result.isSome = true) ∧
      ∀ stopped error, d.finish stopped = .error error → Cause d.toldAtEnd error := by
  obtain ⟨scanner, a, failure⟩ := d
  cases hfailure
  have hmeets := meets_run (ensures_finish ha) allSuit_nil scanner.consumed
  have hclose : unrecorded (Scanner.close recording scanner (a, [])) =
      Scanner.close listen scanner a := unrecorded_run scanner.consumed scanner.finish (a, [])
  change (Scanner.close recording scanner (a, [])).Meets _ _ at hmeets
  simp only [finish, toldAtEnd, ← hclose]
  rcases hrun : Scanner.close recording scanner (a, []) with ⟨after, record, _ | stop⟩ <;>
    rw [hrun] at hmeets
  · obtain ⟨⟨hframes, hresult⟩, hall⟩ := hmeets
    have hdepth : record.1.depth = 0 := by rw [Assembly.depth, hframes]; rfl
    obtain ⟨root, hroot⟩ := Option.isSome_iff_exists.1 hresult
    refine ⟨hall, ?_, ?_⟩
    · rintro found b ⟨⟩
      exact ⟨hdepth, hresult⟩
    · intro stopped error herror
      cases stopped with
      | true =>
          cases herror
          exact .aborted
      | false => simp [unrecorded, hdepth, hroot] at herror
  · refine ⟨hmeets.1, by rintro found b ⟨⟩, ?_⟩
    intro stopped error herror
    cases stopped with
    | true =>
        cases herror
        exact .aborted
    | false =>
        cases herror
        exact cause_of_explained hmeets

end

/-! ### Calls -/

/-- **A fresh decoder after some calls**, each with the answer whether to stop and a part of the
text, whether or not it took them in. -/
def called (calls : List (Bool × Bytes)) : Decoder :=
  calls.foldl (fun d call => (d.write call.1 call.2).1) {}

/-- What is true of a decoder after any calls. -/
def Kept (d : Decoder) : Prop :=
  match d.failure with
  | none => d.scanner.Coherent ∧ Lockstep d.scanner d.assembly
  | some error => ¬ Internal error

theorem kept_write {d : Decoder} (h : d.Kept) (stopped : Bool) (part : Bytes) :
    (d.write stopped part).1.Kept := by
  unfold Kept at h
  cases hfailure : d.failure with
  | none =>
      rw [hfailure] at h
      obtain ⟨-, hwrite⟩ := write_spec hfailure h.1 h.2 stopped part
      have hreply := d.failure_write stopped part
      rcases hcall : d.write stopped part with ⟨after, _ | error⟩ <;> rw [hcall] at hwrite hreply
      · unfold Kept
        rw [hreply]
        exact hwrite
      · unfold Kept
        rw [hreply]
        exact hwrite.not_internal
  | some error =>
      rw [write_of_failure hfailure]
      unfold Kept
      rwa [hfailure] at h ⊢

/-- **Every sequence of calls keeps scanner and assembly in lockstep.** -/
theorem kept_called (calls : List (Bool × Bytes)) : (called calls).Kept := by
  have hkept (d : Decoder) (hd : d.Kept) :
      (calls.foldl (fun d call => (d.write call.1 call.2).1) d).Kept := by
    induction calls generalizing d with
    | nil => exact hd
    | cons call calls ih => exact ih _ (kept_write hd call.1 call.2)
  exact hkept {} ⟨Scanner.coherent_start nestingLimit, Assembly.lockstep_start⟩

/-- **A decoder whose scanner and assembly agree.** -/
structure Agrees (d : Decoder) : Prop where
  /-- The frames are of the kinds of the scanner's open containers, in the same order. -/
  kinds : d.assembly.frames.map Assembly.Frame.kind = d.scanner.stack
  depth_eq : d.depth = d.scanner.depth
  depth_le : d.depth ≤ nestingLimit
  /-- The innermost container has an announced key exactly if it is an object and the scanner is
  between that key and the start of a container or the end of a scalar. -/
  pendingKey : ∀ frame ∈ d.assembly.frames.head?,
    frame.pendingKey.isSome = (frame.kind == .brace && d.scanner.phase.owesValue)
  /-- The others have given theirs to the container in them. -/
  pendingKey_outer : ∀ frame ∈ d.assembly.frames.tail, frame.pendingKey = none

/-- **A decoder whose next call goes wrong only for a cause.** -/
structure Answers (d : Decoder) : Prop where
  allSuit_told : ∀ part, AllSuit (d.told part)
  allSuit_toldAtEnd : AllSuit d.toldAtEnd
  cause_of_write : ∀ stopped part error, (d.write stopped part).2 = some error →
    Cause (d.told part) error
  cause_of_finish : ∀ stopped error, d.finish stopped = .error error → Cause d.toldAtEnd error
  /-- An error that says that something is not UTF-8 comes from a key. -/
  exists_key : ∀ stopped part defect, (d.write stopped part).2 = some (.invalidUtf8 defect) →
    ∃ a raw, (a, .key raw) ∈ d.told part ∧
      (a.handle (.key raw)).2 = some (.invalidUtf8 defect)
  /-- Once the scan has come to its end, no container is open and there is a root. -/
  root_of_close : ∀ after a, Scanner.close listen d.scanner d.assembly = ⟨after, a, none⟩ →
    a.depth = 0 ∧ a.result.isSome = true

section

variable {d : Decoder}

theorem agrees_of_lockstep (ha : Lockstep d.scanner d.assembly) : d.Agrees where
  kinds := ha.kinds
  depth_eq := by
    have hlength := congrArg List.length ha.kinds
    rwa [List.length_map] at hlength
  depth_le := by
    have hlength := congrArg List.length ha.kinds
    rw [List.length_map] at hlength
    have hsum := ha.depth_add_room
    change d.assembly.frames.length ≤ nestingLimit
    omega
  pendingKey := ha.pendingKey
  pendingKey_outer := ha.linked.pendingKey_eq_none

theorem answers_of_lockstep (hfailure : d.failure = none) (hs : d.scanner.Coherent)
    (ha : Lockstep d.scanner d.assembly) : d.Answers := by
  obtain ⟨htold, hclose, hfinish⟩ := finish_spec hfailure ha
  have hcause (stopped : Bool) (part : Bytes) (error : DecodeError)
      (herror : (d.write stopped part).2 = some error) : Cause (d.told part) error := by
    have hwrite := (write_spec hfailure hs ha stopped part).2
    rcases hcall : d.write stopped part with ⟨after, reply⟩
    rw [hcall] at hwrite herror
    cases herror
    exact hwrite
  refine ⟨fun part => (write_spec hfailure hs ha false part).1, htold, hcause, hfinish, ?_, hclose⟩
  intro stopped part defect herror
  exact (hcause stopped part _ herror).exists_key rfl

end

/-- **Scanner and assembly stay in lockstep**, in every sequence of calls over every text.  As long
as no part has failed they agree, every event that is told suits the assembly or is refused for
what a text may hold, and every error has its cause in the caller, in the syntax of the text or in
such an event.  No call, before or after a failure, reports an internal error. -/
theorem lockstep_of_calls (calls : List (Bool × Bytes)) :
    ((called calls).failure = none → (called calls).Agrees ∧ (called calls).Answers) ∧
    (∀ stopped part error, ((called calls).write stopped part).2 = some error →
      ¬ Internal error) ∧
    ∀ stopped error, (called calls).finish stopped = .error error → ¬ Internal error := by
  have hkept := kept_called calls
  obtain ⟨d, hd⟩ : ∃ d, d = called calls := ⟨_, rfl⟩
  rw [← hd] at hkept ⊢
  refine ⟨?_, ?_, ?_⟩
  · intro hfailure
    rw [Kept, hfailure] at hkept
    exact ⟨agrees_of_lockstep hkept.2, answers_of_lockstep hfailure hkept.1 hkept.2⟩
  · intro stopped part error herror
    have hafter := kept_write hkept stopped part
    rwa [Kept, d.failure_write stopped part, herror] at hafter
  · intro stopped error herror
    cases hfailure : d.failure with
    | none =>
        rw [Kept, hfailure] at hkept
        exact ((finish_spec hfailure hkept.2).2.2 stopped error herror).not_internal
    | some first =>
        rw [Kept, hfailure] at hkept
        rw [finish_of_failure hfailure] at herror
        cases herror
        exact hkept

end Decoder

end DocCodec
