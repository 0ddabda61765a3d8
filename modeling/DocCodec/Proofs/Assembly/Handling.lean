/-
**Assemblies that are used on after errors.**

Nothing obliges those who raise events to heed what comes of them.  Events may come in any order and
after others were refused, the result may be taken and everything be discarded at any time.  All the
same a refused event does little damage: all is as it was before, except that the end of a container
has discarded the innermost frame, if there is one.

So some things hold at all times.  No more containers are open than the bound allows, and none as
long as there is a result.  A key is announced in objects only, an array counts its items, and only
what was opened in an object has a key to be installed under.

Main definitions:

* `DocCodec.Assembly.Takes` — **how an event is taken in**;
* `DocCodec.Assembly.Declines` — **why an event is refused**;
* `DocCodec.Assembly.Responds` — whether a response is one or the other;
* `DocCodec.Assembly.Ask`, `DocCodec.Assembly.asked` — an assembly that has been asked for anything,
  in any order;
* `DocCodec.Assembly.Sound` — what holds of an assembly at all times.

Main results:

* `DocCodec.Assembly.responds_handle` — **what an event does**;
* `DocCodec.Assembly.refused_event_damage` — **what a refused event leaves**;
* `DocCodec.Assembly.Sound.ask` — an assembly remains sound, whatever it is asked for;
* `DocCodec.Assembly.asked_sound` — **what holds of an assembly at all times**.
-/

import DocCodec.Assembly

set_option relaxedAutoImplicit false
set_option autoImplicit false

namespace DocCodec.Assembly

/-! ### What an event does -/

/-- **How an event is taken in**: the assembly before, the event, and the assembly afterwards. -/
inductive Takes : Assembly → Event → Assembly → Prop
  /-- The root opens. -/
  | openRoot (kind : Bracket) (room : Nat) :
      Takes ⟨[], room + 1, none⟩ (.enter kind) ⟨[Frame.start kind none], room, none⟩
  /-- A container opens within another, whose announced key it takes along. -/
  | openInner (kind : Bracket) (parent : Frame) (outer : List Frame) (room : Nat) :
      Takes ⟨parent :: outer, room + 1, none⟩ (.enter kind)
        ⟨Frame.start kind parent.pendingKey :: parent.takeKey :: outer, room, none⟩
  /-- A key is announced in an object. -/
  | key {frame : Frame} (outer : List Frame) (room : Nat) (result : Option Container) {raw : Bytes}
      {text : String} (hkind : frame.kind = .brace) (htext : Assembly.key raw = .ok text) :
      Takes ⟨frame :: outer, room, result⟩ (.key raw)
        ⟨{ frame with pendingKey := some text } :: outer, room, result⟩
  /-- A scalar is installed, under the announced key in an object. -/
  | scalar {frame : Frame} (outer : List Frame) (room : Nat) (result : Option Container)
      {token : Token} {raw : Bytes} {content : Scalar}
      (hcontent : Assembly.scalar token raw = .ok content)
      (haccepts : frame.accepts frame.pendingKey = true) :
      Takes ⟨frame :: outer, room, result⟩ (.scalar token raw)
        ⟨(frame.install frame.pendingKey (.scalar content)).takeKey :: outer, room, result⟩
  /-- The root closes. -/
  | closeRoot (frame : Frame) (room : Nat) (result : Option Container) :
      Takes ⟨[frame], room, result⟩ (.leave frame.kind) ⟨[], room + 1, some frame.container⟩
  /-- A container closes and is installed in the one around it. -/
  | closeInner {frame parent : Frame} (outer : List Frame) (room : Nat) (result : Option Container)
      (haccepts : parent.accepts frame.installKey = true) :
      Takes ⟨frame :: parent :: outer, room, result⟩ (.leave frame.kind)
        ⟨parent.install frame.installKey frame.container.toValue :: outer, room + 1, result⟩

/-- **Why an event is refused.** -/
inductive Declines (a : Assembly) : Event → DecodeError → Prop
  /-- There is no room for a container. -/
  | full (kind : Bracket) (h : a.room = 0) : Declines a (.enter kind) .nestingTooDeep
  /-- The root is closed already. -/
  | finished (kind : Bracket) (hroom : 0 < a.room) (h : a.result.isSome = true) :
      Declines a (.enter kind) .invalidRoot
  /-- Nothing is open that could have a key. -/
  | keyOutside (raw : Bytes) (h : a.frames = []) :
      Declines a (.key raw) (.unexpectedState .keyOutsideObject)
  /-- An array has no keys. -/
  | keyInArray (raw : Bytes) {frame : Frame} {outer : List Frame} (h : a.frames = frame :: outer)
      (hkind : frame.kind = .square) : Declines a (.key raw) (.unexpectedState .keyInsideArray)
  /-- The key cannot be read. -/
  | badKey {raw : Bytes} {frame : Frame} {outer : List Frame} {error : DecodeError}
      (h : a.frames = frame :: outer) (hkind : frame.kind = .brace)
      (herror : Assembly.key raw = .error error) : Declines a (.key raw) error
  /-- A scalar cannot be the root. -/
  | scalarRoot (token : Token) (raw : Bytes) (h : a.frames = []) :
      Declines a (.scalar token raw) .invalidRoot
  /-- The scalar cannot be read. -/
  | badScalar {token : Token} {raw : Bytes} {frame : Frame} {outer : List Frame}
      {error : DecodeError} (h : a.frames = frame :: outer)
      (herror : Assembly.scalar token raw = .error error) : Declines a (.scalar token raw) error
  /-- A scalar in an object has no key. -/
  | scalarWithoutKey {token : Token} {raw : Bytes} {frame : Frame} {outer : List Frame}
      {content : Scalar} (h : a.frames = frame :: outer)
      (hcontent : Assembly.scalar token raw = .ok content) (hkind : frame.kind = .brace)
      (hkey : frame.pendingKey = none) :
      Declines a (.scalar token raw) (.unexpectedState .valueWithoutKey)
  /-- Nothing is open that could close. -/
  | leaveOutside (kind : Bracket) (h : a.frames = []) :
      Declines a (.leave kind) (.unexpectedState .closeWithoutOpen)
  /-- The innermost container is of the other kind. -/
  | mismatch {kind : Bracket} {frame : Frame} {outer : List Frame} (h : a.frames = frame :: outer)
      (hkind : frame.kind ≠ kind) : Declines a (.leave kind) (.unexpectedState .closeMismatch)
  /-- A container in an object has no key. -/
  | containerWithoutKey {frame parent : Frame} {outer : List Frame}
      (h : a.frames = frame :: parent :: outer) (hkind : parent.kind = .brace)
      (hkey : frame.installKey = none) :
      Declines a (.leave frame.kind) (.unexpectedState .valueWithoutKey)

/-- What a refused event leaves: the end of a container has discarded the innermost frame. -/
def afterRefusal (a : Assembly) (event : Event) : Assembly :=
  match event, a.frames with
  | .leave _, _ :: outer => { a with frames := outer, room := a.room + 1 }
  | _, _ => a

theorem Frame.accepts_eq_false_iff {frame : Frame} {key : Option String} :
    frame.accepts key = false ↔ frame.kind = .brace ∧ key = none := by
  unfold Frame.accepts
  cases frame.kind <;> cases key <;> simp

/-- Whether a response takes an event in, or refuses it and leaves almost all as it was. -/
def Responds (a : Assembly) (event : Event) (response : Response) : Prop :=
  (∃ after, response = (after, none) ∧ Takes a event after) ∨
    ∃ error, response = (a.afterRefusal event, some error) ∧ Declines a event error

theorem responds_enter (a : Assembly) (kind : Bracket) :
    a.Responds (.enter kind) (a.enter kind) := by
  obtain ⟨frames, room, result⟩ := a
  cases room with
  | zero => exact .inr ⟨_, rfl, .full kind rfl⟩
  | succ room =>
      cases result with
      | some root => exact .inr ⟨_, rfl, .finished kind (Nat.succ_pos room) rfl⟩
      | none =>
          cases frames with
          | nil => exact .inl ⟨_, rfl, .openRoot kind room⟩
          | cons parent outer => exact .inl ⟨_, rfl, .openInner kind parent outer room⟩

theorem responds_announce (a : Assembly) (raw : Bytes) :
    a.Responds (.key raw) (a.announce raw) := by
  obtain ⟨frames, room, result⟩ := a
  cases frames with
  | nil => exact .inr ⟨_, rfl, .keyOutside raw rfl⟩
  | cons frame outer =>
      rw [announce]
      cases hkind : frame.kind with
      | square =>
          simp only [hkind]
          exact .inr ⟨_, rfl, .keyInArray raw rfl hkind⟩
      | brace =>
          simp only [hkind]
          cases hkey : Assembly.key raw with
          | error error => exact .inr ⟨_, rfl, .badKey rfl hkind hkey⟩
          | ok text => exact .inl ⟨_, rfl, .key outer room result hkind hkey⟩

theorem responds_add (a : Assembly) (token : Token) (raw : Bytes) :
    a.Responds (.scalar token raw) (a.add token raw) := by
  obtain ⟨frames, room, result⟩ := a
  cases frames with
  | nil => exact .inr ⟨_, rfl, .scalarRoot token raw rfl⟩
  | cons frame outer =>
      rw [add]
      cases hscalar : Assembly.scalar token raw with
      | error error => exact .inr ⟨_, rfl, .badScalar rfl hscalar⟩
      | ok content =>
          cases haccepts : frame.accepts frame.pendingKey with
          | true =>
              simp only [haccepts, if_true]
              exact .inl ⟨_, rfl, .scalar outer room result hscalar haccepts⟩
          | false =>
              obtain ⟨hkind, hkey⟩ := Frame.accepts_eq_false_iff.1 haccepts
              simp only [haccepts, Bool.false_eq_true, if_false]
              exact .inr ⟨_, rfl, .scalarWithoutKey rfl hscalar hkind hkey⟩

theorem responds_leave (a : Assembly) (kind : Bracket) :
    a.Responds (.leave kind) (a.leave kind) := by
  obtain ⟨frames, room, result⟩ := a
  cases frames with
  | nil => exact .inr ⟨_, rfl, .leaveOutside kind rfl⟩
  | cons frame outer =>
      by_cases hkind : frame.kind = kind
      · subst hkind
        rw [leave]
        simp only [ne_eq, not_true, if_false]
        cases outer with
        | nil => exact .inl ⟨_, rfl, .closeRoot frame room result⟩
        | cons parent outer =>
            cases haccepts : parent.accepts frame.installKey with
            | true =>
                simp only [haccepts, if_true]
                exact .inl ⟨_, rfl, .closeInner outer room result haccepts⟩
            | false =>
                obtain ⟨hbrace, hkey⟩ := Frame.accepts_eq_false_iff.1 haccepts
                simp only [haccepts, Bool.false_eq_true, if_false]
                exact .inr ⟨_, rfl, .containerWithoutKey rfl hbrace hkey⟩
      · exact .inr ⟨_, if_pos hkind, .mismatch rfl hkind⟩

/-- **What an event does**: it is taken in, or it is refused and leaves almost all as it was. -/
theorem responds_handle (a : Assembly) (event : Event) : a.Responds event (a.handle event) := by
  cases event with
  | enter kind => exact a.responds_enter kind
  | leave kind => exact a.responds_leave kind
  | key raw => exact a.responds_announce raw
  | scalar token raw => exact a.responds_add token raw

/-! ### What a refused event leaves -/

/-- **What a refused event leaves.**  Whatever it is refused for, the beginning of a container, a
key and a scalar leave everything as it was.  The end of a container does so if nothing is open, and
otherwise discards the innermost frame and nothing else, so that there is room for one container
more. -/
theorem refused_event_damage {a : Assembly} {event : Event} {error : DecodeError}
    (h : (a.handle event).2 = some error) :
    Declines a event error ∧
      ((∀ kind, event ≠ .leave kind) → (a.handle event).1 = a) ∧
      ∀ kind, event = .leave kind →
        (a.frames = [] ∧ (a.handle event).1 = a) ∨
          ∃ innermost outer, a.frames = innermost :: outer ∧
            (a.handle event).1 = { a with frames := outer, room := a.room + 1 } := by
  obtain ⟨after, hafter, -⟩ | ⟨found, hrefused, hdeclines⟩ := a.responds_handle event
  · rw [hafter] at h
    cases h
  · rw [hrefused] at h ⊢
    obtain rfl : found = error := Option.some.inj h
    refine ⟨hdeclines, ?_, ?_⟩
    · intro hevent
      cases event with
      | leave kind => exact absurd rfl (hevent kind)
      | enter kind => rfl
      | key raw => rfl
      | scalar token raw => rfl
    · rintro kind rfl
      obtain ⟨frames, room, result⟩ := a
      cases frames with
      | nil => exact .inl ⟨rfl, rfl⟩
      | cons frame outer => exact .inr ⟨frame, outer, rfl, rfl⟩

/-! ### Any order of events -/

/-- What an assembly may be asked for. -/
inductive Ask
  /-- To take in an event. -/
  | handle (event : Event)
  /-- To hand out the result. -/
  | take
  /-- To discard everything. -/
  | reset

/-- An assembly that has been asked for something, whether or not it did so. -/
def ask (a : Assembly) : Ask → Assembly
  | .handle event => (a.handle event).1
  | .take => a.take.2
  | .reset => a.reset

/-- **An assembly that has been asked for anything**, in any order, where `bound` containers may be
open. -/
def asked (bound : Nat) (asks : List Ask) : Assembly := asks.foldl ask { room := bound }

/-- An object within an object, neither with a key. -/
def keyless : Assembly := asked 3 [.handle (.enter .brace), .handle (.enter .brace)]

/-- A scalar in such an object is refused and leaves both, and its end is refused and leaves the
outer one. -/
theorem refused_event_damage_keyless :
    (keyless.handle (.scalar .null [])).2 = some (.unexpectedState .valueWithoutKey) ∧
      (keyless.handle (.scalar .null [])).1 = keyless ∧
      (keyless.handle (.leave .brace)).2 = some (.unexpectedState .valueWithoutKey) ∧
      (keyless.handle (.leave .brace)).1 = asked 3 [.handle (.enter .brace)] := by
  have hscalar : (keyless.handle (.scalar .null [])).2 =
      some (.unexpectedState .valueWithoutKey) := rfl
  have hleave : (keyless.handle (.leave .brace)).2 =
      some (.unexpectedState .valueWithoutKey) := rfl
  obtain ⟨-, hsame, -⟩ := refused_event_damage hscalar
  obtain ⟨-, -, hdiscarded⟩ := refused_event_damage hleave
  obtain ⟨hnone, -⟩ | ⟨innermost, outer, hframes, hafter⟩ := hdiscarded .brace rfl
  · cases hnone
  · cases hframes
    exact ⟨hscalar, hsame nofun, hleave, hafter⟩

/-! ### What holds at all times -/

/-- What holds of an open container by itself. -/
structure Frame.Sound (frame : Frame) : Prop where
  /-- A key is announced in an object only. -/
  kind_eq_brace : frame.pendingKey.isSome = true → frame.kind = .brace
  /-- An array counts its items. -/
  nextIndex_eq : ∀ items, frame.body = .array items → frame.nextIndex = items.size

namespace Frame

theorem sound_start (kind : Bracket) (key : Option String) : (start kind key).Sound := by
  cases kind with
  | brace => exact ⟨nofun, nofun⟩
  | square => exact ⟨nofun, by rintro items ⟨⟩; rfl⟩

variable {frame : Frame}

theorem Sound.takeKey (h : frame.Sound) : frame.takeKey.Sound := ⟨nofun, h.nextIndex_eq⟩

theorem Sound.announce (h : frame.Sound) (hkind : frame.kind = .brace) (text : String) :
    Sound { frame with pendingKey := some text } := ⟨fun _ => hkind, h.nextIndex_eq⟩

theorem Sound.install (h : frame.Sound) (key : Option String) (value : Value) :
    (frame.install key value).Sound where
  kind_eq_brace := by
    rw [pendingKey_install, kind_install]
    exact h.kind_eq_brace
  nextIndex_eq := by
    obtain ⟨body, pendingKey, nextIndex, installKey⟩ := frame
    intro found hfound
    cases body with
    | document entries => cases key <;> cases hfound
    | array items =>
        cases hfound
        have hcount : nextIndex = items.size := h.nextIndex_eq items rfl
        change nextIndex + 1 = (items.push value).size
        rw [hcount, Array.size_push]

end Frame

/-- **What holds of an assembly at all times**, `bound` being how many containers may be open. -/
structure Sound (bound : Nat) (a : Assembly) : Prop where
  /-- The open containers and the room for others make up the bound. -/
  depth_add_room : a.depth + a.room = bound
  /-- There is no result while a container is open. -/
  result_eq_none : a.frames ≠ [] → a.result = none
  sound : ∀ frame ∈ a.frames, frame.Sound
  /-- The root and what was opened in an array have no key to be installed under. -/
  installKey_eq_none : ∀ frame outer, frame :: outer <:+ a.frames →
    (∀ parent ∈ outer.head?, parent.kind = .square) → frame.installKey = none

section

variable {bound room : Nat} {frame : Frame} {frames outer : List Frame}
  {result : Option Container}

theorem sound_nil (room : Nat) (result : Option Container) : Sound room ⟨[], room, result⟩ where
  depth_add_room := Nat.zero_add room
  result_eq_none := absurd rfl
  sound := nofun
  installKey_eq_none := by
    intro frame outer hsuffix
    cases List.suffix_nil.1 hsuffix

/-- One container more. -/
theorem Sound.push (h : Sound bound ⟨frames, room + 1, none⟩) (hframe : frame.Sound)
    (hkey : (∀ parent ∈ frames.head?, parent.kind = .square) → frame.installKey = none) :
    Sound bound ⟨frame :: frames, room, none⟩ where
  depth_add_room := by
    have hdepth : frames.length + (room + 1) = bound := h.depth_add_room
    change frames.length + 1 + room = bound
    omega
  result_eq_none := fun _ => rfl
  sound := List.forall_mem_cons.2 ⟨hframe, h.sound⟩
  installKey_eq_none := by
    intro found outer hsuffix
    obtain hwhole | hsuffix := List.suffix_cons_iff.1 hsuffix
    · cases hwhole
      exact hkey
    · exact h.installKey_eq_none found outer hsuffix

/-- One container less. -/
theorem Sound.drop (h : Sound bound ⟨frame :: outer, room, result⟩) :
    Sound bound ⟨outer, room + 1, result⟩ where
  depth_add_room := by
    have hdepth : outer.length + 1 + room = bound := h.depth_add_room
    change outer.length + (room + 1) = bound
    omega
  result_eq_none := fun _ => h.result_eq_none (List.cons_ne_nil frame outer)
  sound := (List.forall_mem_cons.1 h.sound).2
  installKey_eq_none := fun found others hsuffix =>
    h.installKey_eq_none found others (List.suffix_cons_iff.2 (.inr hsuffix))

/-- Another state of the innermost container. -/
theorem Sound.replace (h : Sound bound ⟨frame :: outer, room, result⟩) {other : Frame}
    (hother : other.Sound) (hkey : other.installKey = frame.installKey) :
    Sound bound ⟨other :: outer, room, result⟩ := by
  have hresult : result = none := h.result_eq_none (List.cons_ne_nil frame outer)
  subst hresult
  refine h.drop.push hother ?_
  rw [hkey]
  exact h.installKey_eq_none frame outer List.suffix_rfl

theorem Sound.of_takes {a after : Assembly} {event : Event} (h : a.Sound bound)
    (htakes : Takes a event after) : after.Sound bound := by
  cases htakes with
  | openRoot kind room => exact h.push (Frame.sound_start kind none) fun _ => by simp
  | openInner kind parent outer room =>
      have hparent : parent.Sound := h.sound parent List.mem_cons_self
      refine (h.replace hparent.takeKey rfl).push (Frame.sound_start kind _) ?_
      intro hsquare
      have hkind : parent.kind = .square := hsquare parent.takeKey rfl
      rw [Frame.installKey_start, ← Option.not_isSome_iff_eq_none]
      intro hkey
      cases hkind.symm.trans (hparent.kind_eq_brace hkey)
  | key outer room result hkind htext =>
      have hframe := h.sound _ List.mem_cons_self
      exact h.replace (hframe.announce hkind _) rfl
  | scalar outer room result hcontent haccepts =>
      have hframe := h.sound _ List.mem_cons_self
      exact h.replace (hframe.install _ _).takeKey (by simp)
  | closeRoot frame room result =>
      obtain rfl : 0 + (room + 1) = bound := h.drop.depth_add_room
      rw [Nat.zero_add]
      exact sound_nil (room + 1) _
  | closeInner outer room result haccepts =>
      have hparent := h.drop.sound _ List.mem_cons_self
      exact h.drop.replace (hparent.install _ _) (by simp)

theorem Sound.afterRefusal {a : Assembly} (h : a.Sound bound) (event : Event) :
    (a.afterRefusal event).Sound bound := by
  obtain ⟨frames, room, result⟩ := a
  cases event with
  | leave kind =>
      cases frames with
      | nil => exact h
      | cons frame outer => exact h.drop
  | enter kind => exact h
  | key raw => exact h
  | scalar token raw => exact h

/-- **Whatever an assembly is asked for**, it remains sound. -/
theorem Sound.ask {a : Assembly} (h : a.Sound bound) (ask : Ask) : (a.ask ask).Sound bound := by
  cases ask with
  | handle event =>
      obtain ⟨after, hafter, htakes⟩ | ⟨error, hrefused, -⟩ := a.responds_handle event
      · rw [Assembly.ask, hafter]
        exact h.of_takes htakes
      · rw [Assembly.ask, hrefused]
        exact h.afterRefusal event
  | take => exact { h with result_eq_none := fun _ => rfl }
  | reset =>
      obtain rfl : a.depth + a.room = bound := h.depth_add_room
      rw [Nat.add_comm]
      exact sound_nil (a.room + a.depth) none

theorem sound_asked (bound : Nat) (asks : List Ask) : (asked bound asks).Sound bound := by
  unfold asked
  have hstart : Sound bound { room := bound } := sound_nil bound none
  generalize ({ room := bound } : Assembly) = a at hstart
  induction asks generalizing a with
  | nil => exact hstart
  | cons ask asks ih => exact ih (a.ask ask) (hstart.ask ask)

/-- A container can be opened if there is room and no result. -/
theorem enter_eq_none_iff (a : Assembly) (kind : Bracket) :
    (a.handle (.enter kind)).2 = none ↔ 0 < a.room ∧ a.result = none := by
  obtain ⟨after, hafter, htakes⟩ | ⟨error, hrefused, hdeclines⟩ := a.responds_handle (.enter kind)
  · rw [hafter]
    cases htakes with
    | openRoot kind room => simp
    | openInner kind parent outer room => simp
  · rw [hrefused]
    cases hdeclines with
    | full kind hroom => simp [hroom]
    | finished kind hroom hresult =>
        obtain ⟨root, hroot⟩ := Option.isSome_iff_exists.1 hresult
        simp [hroot]

end

/-- **What holds of an assembly at all times**, whatever it has been asked for.  No more containers
are open than may be; a result is there only while none is open, and so whenever the assembly is
complete; a key is announced in an object only; an array counts its items; the root and what was
opened in an array have no key to be installed under; and a container can be opened exactly if fewer
are open than may be and there is no result. -/
theorem asked_sound (bound : Nat) (asks : List Ask) :
    (asked bound asks).depth ≤ bound ∧
      ((asked bound asks).result.isSome = true → (asked bound asks).frames = []) ∧
      ((asked bound asks).isComplete = true ↔ (asked bound asks).result.isSome = true) ∧
      (∀ frame ∈ (asked bound asks).frames,
        frame.pendingKey.isSome = true → frame.kind = .brace) ∧
      (∀ frame ∈ (asked bound asks).frames, ∀ items, frame.body = .array items →
        frame.nextIndex = items.size) ∧
      (∀ root ∈ (asked bound asks).frames.getLast?, root.installKey = none) ∧
      (∀ inner frame parent outer, (asked bound asks).frames = inner ++ frame :: parent :: outer →
        parent.kind = .square → frame.installKey = none) ∧
      ∀ kind, ((asked bound asks).handle (.enter kind)).2 = none ↔
        (asked bound asks).depth < bound ∧ (asked bound asks).result = none := by
  have h := sound_asked bound asks
  generalize asked bound asks = a at h
  have hdepth := h.depth_add_room
  have hnone : a.result.isSome = true → a.frames = [] := by
    intro hresult
    refine Decidable.byContradiction ?_
    intro hframes
    rw [h.result_eq_none hframes] at hresult
    cases hresult
  refine ⟨by omega, hnone, ?_, fun frame hframe => (h.sound frame hframe).kind_eq_brace,
    fun frame hframe => (h.sound frame hframe).nextIndex_eq, ?_, ?_, ?_⟩
  · rw [isComplete, Bool.and_eq_true, List.isEmpty_iff]
    exact ⟨And.right, fun hresult => ⟨hnone hresult, hresult⟩⟩
  · intro root hroot
    obtain ⟨inner, hinner⟩ := List.getLast?_eq_some_iff.1 hroot
    exact h.installKey_eq_none root [] ⟨inner, hinner.symm⟩ nofun
  · intro inner frame parent outer hframes hkind
    refine h.installKey_eq_none frame (parent :: outer) ⟨inner, hframes.symm⟩ ?_
    rintro found ⟨⟩
    exact hkind
  · intro kind
    rw [enter_eq_none_iff]
    exact and_congr_left fun _ => by omega

end DocCodec.Assembly
