/-
**Texts that nest too deeply.**

The decoder stops at the first container that it has no room for, and what comes after it makes no
difference: it need not even be JSON.  So a text is refused if a first part of it leads the
decoder to a place where there is no room left for the container that begins there.

A text is read here part by part.  What a part leads to is described as little as possible: where
a value is expected or an entry of a container may begin, and how much room there is.

Main definitions:

* `DocCodec.Decoder.Awaits`, `DocCodec.Decoder.Inside` — where a value is expected, and where an
  entry of a container may begin;
* `DocCodec.Overflows`, `DocCodec.OverflowsInside` — **texts that are refused there**, whatever
  follows them.

Main results:

* `DocCodec.Grammar.Node.judge_of_sound` — a tree with sound parts is only judged by its depth;
* `DocCodec.overflows_of_renders` — a rendering that is deeper than there is room is refused;
* `DocCodec.overflows_container` — so is a container in which something nests too deeply;
* `DocCodec.overflowsInside_items`, `DocCodec.overflowsInside_members` — what fits before it makes
  no difference.
-/

import DocCodec.Proofs.Decoder.Assembling
import DocCodec.Proofs.RoundTrip.Rendered

set_option relaxedAutoImplicit false
set_option autoImplicit false

namespace DocCodec

open Grammar (Node Letters Part Spaces)

/-! ### Trees without a wrong part -/

namespace Grammar

theorem eq_of_mem_enterViolations {room start : Nat} {violation : DecodeError × Nat}
    (h : violation ∈ enterViolations room start) : violation.1 = .nestingTooDeep := by
  unfold enterViolations at h
  split at h
  · rw [List.mem_singleton.1 h]
  · cases h

theorem not_mem_violations_of_sound {part : Part} (h : part.Sound) {offset : Nat}
    {violation : DecodeError × Nat} : violation ∉ part.violations offset := by
  rw [(part.violations_eq_nil_iff offset).2 h]
  exact List.not_mem_nil

mutual

/-- A tree with sound parts can only nest too deeply. -/
theorem Node.eq_of_mem_violations (n : Node) (hsound : ∀ part ∈ n.parts, part.Sound)
    {room start : Nat} {violation : DecodeError × Nat} (h : violation ∈ n.violations room start) :
    violation.1 = .nestingTooDeep := by
  cases n with
  | word word => cases h
  | number number => exact absurd h (not_mem_violations_of_sound (hsound _ List.mem_cons_self))
  | string letters => exact absurd h (not_mem_violations_of_sound (hsound _ List.mem_cons_self))
  | empty kind gap => exact eq_of_mem_enterViolations h
  | array items =>
      rcases List.mem_append.1 h with h | h
      · exact eq_of_mem_enterViolations h
      · exact items.eq_of_mem_violations hsound h
  | object members =>
      rcases List.mem_append.1 h with h | h
      · exact eq_of_mem_enterViolations h
      · exact members.eq_of_mem_violations hsound h

theorem Items.eq_of_mem_violations (items : Items) (hsound : ∀ part ∈ items.parts, part.Sound)
    {room start : Nat} {violation : DecodeError × Nat}
    (h : violation ∈ items.violations room start) : violation.1 = .nestingTooDeep := by
  cases items with
  | last before value after => exact value.eq_of_mem_violations hsound h
  | more before value after rest =>
      obtain ⟨hvalue, hrest⟩ := List.forall_mem_append.1 hsound
      rcases List.mem_append.1 h with h | h
      · exact value.eq_of_mem_violations hvalue h
      · exact rest.eq_of_mem_violations hrest h

theorem Members.eq_of_mem_violations (members : Members)
    (hsound : ∀ part ∈ members.parts, part.Sound) {room start : Nat}
    {violation : DecodeError × Nat} (h : violation ∈ members.violations room start) :
    violation.1 = .nestingTooDeep := by
  cases members with
  | last before key gap lead value after =>
      obtain ⟨hkey, hvalue⟩ := List.forall_mem_cons.1 hsound
      rcases List.mem_append.1 h with h | h
      · exact absurd h (not_mem_violations_of_sound hkey)
      · exact value.eq_of_mem_violations hvalue h
  | more before key gap lead value after rest =>
      obtain ⟨hkey, hmore⟩ := List.forall_mem_cons.1 hsound
      obtain ⟨hvalue, hrest⟩ := List.forall_mem_append.1 hmore
      rcases List.mem_append.1 h with h | h
      · exact absurd h (not_mem_violations_of_sound hkey)
      · rcases List.mem_append.1 h with h | h
        · exact value.eq_of_mem_violations hvalue h
        · exact rest.eq_of_mem_violations hrest h

end

/-- **A tree with sound parts** is only judged by its depth. -/
theorem Node.judge_of_sound {α : Type} (n : Node) (hsound : ∀ part ∈ n.parts, part.Sound)
    (room start : Nat) (result : α) :
    judge (n.violations room start) result =
      if n.depth ≤ room then .ok result else .error .nestingTooDeep := by
  split
  · next hdepth =>
      rw [(n.violations_eq_nil_iff room start).2 ⟨hdepth, hsound⟩]
      rfl
  · next hdepth =>
      cases hviolations : n.violations room start with
      | nil => exact absurd ((n.violations_eq_nil_iff room start).1 hviolations).1 hdepth
      | cons violation violations =>
          have hmem : violation ∈ n.violations room start := by
            rw [hviolations]
            exact List.mem_cons_self
          rw [← n.eq_of_mem_violations hsound hmem]
          rfl

end Grammar

/-! ### Where the decoder is -/

namespace Decoder

/-- Whether a text is refused because it nests too deeply. -/
def TooDeep (s : Scanner) (a : Assembly) (text : Bytes) : Prop :=
  (Scanner.verdict listen s a text).mapError errorOf = .error .nestingTooDeep

/-- Where a value is expected, with room for some containers. -/
structure Awaits (room : Nat) (s : Scanner) (a : Assembly) : Prop where
  expectsValue : s.ExpectsValue
  ready : a.Ready
  room_scanner : s.room = room
  room_assembly : a.room = room

/-- Whether the innermost container is of the given kind. -/
structure Within (kind : Bracket) (s : Scanner) (a : Assembly) : Prop where
  mem_stack : kind ∈ s.stack.head?
  exists_frame : ∃ frame outer, a.frames = frame :: outer ∧ frame.kind = kind

/-- Where an entry of a container may begin, with room for some containers. -/
structure Inside (kind : Bracket) (room : Nat) (s : Scanner) (a : Assembly) : Prop where
  phase_eq : s.phase = .inside kind
  room_scanner : s.room = room
  room_assembly : a.room = room
  result_eq_none : a.result = none
  mem_stack : kind ∈ s.stack.head?
  exists_frame : ∃ frame outer, a.frames = frame :: outer ∧ frame.kind = kind ∧
    frame.pendingKey = none

/-! ### Values that fit, and values that do not -/

theorem perform_of_heard {a a' : Assembly} {script : List Scanner.Cue}
    (h : a.heard script = .ok a') : Scanner.perform listen a script = .ok a' := by
  unfold Assembly.heard at h
  cases hperform : Scanner.perform listen a script with
  | error stop => rw [hperform] at h; cases h
  | ok after => rw [hperform] at h; cases h; rfl

/-- A container for which there is no room. -/
theorem tooDeep_opening {s : Scanner} {a : Assembly} (h : Awaits 0 s a) (kind : Bracket)
    (rest : Bytes) : TooDeep s a (kind.opening :: rest) := by
  rw [TooDeep, Scanner.verdict_opening listen h.expectsValue, h.room_scanner]
  rfl

/-- A tree for which there is not enough room. -/
theorem tooDeep_node {room : Nat} {s : Scanner} {a : Assembly} (h : Awaits room s a) (n : Node)
    (hsound : ∀ part ∈ n.parts, part.Sound) (hdepth : room < n.depth) (rest : Bytes) :
    TooDeep s a (n.bytes ++ rest) := by
  -- As the tree has a depth, it is a container.
  have hends : n.Ends s.stack rest := by
    cases n with
    | number number => exact absurd hdepth (Nat.not_lt_zero room)
    | _ => trivial
  have hroot : n.denoted.container?.isSome = true := by
    cases n with
    | word word => exact absurd hdepth (Nat.not_lt_zero room)
    | number number => exact absurd hdepth (Nat.not_lt_zero room)
    | string letters => exact absurd hdepth (Nat.not_lt_zero room)
    | empty kind gap => cases kind <;> rfl
    | array items => rfl
    | object members => rfl
  obtain ⟨left, hverdict⟩ := Scanner.verdict_node listen n h.expectsValue hends
  have hheard := Assembly.heard_node n h.ready (.inr hroot) s.consumed
  rw [n.judge_of_sound hsound, h.room_assembly, if_neg (Nat.not_le_of_lt hdepth)] at hheard
  rw [TooDeep, hverdict, mapError_bind, h.room_scanner]
  exact congrArg (· >>= _) hheard

/-- A container for which there is room is entered. -/
theorem tooDeep_of_inside {room : Nat} {s : Scanner} {a : Assembly} (h : Awaits (room + 1) s a)
    (kind : Bracket) {rest : Bytes}
    (hrest : ∀ s a, Inside kind room s a → TooDeep s a rest) :
    TooDeep s a (kind.opening :: rest) := by
  have hheard := Assembly.heard_enter h.ready kind s.consumed
  rw [h.room_assembly] at hheard
  have hcue := perform_of_heard hheard
  rw [Scanner.perform_singleton] at hcue
  rw [TooDeep, Scanner.verdict_opening listen h.expectsValue, h.room_scanner, hcue]
  refine hrest _ _ ⟨rfl, congrArg (· - 1) h.room_scanner, congrArg (· - 1) h.room_assembly, rfl,
    rfl, _, _, rfl, ?_⟩
  cases kind <;> exact ⟨rfl, rfl⟩

/-- A tree for which there is enough room is installed, and after a comma there may be another
entry. -/
theorem tooDeep_of_comma {kind : Bracket} {room : Nat} {s : Scanner} {a : Assembly}
    (h : Awaits room s a) (hwithin : Within kind s a) (n : Node)
    (hsound : ∀ part ∈ n.parts, part.Sound) (hdepth : n.depth ≤ room) {rest : Bytes}
    (hrest : ∀ s a, Inside kind room s a → TooDeep s a rest) :
    TooDeep s a (n.bytes ++ Ascii.comma :: rest) := by
  obtain ⟨frame, outer, hframes, hkind⟩ := hwithin.exists_frame
  -- The frame stays in its place and keeps its kind.
  have hput : a.put n.denoted = { a with
      frames := (frame.install frame.pendingKey n.denoted).takeKey :: outer } := by
    rw [Assembly.put, hframes]
  have hinside : a.frames ≠ [] := by
    rw [hframes]
    exact List.cons_ne_nil frame outer
  have hheard := Assembly.heard_node n h.ready (.inl hinside) s.consumed
  rw [n.judge_of_sound hsound, h.room_assembly, if_pos hdepth, hput] at hheard
  have hends := n.ends_of_endsNumber (Scanner.endsNumber_comma hwithin.mem_stack rest)
  obtain ⟨left, hverdict⟩ := Scanner.verdict_node listen n h.expectsValue hends
  rw [TooDeep, hverdict, h.room_scanner, perform_of_heard hheard]
  change Except.mapError errorOf (Scanner.verdict listen _ _ _) = _
  rw [Scanner.verdict_comma listen hwithin.mem_stack]
  refine hrest _ _ ⟨rfl, h.room_scanner, h.room_assembly, h.ready.result_eq_none,
    hwithin.mem_stack, _, _, rfl, ?_, rfl⟩
  rw [← hkind]
  obtain ⟨body, pendingKey, nextIndex, installKey⟩ := frame
  cases body <;> cases pendingKey <;> rfl

/-- Before an item there is a space. -/
theorem tooDeep_of_space {room : Nat} {s : Scanner} {a : Assembly} (h : Inside .square room s a)
    {rest : Bytes} (hrest : ∀ s a, Awaits room s a → Within .square s a → TooDeep s a rest) :
    TooDeep s a (Ascii.space :: rest) := by
  obtain ⟨frame, outer, hframes, hkind, -⟩ := h.exists_frame
  have hskips : s.phase.skips = true := by
    rw [h.phase_eq]
    rfl
  have hready : a.Ready := by
    refine ⟨h.result_eq_none, ?_⟩
    intro found hfound
    rw [hframes] at hfound
    cases hfound
    rw [Assembly.Frame.accepts, hkind]
    rfl
  have hspace := Scanner.verdict_spaces listen hskips .one a rest
  rw [Spaces.bytes_one, List.singleton_append] at hspace
  rw [TooDeep, hspace]
  exact hrest _ _ ⟨.inl h.phase_eq, hready, h.room_scanner, h.room_assembly⟩
    ⟨h.mem_stack, frame, outer, hframes, hkind⟩

/-- Before the value of an entry there is a key. -/
theorem tooDeep_of_key {room : Nat} {s : Scanner} {a : Assembly} (h : Inside .brace room s a)
    {key : Letters} (hkey : (Part.key key).Sound) (gap lead : Spaces) {rest : Bytes}
    (hrest : ∀ s a, Awaits room s a → Within .brace s a → TooDeep s a rest) :
    TooDeep s a (Grammar.keyBytes .one key gap lead ++ rest) := by
  obtain ⟨frame, outer, hframes, hkind, -⟩ := h.exists_frame
  have hread : Assembly.key key.raw = .ok key.text := by
    rw [Assembly.key_raw key 0, (Part.violations_eq_nil_iff _ 0).2 hkey]
    rfl
  have hhear (offset : Nat) : Scanner.hear listen a (.key key.raw) offset =
      .ok { a with frames := { frame with pendingKey := some key.text } :: outer } := by
    rw [Scanner.hear, listen, Assembly.handle, Assembly.announce, hframes]
    simp only [hkind, hread]
  rw [TooDeep, Scanner.verdict_key listen h.phase_eq, hhear]
  refine hrest _ _ ⟨.inr ⟨.inr rfl, rfl⟩, ⟨h.result_eq_none, ?_⟩, h.room_scanner, h.room_assembly⟩
    ⟨h.mem_stack, _, outer, rfl, hkind⟩
  rintro found ⟨⟩
  rw [Assembly.Frame.accepts]
  exact Bool.or_true _

end Decoder

/-! ### Texts that overflow -/

/-- **A text of a value that nests too deeply** for the given room, whatever follows it. -/
def Overflows (room : Nat) (text : Bytes) : Prop :=
  ∀ s a rest, Decoder.Awaits room s a → Decoder.TooDeep s a (text ++ rest)

/-- **A text of entries that nest too deeply** for the given room, whatever follows them. -/
def OverflowsInside (kind : Bracket) (room : Nat) (text : Bytes) : Prop :=
  ∀ s a rest, Decoder.Inside kind room s a → Decoder.TooDeep s a (text ++ rest)

/-- A rendering that is deeper than there is room. -/
theorem overflows_of_renders {text : Bytes} {value : Value} {depth room : Nat}
    (h : Renders text value depth) (hdepth : room < depth) : Overflows room text := by
  obtain ⟨n, rfl, rfl, rfl, hsound⟩ := h
  intro s a rest hawaits
  exact Decoder.tooDeep_node hawaits n hsound hdepth rest

/-- Without room no container opens. -/
theorem overflows_opening (kind : Bracket) (body : Bytes) : Overflows 0 (kind.opening :: body) := by
  intro s a rest hawaits
  exact Decoder.tooDeep_opening hawaits kind (body ++ rest)

/-- A container in which something nests too deeply. -/
theorem overflows_container {kind : Bracket} {room : Nat} {body : Bytes}
    (h : OverflowsInside kind room body) (more : Bytes) :
    Overflows (room + 1) (kind.opening :: (body ++ more)) := by
  intro s a rest hawaits
  rw [List.cons_append, List.append_assoc]
  exact Decoder.tooDeep_of_inside hawaits kind fun s a hinside => h s a _ hinside

/-- An item that nests too deeply. -/
theorem overflowsInside_item {room : Nat} {text : Bytes} (h : Overflows room text) (more : Bytes) :
    OverflowsInside .square room (Ascii.space :: (text ++ more)) := by
  intro s a rest hinside
  rw [List.cons_append, List.append_assoc]
  exact Decoder.tooDeep_of_space hinside fun s a hawaits _ => h s a _ hawaits

/-- Items that nest too deeply after one that does not. -/
theorem overflowsInside_items {room : Nat} {text more : Bytes} {value : Value} {depth : Nat}
    (htext : Renders text value depth) (hdepth : depth ≤ room)
    (h : OverflowsInside .square room more) :
    OverflowsInside .square room (Ascii.space :: (text ++ Ascii.comma :: more)) := by
  obtain ⟨n, rfl, rfl, rfl, hsound⟩ := htext
  intro s a rest hinside
  rw [List.cons_append, List.append_assoc]
  refine Decoder.tooDeep_of_space hinside ?_
  intro s a hawaits hwithin
  exact Decoder.tooDeep_of_comma hawaits hwithin n hsound hdepth fun s a hinside => h s a _ hinside

/-- An entry whose value nests too deeply. -/
theorem overflowsInside_member {room : Nat} {text : Bytes} (h : Overflows room text) (key : String)
    (more : Bytes) :
    OverflowsInside .brace room (Ascii.space :: (Encoder.member key text ++ more)) := by
  intro s a rest hinside
  obtain ⟨letters, hquoted, -, hkey⟩ := exists_key key
  have htext : Ascii.space :: (Encoder.member key text ++ more) ++ rest =
      Grammar.keyBytes .one letters .one .one ++ (text ++ (more ++ rest)) := by
    simp [Encoder.member, Encoder.keyMark, Grammar.keyBytes, hquoted]
  rw [htext]
  exact Decoder.tooDeep_of_key hinside hkey .one .one fun s a hawaits _ => h s a _ hawaits

/-- Entries that nest too deeply after one that does not. -/
theorem overflowsInside_members {room : Nat} {text more : Bytes} {entry : String × Value}
    {depth : Nat} (htext : RendersEntry text entry depth) (hdepth : depth ≤ room)
    (h : OverflowsInside .brace room more) :
    OverflowsInside .brace room (Ascii.space :: (text ++ Ascii.comma :: more)) := by
  obtain ⟨key, gap, lead, n, rfl, rfl, rfl, hkey, hsound⟩ := htext
  intro s a rest hinside
  have htext : Ascii.space :: (Grammar.keyBytes .none key gap lead ++ n.bytes ++
        Ascii.comma :: more) ++ rest =
      Grammar.keyBytes .one key gap lead ++ (n.bytes ++ Ascii.comma :: (more ++ rest)) := by
    simp [Grammar.keyBytes]
  rw [htext]
  refine Decoder.tooDeep_of_key hinside hkey gap lead ?_
  intro s a hawaits hwithin
  exact Decoder.tooDeep_of_comma hawaits hwithin n hsound hdepth fun s a hinside => h s a _ hinside

end DocCodec
