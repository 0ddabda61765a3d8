/-
**The script of a tree assembles what the tree denotes.**

An assembly that has room for a value hears the script of a tree either up to the tree's first
violation, whose error it reports, or to its end, and has then the tree's value installed in the
innermost container.  Between the values of a container, the frame of the container holds those
before, and there is no announced key.

Main definitions:

* `DocCodec.Assembly.heard` — an assembly that has heard a script, or the error it reports;
* `DocCodec.Assembly.Ready` — whether an assembly has a place for a value;
* `DocCodec.Assembly.put` — an assembly with a value installed.

Main results:

* `DocCodec.Assembly.heard_container` — the brackets of a container and what stands between them;
* `DocCodec.Assembly.heard_node` — **the script of a tree assembles what the tree denotes**.
-/

import DocCodec.Decoder
import DocCodec.Proofs.Denotation.Tree
import DocCodec.Proofs.Scanner.Tree
import DocCodec.Proofs.Utf8

set_option relaxedAutoImplicit false
set_option autoImplicit false

namespace DocCodec

open Grammar (Node Items Members Letters Part Violations enterViolations enterCue)
open Scanner (Cue)

/-! ### Judgements in sequence -/

theorem judge_nil {α : Type} (result : α) : judge [] result = .ok result := rfl

/-- A judgement on what comes first, and then one on what comes after it. -/
theorem judge_bind {α β : Type} (first : Violations) {second : Violations} {a : α} {b : β}
    (next : α → Except DecodeError β) (h : next a = judge second b) :
    (judge first a >>= next) = judge (first ++ second) b := by
  cases first with
  | nil => exact h
  | cons violation first => rfl

theorem mapError_bind {α β ε δ : Type} (first : Except ε α) (next : α → Except ε β) (f : ε → δ) :
    (first >>= next).mapError f = first.mapError f >>= fun a => (next a).mapError f := by
  cases first <;> rfl

namespace Assembly

/-! ### Scripts -/

/-- **An assembly that has heard a script**, or the error that it reports. -/
def heard (a : Assembly) (script : List Cue) : Except DecodeError Assembly :=
  (Scanner.perform Decoder.listen a script).mapError Decoder.errorOf

/-- An assembly that has heard an event, or the error that it reports. -/
def respond : Response → Except DecodeError Assembly
  | (a, none) => .ok a
  | (_, some error) => .error error

theorem heard_nil (a : Assembly) : a.heard [] = .ok a := rfl

theorem heard_append (a : Assembly) (first second : List Cue) :
    a.heard (first ++ second) = a.heard first >>= fun a => a.heard second := by
  rw [heard, Scanner.perform_append, mapError_bind]
  rfl

theorem heard_cons (a : Assembly) (first : Cue) (script : List Cue) :
    a.heard (first :: script) = a.heard [first] >>= fun a => a.heard script :=
  a.heard_append [first] script

theorem heard_event (a : Assembly) (event : Event) (offset : Nat) :
    a.heard [.event event offset] = respond (a.handle event) := by
  rw [heard, Scanner.perform_singleton, Scanner.cue, Scanner.hear, Decoder.listen]
  rcases a.handle event with ⟨a, _ | error⟩ <;> rfl

/-! ### Values that are installed -/

/-- An assembly with a value installed: as the root, or in its innermost container under the
announced key. -/
def put (a : Assembly) (value : Value) : Assembly :=
  match a.frames with
  | [] => { a with result := value.container? }
  | frame :: outer => { a with frames := (frame.install frame.pendingKey value).takeKey :: outer }

/-- Whether an assembly has a place for a value: its root is not closed, and in an object there is
an announced key. -/
structure Ready (a : Assembly) : Prop where
  result_eq_none : a.result = none
  accepts : ∀ frame ∈ a.frames.head?, frame.accepts frame.pendingKey = true

/-- A scalar is installed if it can be read. -/
theorem heard_scalar {a : Assembly} (ha : a.Ready) (hframes : a.frames ≠ []) {token : Token}
    {raw : Bytes} {violations : Violations} {content : Scalar}
    (hscalar : scalar token raw = judge violations content) (offset : Nat) :
    a.heard [.event (.scalar token raw) offset] = judge violations (a.put (.scalar content)) := by
  obtain ⟨frames, room, result⟩ := a
  cases frames with
  | nil => exact absurd rfl hframes
  | cons frame outer =>
      have haccepts := ha.accepts frame rfl
      rw [heard_event, handle, add]
      cases violations with
      | nil =>
          rw [judge_nil] at hscalar
          simp only [hscalar, haccepts, if_true]
          rfl
      | cons violation violations =>
          rw [show judge (violation :: violations) content = .error violation.1 from rfl] at hscalar
          simp only [hscalar]
          rfl

theorem scalar_word (word : Scanner.Word) :
    scalar word.token word.letters = judge [] (Grammar.wordDenoted word) := by
  cases word <;> rfl

theorem scalar_integer {raw : Bytes} (h : numberText raw = .ok raw) :
    scalar .integer raw =
      (Numeral.integer? raw).elim (.error .integerOverflow) fun number => .ok (.int64 number) := by
  simp only [scalar, h, bind, Except.bind]
  cases Numeral.integer? raw <;> rfl

theorem scalar_float {raw : Bytes} (h : numberText raw = .ok raw) :
    scalar .float raw =
      (Numeral.double? raw).elim (.error .invalidNumber) fun number => .ok (.double number) := by
  simp only [scalar, h, bind, Except.bind]
  cases Numeral.double? raw <;> rfl

theorem scalar_number (n : Grammar.Number) (offset : Nat) :
    scalar n.token n.bytes = judge ((Part.number n).violations offset) n.denoted := by
  obtain ⟨text, htext⟩ := Utf8.exists_decode_of_ascii fun b hb => n.lt_of_mem_bytes hb
  have hnumber : numberText n.bytes = .ok n.bytes := by
    rw [numberText, htext]
  have hcases : n.token = .integer ∨ n.token = .float := by
    unfold Grammar.Number.token
    split
    · exact .inr rfl
    · exact .inl rfl
  unfold Part.violations
  rcases hcases with htoken | htoken
  · have hdenoted : n.denoted = .int64 (Int64.ofInt n.integer) := if_pos htoken
    rw [htoken, scalar_integer hnumber, n.integer?_bytes htoken, hdenoted]
    by_cases hfits : Grammar.Fits n.integer
    · have hviolation : (Part.number n).violation? = none :=
        (Part.violation?_eq_none_iff _).2 fun _ => hfits
      rw [if_pos hfits, hviolation]
      rfl
    · have hviolation : (Part.number n).violation? = some .integerOverflow :=
        if_pos ⟨htoken, hfits⟩
      rw [if_neg hfits, hviolation]
      rfl
  · have hne : n.token ≠ .integer := by
      rw [htoken]
      nofun
    have hviolation : (Part.number n).violation? = none :=
      (Part.violation?_eq_none_iff _).2 fun h => absurd h hne
    rw [htoken, scalar_float hnumber, n.double?_bytes, hviolation, Grammar.Number.denoted,
      if_neg hne]
    rfl

theorem scalar_string (letters : Letters) (offset : Nat) :
    scalar .string letters.raw =
      judge ((Part.string letters).violations offset) (.string letters.content) := by
  simp only [scalar, Part.violations, Part.violation?]
  cases hpaired : letters.paired with
  | true =>
      rw [Letters.decode?_raw hpaired]
      rfl
  | false =>
      rw [Letters.decode?_raw_eq_none hpaired]
      rfl

theorem key_raw (letters : Letters) (offset : Nat) :
    key letters.raw = judge ((Part.key letters).violations offset) letters.text := by
  simp only [key, Part.violations, Part.violation?, Letters.text]
  cases hpaired : letters.paired with
  | true =>
      rw [Letters.decode?_raw hpaired]
      simp only [if_true]
      cases Utf8.decode letters.content <;> rfl
  | false =>
      rw [Letters.decode?_raw_eq_none hpaired]
      rfl

/-! ### Brackets -/

/-- The key that is announced for the next value. -/
def announced (a : Assembly) : Option String := a.frames.head?.bind Frame.pendingKey

/-- The frames around a container that opens: it takes the announced key along. -/
def around (a : Assembly) : List Frame :=
  match a.frames with
  | [] => []
  | parent :: outer => parent.takeKey :: outer

/-- Whether an assembly is as an opened container leaves it, but for the frame of the container. -/
def within (a : Assembly) (frame : Frame) : Assembly :=
  ⟨frame :: a.around, a.room - 1, none⟩

theorem install_takeKey (frame : Frame) (key : Option String) (value : Value) :
    frame.takeKey.install key value = (frame.install key value).takeKey := by
  obtain ⟨body, pendingKey, nextIndex, installKey⟩ := frame
  cases body <;> cases key <;> rfl

/-- A container opens if there is room for it. -/
theorem heard_enter {a : Assembly} (ha : a.Ready) (kind : Bracket) (start : Nat) :
    a.heard [enterCue a.room kind start] =
      judge (enterViolations a.room start) (a.within (Frame.start kind a.announced)) := by
  obtain ⟨frames, room, result⟩ := a
  have hresult : result = none := ha.result_eq_none
  subst hresult
  cases room with
  | zero => rfl
  | succ room =>
      rw [enterCue, heard_event]
      cases frames <;> rfl

/-- A container that closes is installed. -/
theorem heard_leave {a : Assembly} (ha : a.Ready) (hroom : 0 < a.room) {frame : Frame}
    (hkey : frame.installKey = a.announced) (offset : Nat) :
    (a.within frame).heard [.event (.leave frame.kind) offset] =
      .ok (a.put frame.container.toValue) := by
  obtain ⟨frames, room, result⟩ := a
  obtain ⟨room, rfl⟩ : ∃ r, room = r + 1 := ⟨room - 1, (Nat.sub_add_cancel hroom).symm⟩
  have hresult : result = none := ha.result_eq_none
  subst hresult
  rw [heard_event, handle, leave]
  cases frames with
  | nil =>
      simp only [within, around, ne_eq, not_true, if_false, put, Container.container?_toValue]
      rfl
  | cons parent outer =>
      -- The parent gave its key away when the container was opened, and has it back now.
      have haccepts : parent.takeKey.accepts frame.installKey = true := by
        rw [hkey]
        exact ha.accepts parent rfl
      simp only [within, around, ne_eq, not_true, if_false, haccepts, if_true, install_takeKey, put]
      rw [hkey]
      rfl

/-- **The brackets of a container and what stands between them**, which fills the container's
frame. -/
theorem heard_container {a : Assembly} (ha : a.Ready) {kind : Bracket} {inner : List Cue}
    {violations : Violations} {frame : Frame} (hkind : frame.kind = kind)
    (hkey : frame.installKey = a.announced)
    (hinner : (a.within (Frame.start kind a.announced)).heard inner =
      judge violations (a.within frame)) (start stop : Nat) :
    a.heard (enterCue a.room kind start :: (inner ++ [.event (.leave kind) stop])) =
      judge (enterViolations a.room start ++ violations) (a.put frame.container.toValue) := by
  subst hkind
  rw [heard_cons, heard_enter ha]
  rcases Nat.eq_zero_or_pos a.room with hroom | hroom
  · simp only [enterViolations, hroom, if_true]
    rfl
  · have hopen : enterViolations a.room start = [] :=
      (Grammar.enterViolations_eq_nil_iff a.room start).2 hroom
    have hleave : (a.within frame).heard [.event (.leave frame.kind) stop] =
        judge [] (a.put frame.container.toValue) := heard_leave ha hroom hkey stop
    rw [hopen]
    refine judge_bind _ _ ?_
    rw [heard_append, hinner]
    have hend := judge_bind violations
      (fun a : Assembly => a.heard [.event (.leave frame.kind) stop]) hleave
    rw [List.append_nil] at hend
    exact hend

/-! ### Trees -/

/-- The frame of an array that holds some items. -/
def arrayFrame (items : Array Value) (index : Nat) (key : Option String) : Frame :=
  ⟨.array items, none, index, key⟩

/-- The frame of an object that holds some entries, with no key announced. -/
def objectFrame (entries : Array (String × Value)) (key : Option String) : Frame :=
  ⟨.document entries, none, 0, key⟩

/-- The frame of an object under an announced key. -/
def keyedFrame (entries : Array (String × Value)) (name : String) (key : Option String) : Frame :=
  { objectFrame entries key with pendingKey := some name }

theorem ready_array (items : Array Value) (index : Nat) (key : Option String)
    (outer : List Frame) (room : Nat) : Ready ⟨arrayFrame items index key :: outer, room, none⟩ :=
  ⟨rfl, by rintro frame ⟨⟩; rfl⟩

theorem ready_object (entries : Array (String × Value)) (name : String) (key : Option String)
    (outer : List Frame) (room : Nat) :
    Ready ⟨keyedFrame entries name key :: outer, room, none⟩ :=
  ⟨rfl, by rintro frame ⟨⟩; rfl⟩

theorem push_append {α : Type} (xs : Array α) (x : α) (more : List α) :
    xs.push x ++ more = xs ++ (x :: more) := Array.ext' (by simp)

theorem heard_key (letters : Letters) (entries : Array (String × Value)) (key : Option String)
    (outer : List Frame) (room offset : Nat) :
    (⟨objectFrame entries key :: outer, room, none⟩ : Assembly).heard
        [.event (.key letters.raw) offset] =
      judge ((Part.key letters).violations offset)
        ⟨keyedFrame entries letters.text key :: outer, room, none⟩ := by
  have hkey := key_raw letters offset
  rw [heard_event, handle, announce]
  cases hviolations : (Part.key letters).violations offset with
  | nil =>
      rw [hviolations, judge_nil] at hkey
      simp only [objectFrame, Frame.kind, hkey]
      rfl
  | cons violation violations =>
      rw [hviolations] at hkey
      change Assembly.key letters.raw = .error violation.1 at hkey
      simp only [objectFrame, Frame.kind, hkey]
      rfl

mutual

/-- **The script of a tree assembles what the tree denotes.** -/
theorem heard_node (n : Node) {a : Assembly} (ha : a.Ready)
    (hroot : a.frames ≠ [] ∨ n.denoted.container?.isSome) (start : Nat) :
    a.heard (n.script a.room start) = judge (n.violations a.room start) (a.put n.denoted) := by
  cases n with
  -- A scalar is not accepted as the root, so there is a frame.
  | word word =>
      have hframes := hroot.resolve_right (by cases word <;> nofun)
      exact heard_scalar ha hframes (scalar_word word) _
  | number number =>
      have hframes := hroot.resolve_right nofun
      exact heard_scalar ha hframes (scalar_number number _) _
  | string letters =>
      have hframes := hroot.resolve_right nofun
      exact heard_scalar ha hframes (scalar_string letters _) _
  | empty kind gap =>
      have hkind : (Frame.start kind a.announced).kind = kind := by cases kind <;> rfl
      have hkey : (Frame.start kind a.announced).installKey = a.announced := by
        cases kind <;> rfl
      have hinner : (a.within (Frame.start kind a.announced)).heard [] = judge [] _ := heard_nil _
      have h := heard_container ha hkind hkey hinner start (start + 1 + gap.bytes.length)
      rw [List.append_nil] at h
      cases kind <;> exact h
  | array items =>
      have hinner := heard_items items #[] 0 a.announced a.around (a.room - 1) (start + 1)
      have hframe : (arrayFrame ((#[] : Array Value) ++ items.denoted) (0 + items.denoted.length)
          a.announced).kind = .square := rfl
      have h := heard_container ha hframe rfl hinner start (start + 1 + items.bytes.length)
      simp only [Frame.container, arrayFrame, Container.toValue, Array.toList_appendList,
        List.nil_append] at h
      exact h
  | object members =>
      have hinner := heard_members members #[] a.announced a.around (a.room - 1) (start + 1)
      have hframe : (objectFrame ((#[] : Array (String × Value)) ++ members.denoted)
          a.announced).kind = .brace := rfl
      have h := heard_container ha hframe rfl hinner start (start + 1 + members.bytes.length)
      simp only [Frame.container, objectFrame, Container.toValue, Array.toList_appendList,
        List.nil_append] at h
      exact h

theorem heard_items (items : Items) (xs : Array Value) (index : Nat) (key : Option String)
    (outer : List Frame) (room start : Nat) :
    (⟨arrayFrame xs index key :: outer, room, none⟩ : Assembly).heard (items.script room start) =
      judge (items.violations room start)
        ⟨arrayFrame (xs ++ items.denoted) (index + items.denoted.length) key :: outer, room,
          none⟩ := by
  have hready := ready_array xs index key outer room
  cases items with
  | last before value after =>
      have hvalue := heard_node value hready (.inl nofun) (start + before.bytes.length)
      have happend : xs ++ [value.denoted] = xs.push value.denoted := by simp
      simp only [Items.denoted, happend]
      exact hvalue
  | more before value after rest =>
      have hvalue := heard_node value hready (.inl nofun) (start + before.bytes.length)
      have hrest := heard_items rest (xs.push value.denoted) (index + 1) key outer room
        (start + before.bytes.length + value.bytes.length + after.bytes.length + 1)
      have hcount : index + 1 + rest.denoted.length = index + (rest.denoted.length + 1) := by omega
      rw [push_append, hcount] at hrest
      rw [Items.script, heard_append]
      exact (congrArg (· >>= _) hvalue).trans (judge_bind _ _ hrest)

theorem heard_members (members : Members) (entries : Array (String × Value))
    (key : Option String) (outer : List Frame) (room start : Nat) :
    (⟨objectFrame entries key :: outer, room, none⟩ : Assembly).heard
        (members.script room start) =
      judge (members.violations room start)
        ⟨objectFrame (entries ++ members.denoted) key :: outer, room, none⟩ := by
  cases members with
  | last before name gap lead value after =>
      have hready := ready_object entries name.text key outer room
      have hname := heard_key name entries key outer room
        (start + before.bytes.length + name.raw.length)
      have hvalue := heard_node value hready (.inl nofun)
        (start + (Grammar.keyBytes before name gap lead).length)
      have happend : entries ++ [(name.text, value.denoted)] =
          entries.push (name.text, value.denoted) := by simp
      rw [Members.script, heard_cons, hname]
      simp only [Members.denoted, happend]
      exact judge_bind _ _ hvalue
  | more before name gap lead value after rest =>
      have hready := ready_object entries name.text key outer room
      have hname := heard_key name entries key outer room
        (start + before.bytes.length + name.raw.length)
      have hvalue := heard_node value hready (.inl nofun)
        (start + (Grammar.keyBytes before name gap lead).length)
      have hrest := heard_members rest (entries.push (name.text, value.denoted)) key outer room
        (start + (Grammar.keyBytes before name gap lead).length + value.bytes.length +
          after.bytes.length + 1)
      rw [push_append] at hrest
      rw [Members.script, heard_cons, hname]
      refine judge_bind _ _ ?_
      rw [heard_append]
      exact (congrArg (· >>= _) hvalue).trans (judge_bind _ _ hrest)

end

end Assembly

end DocCodec
