/-
**The trace of a value installs the value.**

The trace of a value has its events in preorder: the beginning of a container, the traces of its
items, or its keys each with the trace of what is under it, and the end of the container.  A scalar
and a key may have any raw text that is read as what they are.

Whatever an assembly has been asked for before, if it is ready for a value and has room for the
containers of the value, it takes in every event of the trace, and all that has changed in the end
is that the value is there: as the next item of the innermost array, in the innermost object under
the key that was announced, or as the result.  A container is installed at its end, under the key
that it took along from its parent at its beginning.

Main definitions:

* `DocCodec.Assembly.Reads`, `DocCodec.Assembly.Names` — the valid raw texts of scalars and keys;
* `DocCodec.Assembly.Traces` — **the traces of a value**;
* `DocCodec.Assembly.handleAll` — an assembly that takes in events, until one is refused;
* `DocCodec.Assembly.ReadyFor` — whether an assembly is ready for a value;
* `DocCodec.Assembly.Installs` — **what the installation of a value changes**.

Main results:

* `DocCodec.Assembly.heard_traces` — the trace of a value puts the value in its place;
* `DocCodec.Assembly.traces_of_decode` — the trace of a text is one of what the text is decoded as;
* `DocCodec.Assembly.trace_installs_value` — **the trace of a value installs the value**.
-/

import DocCodec.Proofs.Assembly.Handling
import DocCodec.Proofs.RoundTrip.Container

set_option relaxedAutoImplicit false
set_option autoImplicit false

namespace DocCodec

open Grammar (Node Items Members Part)
open Scanner (Cue)

namespace Assembly

/-! ### Raw texts -/

/-- **Whether a raw text is a valid one of a scalar.** -/
inductive Reads : Token → Bytes → Scalar → Prop
  | boolean (truth : Bool) (raw : Bytes) : Reads (.boolean truth) raw (.boolean truth)
  | null (raw : Bytes) : Reads .null raw .null
  | integer {raw : Bytes} {text : String} {number : Int64} (htext : Utf8.decode raw = .ok text)
      (hnumber : Numeral.integer? raw = some number) : Reads .integer raw (.int64 number)
  | float {raw : Bytes} {text : String} {number : Binary64} (htext : Utf8.decode raw = .ok text)
      (hnumber : Numeral.double? raw = some number) : Reads .float raw (.double number)
  | string {raw content : Bytes} (hcontent : Literal.decode? raw = some content) :
      Reads .string raw (.string content)

/-- **Whether a raw text is a valid one of a key.** -/
def Names (raw : Bytes) (name : String) : Prop :=
  ∃ content, Literal.decode? raw = some content ∧ Utf8.decode content = .ok name

theorem numberText_eq_ok_iff {raw : Bytes} :
    numberText raw = .ok raw ↔ ∃ text, Utf8.decode raw = .ok text := by
  unfold numberText
  cases Utf8.decode raw <;> simp

theorem scalar_of_reads {token : Token} {raw : Bytes} {content : Scalar}
    (h : Reads token raw content) : scalar token raw = .ok content := by
  cases h with
  | boolean truth raw => rfl
  | null raw => rfl
  | integer htext hnumber =>
      rw [scalar_integer (numberText_eq_ok_iff.2 ⟨_, htext⟩), hnumber]
      rfl
  | float htext hnumber =>
      rw [scalar_float (numberText_eq_ok_iff.2 ⟨_, htext⟩), hnumber]
      rfl
  | string hcontent =>
      rw [scalar, hcontent]

/-- A text that is not UTF-8 is not read as a number. -/
theorem exists_text_of_number {token : Token} (htoken : token = .integer ∨ token = .float)
    {raw : Bytes} {content : Scalar} (h : scalar token raw = .ok content) :
    ∃ text, Utf8.decode raw = .ok text := by
  cases htext : Utf8.decode raw with
  | ok text => exact ⟨text, rfl⟩
  | error defect =>
      rcases htoken with rfl | rfl <;> simp [scalar, numberText, htext, bind, Except.bind] at h

theorem reads_of_scalar {token : Token} {raw : Bytes} {content : Scalar}
    (h : scalar token raw = .ok content) : Reads token raw content := by
  cases token with
  | boolean truth => cases h; exact .boolean truth raw
  | null => cases h; exact .null raw
  | integer =>
      obtain ⟨text, htext⟩ := exists_text_of_number (.inl rfl) h
      rw [scalar_integer (numberText_eq_ok_iff.2 ⟨text, htext⟩)] at h
      cases hnumber : Numeral.integer? raw with
      | none => rw [hnumber] at h; cases h
      | some number => rw [hnumber] at h; cases h; exact .integer htext hnumber
  | float =>
      obtain ⟨text, htext⟩ := exists_text_of_number (.inr rfl) h
      rw [scalar_float (numberText_eq_ok_iff.2 ⟨text, htext⟩)] at h
      cases hnumber : Numeral.double? raw with
      | none => rw [hnumber] at h; cases h
      | some number => rw [hnumber] at h; cases h; exact .float htext hnumber
  | string =>
      rw [scalar] at h
      cases hcontent : Literal.decode? raw with
      | none => rw [hcontent] at h; cases h
      | some content => rw [hcontent] at h; cases h; exact .string hcontent

theorem key_eq_ok_iff {raw : Bytes} {name : String} : key raw = .ok name ↔ Names raw name := by
  unfold key Names
  cases Literal.decode? raw with
  | none => simp
  | some content =>
      cases hname : Utf8.decode content <;> simp [hname]

theorem names_of_sound {letters : Grammar.Letters} (h : (Part.key letters).Sound) :
    Names letters.raw letters.text := by
  have hkey := key_raw letters 0
  rw [(Part.violations_eq_nil_iff _ 0).2 h] at hkey
  exact key_eq_ok_iff.1 hkey

/-! ### Traces of values -/

mutual

/-- **The traces of a value.** -/
inductive Traces : Value → List Event → Prop
  | scalar {token : Token} {raw : Bytes} {content : Scalar} (h : Reads token raw content) :
      Traces (.scalar content) [.scalar token raw]
  | document {entries : List (String × Value)} {events : List Event}
      (h : TracesEntries entries events) :
      Traces (.document entries) (.enter .brace :: (events ++ [.leave .brace]))
  | array {items : List Value} {events : List Event} (h : TracesItems items events) :
      Traces (.array items) (.enter .square :: (events ++ [.leave .square]))

/-- The traces of the entries of a document. -/
inductive TracesEntries : List (String × Value) → List Event → Prop
  | nil : TracesEntries [] []
  | cons {raw : Bytes} {name : String} {value : Value} {entries : List (String × Value)}
      {first rest : List Event} (hname : Names raw name) (hvalue : Traces value first)
      (hentries : TracesEntries entries rest) :
      TracesEntries ((name, value) :: entries) (.key raw :: (first ++ rest))

/-- The traces of the items of an array. -/
inductive TracesItems : List Value → List Event → Prop
  | nil : TracesItems [] []
  | cons {value : Value} {items : List Value} {first rest : List Event}
      (hvalue : Traces value first) (hitems : TracesItems items rest) :
      TracesItems (value :: items) (first ++ rest)

end

/-! ### What an assembly makes of a trace -/

/-- The cues of events, whose offsets do not matter. -/
def cues (events : List Event) : List Cue := events.map fun event => .event event 0

theorem cues_cons (event : Event) (events : List Event) :
    cues (event :: events) = .event event 0 :: cues events := rfl

theorem cues_append (first second : List Event) :
    cues (first ++ second) = cues first ++ cues second := List.map_append

/-- The beginning and the end of a container for which there is room, and what fills its frame
between them. -/
theorem heard_cues_container {a : Assembly} (ha : a.Ready) (frame : Frame)
    (hkey : frame.installKey = a.announced) {events : List Event} {levels : Nat}
    (hroom : levels + 1 ≤ a.room)
    (hinner : levels ≤ a.room - 1 →
      (a.within (Frame.start frame.kind a.announced)).heard (cues events) = .ok (a.within frame)) :
    a.heard (cues (.enter frame.kind :: (events ++ [.leave frame.kind]))) =
      .ok (a.put frame.container.toValue) := by
  obtain ⟨hcue, hlevels⟩ := Grammar.enterCue_of_le hroom frame.kind 0
  have hopen : Grammar.enterViolations a.room 0 = [] :=
    (Grammar.enterViolations_eq_nil_iff a.room 0).2 (Nat.lt_of_lt_of_le levels.succ_pos hroom)
  have hfilled : (a.within (Frame.start frame.kind a.announced)).heard (cues events) =
      judge [] (a.within frame) := hinner hlevels
  have h := heard_container ha rfl hkey hfilled 0 0
  rw [hcue, hopen] at h
  rw [cues_cons, cues_append]
  exact h

mutual

/-- **The trace of a value puts the value in its place.**  By induction on the trace; the frames
around the value are arbitrary. -/
theorem heard_traces {value : Value} {events : List Event} (h : Traces value events)
    {a : Assembly} (ha : a.Ready) (hroot : a.frames ≠ [] ∨ value.container?.isSome)
    (hroom : value.levels ≤ a.room) : a.heard (cues events) = .ok (a.put value) := by
  cases h with
  | scalar hreads =>
      have hframes := hroot.resolve_right nofun
      have hcontent := (scalar_of_reads hreads).trans (judge_nil _).symm
      exact heard_scalar ha hframes hcontent 0
  | @document entries events hentries =>
      have h := heard_cues_container ha
        (objectFrame ((#[] : Array (String × Value)) ++ entries) a.announced) rfl hroom
        fun hlevels => heard_tracesEntries hentries #[] a.announced a.around hlevels
      simp only [Frame.container, objectFrame, Container.toValue, Array.toList_appendList,
        List.nil_append] at h
      exact h
  | @array items events hitems =>
      have h := heard_cues_container ha
        (arrayFrame ((#[] : Array Value) ++ items) (0 + items.length) a.announced) rfl hroom
        fun hlevels => heard_tracesItems hitems #[] 0 a.announced a.around hlevels
      simp only [Frame.container, arrayFrame, Container.toValue, Array.toList_appendList,
        List.nil_append] at h
      exact h

theorem heard_tracesEntries {more : List (String × Value)} {events : List Event}
    (h : TracesEntries more events) (entries : Array (String × Value)) (key : Option String)
    (outer : List Frame) {room : Nat} (hroom : Value.levelsOfEntries more ≤ room) :
    (⟨objectFrame entries key :: outer, room, none⟩ : Assembly).heard (cues events) =
      .ok ⟨objectFrame (entries ++ more) key :: outer, room, none⟩ := by
  cases h with
  | nil => simp [cues, heard_nil]
  | @cons raw name value more first rest hname hvalue hmore =>
      obtain ⟨hlevels, hrest⟩ := Nat.max_le.1 hroom
      have hready := ready_object entries name key outer room
      have hannounced : (⟨objectFrame entries key :: outer, room, none⟩ : Assembly).heard
          [.event (.key raw) 0] = .ok ⟨keyedFrame entries name key :: outer, room, none⟩ := by
        rw [heard_event, handle, announce]
        simp only [objectFrame, Frame.kind, key_eq_ok_iff.2 hname]
        rfl
      have hfirst := heard_traces hvalue hready (.inl nofun) hlevels
      have hothers := heard_tracesEntries hmore (entries.push (name, value)) key outer hrest
      rw [push_append] at hothers
      rw [cues_cons, heard_cons, hannounced]
      change heard _ (cues (first ++ rest)) = _
      rw [cues_append, heard_append, hfirst]
      exact hothers

theorem heard_tracesItems {more : List Value} {events : List Event}
    (h : TracesItems more events) (items : Array Value) (index : Nat) (key : Option String)
    (outer : List Frame) {room : Nat} (hroom : Value.levelsOfItems more ≤ room) :
    (⟨arrayFrame items index key :: outer, room, none⟩ : Assembly).heard (cues events) =
      .ok ⟨arrayFrame (items ++ more) (index + more.length) key :: outer, room, none⟩ := by
  cases h with
  | nil => simp [cues, heard_nil]
  | @cons value more first rest hvalue hmore =>
      obtain ⟨hlevels, hrest⟩ := Nat.max_le.1 hroom
      have hready := ready_array items index key outer room
      have hfirst := heard_traces hvalue hready (.inl nofun) hlevels
      have hothers := heard_tracesItems hmore (items.push value) (index + 1) key outer hrest
      have hcount : index + 1 + more.length = index + (more.length + 1) := by omega
      rw [push_append, hcount] at hothers
      rw [cues_append, heard_append, hfirst]
      exact hothers

end

/-- **An assembly that takes in events** one after the other, until one is refused. -/
def handleAll (a : Assembly) : List Event → Response
  | [] => (a, none)
  | event :: events =>
    match a.handle event with
    | (after, none) => after.handleAll events
    | (after, some error) => (after, some error)

theorem heard_cues (a : Assembly) (events : List Event) :
    a.heard (cues events) = respond (a.handleAll events) := by
  induction events generalizing a with
  | nil => rfl
  | cons event events ih =>
      rw [cues_cons, heard_cons, heard_event, handleAll]
      obtain ⟨after, _ | error⟩ := a.handle event
      · exact ih after
      · rfl

theorem respond_eq_ok_iff {response : Response} {a : Assembly} :
    respond response = .ok a ↔ response = (a, none) := by
  obtain ⟨after, _ | error⟩ := response <;> simp [respond]

/-! ### The traces of texts -/

mutual

/-- The trace of a tree is one of the value that the tree denotes, if its numbers, strings and keys
are sound. -/
theorem traces_node (n : Node) (h : ∀ part ∈ n.parts, part.Sound) (start : Nat) :
    Traces n.denoted ((n.trace start).map Prod.fst) := by
  cases n with
  | word word => exact .scalar (reads_of_scalar (scalar_word word))
  | number number =>
      have hscalar := scalar_number number start
      rw [(Part.violations_eq_nil_iff _ start).2 (h _ List.mem_cons_self)] at hscalar
      exact .scalar (reads_of_scalar hscalar)
  | string letters =>
      have hscalar := scalar_string letters start
      rw [(Part.violations_eq_nil_iff _ start).2 (h _ List.mem_cons_self)] at hscalar
      exact .scalar (reads_of_scalar hscalar)
  | empty kind gap =>
      cases kind with
      | brace => exact .document .nil
      | square => exact .array .nil
  | array items =>
      have hitems := traces_items items h (start + 1)
      simp only [Node.trace, List.map_cons, List.map_append, List.map_nil]
      exact .array hitems
  | object members =>
      have hmembers := traces_members members h (start + 1)
      simp only [Node.trace, List.map_cons, List.map_append, List.map_nil]
      exact .document hmembers

theorem traces_items (items : Items) (h : ∀ part ∈ items.parts, part.Sound) (start : Nat) :
    TracesItems items.denoted ((items.trace start).map Prod.fst) := by
  cases items with
  | last before value after =>
      have hvalue := traces_node value h (start + before.bytes.length)
      have hlast := TracesItems.cons hvalue .nil
      rwa [List.append_nil] at hlast
  | more before value after rest =>
      obtain ⟨hfirst, hothers⟩ := List.forall_mem_append.1 h
      rw [Items.trace, List.map_append]
      exact .cons (traces_node value hfirst _) (traces_items rest hothers _)

theorem traces_members (members : Members) (h : ∀ part ∈ members.parts, part.Sound)
    (start : Nat) : TracesEntries members.denoted ((members.trace start).map Prod.fst) := by
  cases members with
  | last before key gap lead value after =>
      obtain ⟨hkey, hfirst⟩ := List.forall_mem_cons.1 h
      have hlast := TracesEntries.cons (names_of_sound hkey)
        (traces_node value hfirst (start + (Grammar.keyBytes before key gap lead).length)) .nil
      rwa [List.append_nil] at hlast
  | more before key gap lead value after rest =>
      obtain ⟨hkey, h⟩ := List.forall_mem_cons.1 h
      obtain ⟨hfirst, hothers⟩ := List.forall_mem_append.1 h
      rw [Members.trace, List.map_cons, List.map_append]
      exact .cons (names_of_sound hkey) (traces_node value hfirst _)
        (traces_members rest hothers _)

end

/-- **The trace of a text is one of what the text is decoded as.** -/
theorem traces_of_decode {x : Bytes} {root : Container} (h : decode x = .ok root) :
    ∃ t : Grammar.Text, t.bytes = x ∧ Traces root.toValue (t.trace.map Prod.fst) := by
  obtain ⟨t, hbytes, hadmitted, hdenoted⟩ := exists_text_of_decode h
  have htraces := traces_node t.root hadmitted.sound t.before.bytes.length
  rw [hdenoted] at htraces
  exact ⟨t, hbytes, htraces⟩

/-! ### Installing a value -/

/-- **Whether an assembly is ready for a value.**  The value is a further item of an array, it
belongs to the key that was announced in an object, or it is a container and becomes the result. -/
def ReadyFor (a : Assembly) (value : Value) : Prop :=
  match a.frames with
  | [] => a.result = none ∧ value.container?.isSome = true
  | innermost :: _ =>
    innermost.kind = .square ∨ (innermost.kind = .brace ∧ innermost.pendingKey.isSome = true)

/-- **What the installation of a value changes**: the assembly before and afterwards. -/
inductive Installs (value : Value) : Assembly → Assembly → Prop
  /-- The value is the next item of an array. -/
  | item (items : Array Value) (index : Nat) (installKey : Option String) (outer : List Frame)
      (room : Nat) :
      Installs value ⟨⟨.array items, none, index, installKey⟩ :: outer, room, none⟩
        ⟨⟨.array (items.push value), none, index + 1, installKey⟩ :: outer, room, none⟩
  /-- The value is the next one of an object, and the announced key is used up. -/
  | entry (entries : Array (String × Value)) (name : String) (index : Nat)
      (installKey : Option String) (outer : List Frame) (room : Nat) :
      Installs value ⟨⟨.document entries, some name, index, installKey⟩ :: outer, room, none⟩
        ⟨⟨.document (entries.push (name, value)), none, index, installKey⟩ :: outer, room, none⟩
  /-- The value is the result. -/
  | root {root : Container} (room : Nat) (h : root.toValue = value) :
      Installs value ⟨[], room, none⟩ ⟨[], room, some root⟩

section

variable {bound : Nat} {a : Assembly} {value : Value}

/-- A sound assembly that is ready for a value has a place for it. -/
theorem Sound.ready (h : a.Sound bound) (hready : a.ReadyFor value) :
    a.Ready ∧ (a.frames ≠ [] ∨ value.container?.isSome = true) := by
  obtain ⟨frames, room, result⟩ := a
  cases frames with
  | nil => exact ⟨⟨hready.1, nofun⟩, .inr hready.2⟩
  | cons innermost outer =>
      refine ⟨⟨h.result_eq_none (List.cons_ne_nil innermost outer), ?_⟩, .inl nofun⟩
      rintro frame ⟨⟩
      obtain hsquare | ⟨-, hkey⟩ := hready
      · exact Frame.accepts_of_isSome fun hbrace => nomatch hsquare.symm.trans hbrace
      · exact Frame.accepts_of_isSome fun _ => hkey

/-- In a sound assembly a value that is put in its place is installed. -/
theorem Sound.installs (h : a.Sound bound) (hready : a.ReadyFor value) :
    Installs value a (a.put value) := by
  obtain ⟨hplace, -⟩ := h.ready hready
  obtain ⟨frames, room, result⟩ := a
  obtain rfl : result = none := hplace.result_eq_none
  cases frames with
  | nil =>
      obtain ⟨root, hroot⟩ := Option.isSome_iff_exists.1 hready.2
      change Installs value _ ⟨[], room, value.container?⟩
      rw [hroot]
      exact .root room (container?_eq_some_iff.1 hroot).symm
  | cons innermost outer =>
      have hsound := h.sound innermost List.mem_cons_self
      obtain ⟨body, pendingKey, index, installKey⟩ := innermost
      cases body with
      | array items =>
          -- In an array no key is announced.
          obtain rfl : pendingKey = none :=
            Option.not_isSome_iff_eq_none.1 fun hkey => nomatch hsound.kind_eq_brace hkey
          exact .item items index installKey outer room
      | document entries =>
          cases pendingKey with
          | none => exact absurd hready nofun
          | some name => exact .entry entries name index installKey outer room

end

/-- **The trace of a value installs the value.**  What is decoded has a trace, namely that of its
text.  Whatever an assembly has been asked for, if it is ready for a value and may have all
containers of the value open beside those that are, then it takes in all events of any trace of the
value, and what has changed is that the value is installed. -/
theorem trace_installs_value :
    (∀ (x : Bytes) (root : Container), decode x = .ok root →
      ∃ t : Grammar.Text, t.bytes = x ∧ Traces root.toValue (t.trace.map Prod.fst)) ∧
    ∀ (bound : Nat) (asks : List Ask) (value : Value) (events : List Event),
      Traces value events → (asked bound asks).ReadyFor value →
      (asked bound asks).depth + value.levels ≤ bound →
      ∃ after, (asked bound asks).handleAll events = (after, none) ∧
        Installs value (asked bound asks) after := by
  refine ⟨fun x root => traces_of_decode, ?_⟩
  intro bound asks value events htraces hready hroom
  have hsound := sound_asked bound asks
  obtain ⟨hplace, hroot⟩ := hsound.ready hready
  have hlevels : value.levels ≤ (asked bound asks).room := by
    have hdepth := hsound.depth_add_room
    omega
  have hheard := heard_traces htraces hplace hroot hlevels
  rw [heard_cues] at hheard
  exact ⟨_, respond_eq_ok_iff.1 hheard, hsound.installs hready⟩

/-- The raw text of the key `a`. -/
def rawKey : Bytes := [Ascii.quote, Ascii.byte 'a']

theorem names_rawKey : Names rawKey "a" := by
  refine ⟨Utf8.encode "a", ?_, Utf8.decode_encode "a"⟩
  rw [Literal.decode?, show Literal.withoutQuote rawKey = [Ascii.byte 'a'] from rfl,
    Literal.unescapeFrom_plain _ _ (by decide), if_neg (by decide), Literal.unescapeFrom_nil]
  rfl

/-- An object in an array, in which the key `a` is announced. -/
def keyed : Assembly :=
  asked 4 [.handle (.enter .square), .handle (.enter .brace), .handle (.key rawKey)]

theorem keyed_eq : keyed =
    ⟨[{ body := .document #[], pendingKey := some "a" }, { body := .array #[] }], 2, none⟩ := by
  have hkey := key_eq_ok_iff.2 names_rawKey
  simp [keyed, asked, ask, handle, enter, announce, Frame.start, Frame.kind, Frame.takeKey, hkey]

/-- An object that holds an array of one number is installed under that key, and fits exactly. -/
theorem trace_installs_value_keyed :
    keyed.ReadyFor (.document [("a", .array [.scalar (.int64 7)])]) ∧
      keyed.handleAll [.enter .brace, .key rawKey, .enter .square,
          .scalar .integer [Ascii.byte '7'], .leave .square, .leave .brace] =
        (⟨[{ body := .document #[("a", .document [("a", .array [.scalar (.int64 7)])])] },
          { body := .array #[] }], 2, none⟩, none) := by
  have hseven : Reads .integer [Ascii.byte '7'] (.int64 7) :=
    .integer (Utf8.decode_encode "7") (by decide +kernel)
  have htraces := Traces.document (.cons names_rawKey (.array (.cons (.scalar hseven) .nil)) .nil)
  have hready : keyed.ReadyFor (.document [("a", .array [.scalar (.int64 7)])]) := by
    rw [keyed_eq]
    exact .inr ⟨rfl, rfl⟩
  have hroom : keyed.depth + 2 ≤ 4 := by
    rw [keyed_eq]
    exact Nat.le_refl 4
  obtain ⟨after, hafter, hinstalls⟩ := trace_installs_value.2 4 _ _ _ htraces hready hroom
  change Installs _ keyed after at hinstalls
  rw [keyed_eq] at hinstalls
  cases hinstalls
  exact ⟨hready, hafter⟩

end Assembly

end DocCodec
