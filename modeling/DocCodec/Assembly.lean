/-
**Assembling a document from events.**

The open containers are kept as a stack of frames, the innermost first.  A frame holds what its
container has so far, the key that was announced for its next value, and the key under which the
container itself will be installed once it is closed: that key is taken from the parent when the
container opens.  When the outermost container closes it becomes the result.

Events are taken as they come, also in an order that no text raises.  An event that is refused
leaves the assembly as it was, except that the end of a container of the wrong kind, or without a
key to install it under, has already discarded its frame.

Main definitions:

* `DocCodec.Assembly.Frame` — an open container;
* `DocCodec.Assembly` — **the state of an assembly**;
* `DocCodec.Assembly.scalar` — the scalar of a token and its raw text;
* `DocCodec.Assembly.handle` — **takes in one event**.
-/

import DocCodec.DecodeError
import DocCodec.Event
import DocCodec.Literal.Unescape
import DocCodec.Numeral
import DocCodec.Value

set_option relaxedAutoImplicit false
set_option autoImplicit false

namespace DocCodec

namespace Assembly

/-! ### Frames -/

/-- What an open container has so far. -/
inductive Body
  | document (entries : Array (String × Value))
  | array (items : Array Value)
  deriving Repr

/-- An open container. -/
structure Frame where
  body : Body
  /-- The key that was announced for the next value of an object. -/
  pendingKey : Option String := none
  /-- The position of the next item of an array. -/
  nextIndex : Nat := 0
  /-- The key under which the container will be installed in an object. -/
  installKey : Option String := none
  deriving Repr

namespace Frame

/-- The frame of a container that opens. -/
def start (kind : Bracket) (installKey : Option String) : Frame :=
  match kind with
  | .brace => { body := .document #[], installKey }
  | .square => { body := .array #[], installKey }

/-- The kind of the container of a frame. -/
def kind (frame : Frame) : Bracket :=
  match frame.body with
  | .document _ => .brace
  | .array _ => .square

/-- Whether a value can be installed under the given key: an object needs one. -/
def accepts (frame : Frame) (key : Option String) : Bool := frame.kind == .square || key.isSome

/-- A frame with one value more, under the given key if it is an object's. -/
def install (frame : Frame) (key : Option String) (value : Value) : Frame :=
  match frame with
  | ⟨.document entries, pendingKey, nextIndex, installKey⟩ =>
    match key with
    | some key => ⟨.document (entries.push (key, value)), pendingKey, nextIndex, installKey⟩
    | none => ⟨.document entries, pendingKey, nextIndex, installKey⟩
  | ⟨.array items, pendingKey, nextIndex, installKey⟩ =>
    ⟨.array (items.push value), pendingKey, nextIndex + 1, installKey⟩

/-- A frame whose announced key has been used. -/
def takeKey (frame : Frame) : Frame := { frame with pendingKey := none }

/-- The finished container of a frame. -/
def container (frame : Frame) : Container :=
  match frame.body with
  | .document entries => .document entries.toList
  | .array items => .array items.toList

section

variable (kind : Bracket) (key : Option String) (frame : Frame) (value : Value)

@[simp] theorem kind_start : (start kind key).kind = kind := by cases kind <;> rfl

@[simp] theorem pendingKey_start : (start kind key).pendingKey = none := by cases kind <;> rfl

@[simp] theorem installKey_start : (start kind key).installKey = key := by cases kind <;> rfl

@[simp] theorem kind_takeKey : frame.takeKey.kind = frame.kind := rfl

@[simp] theorem pendingKey_takeKey : frame.takeKey.pendingKey = none := rfl

@[simp] theorem installKey_takeKey : frame.takeKey.installKey = frame.installKey := rfl

@[simp] theorem kind_install : (frame.install key value).kind = frame.kind := by
  obtain ⟨_ | _, pendingKey, nextIndex, installKey⟩ := frame <;> cases key <;> rfl

@[simp] theorem pendingKey_install : (frame.install key value).pendingKey = frame.pendingKey := by
  obtain ⟨_ | _, pendingKey, nextIndex, installKey⟩ := frame <;> cases key <;> rfl

@[simp] theorem installKey_install : (frame.install key value).installKey = frame.installKey := by
  obtain ⟨_ | _, pendingKey, nextIndex, installKey⟩ := frame <;> cases key <;> rfl

/-- If a value is refused for want of a key, none was announced that could have been taken. -/
theorem takeKey_of_accepts {frame : Frame} (h : frame.accepts frame.pendingKey = false) :
    frame.takeKey = frame := by
  obtain ⟨body, pendingKey, nextIndex, installKey⟩ := frame
  cases pendingKey with
  | none => rfl
  | some key =>
      rw [accepts, Option.isSome_some, Bool.or_true] at h
      cases h

theorem takeKey_install : (frame.install key value).takeKey = frame.takeKey.install key value := by
  obtain ⟨_ | _, pendingKey, nextIndex, installKey⟩ := frame <;> cases key <;> rfl

theorem accepts_of_isSome {frame : Frame} {key : Option String}
    (h : frame.kind = .brace → key.isSome = true) : frame.accepts key = true := by
  unfold accepts
  cases hkind : frame.kind with
  | square => rfl
  | brace => rw [h hkind]; rfl

end

end Frame

/-! ### Scalars from their raw texts -/

/-- The text of a number, which must be UTF-8 before it is read as a number. -/
def numberText (raw : Bytes) : Except DecodeError Bytes :=
  match Utf8.decode raw with
  | .ok _ => .ok raw
  | .error defect => .error (.invalidUtf8 defect)

/-- The scalar of a token and its raw text. -/
def scalar (token : Token) (raw : Bytes) : Except DecodeError Scalar :=
  match token with
  | .boolean truth => .ok (.boolean truth)
  | .null => .ok .null
  | .integer => do
    match Numeral.integer? (← numberText raw) with
    | some number => .ok (.int64 number)
    | none => .error .integerOverflow
  | .float => do
    match Numeral.double? (← numberText raw) with
    | some number => .ok (.double number)
    | none => .error .invalidNumber
  | .string =>
    match Literal.decode? raw with
    | some content => .ok (.string content)
    | none => .error .malformedEscape

/-- The key of a raw text, which must be UTF-8 once its escapes are resolved. -/
def key (raw : Bytes) : Except DecodeError String :=
  match Literal.decode? raw with
  | none => .error .malformedEscape
  | some content =>
    match Utf8.decode content with
    | .ok text => .ok text
    | .error defect => .error (.invalidUtf8 defect)

end Assembly

/-- **The state of an assembly.** -/
structure Assembly where
  /-- The open containers, innermost first. -/
  frames : List Assembly.Frame := []
  /-- How many more containers may be opened. -/
  room : Nat := nestingLimit
  /-- The root, once it is closed. -/
  result : Option Container := none
  deriving Repr

namespace Assembly

/-- How many containers are open. -/
def depth (a : Assembly) : Nat := a.frames.length

/-- Whether the root has been closed. -/
def isComplete (a : Assembly) : Bool := a.frames.isEmpty && a.result.isSome

/-- Hands out the result, if there is one, and forgets it. -/
def take (a : Assembly) : Option Container × Assembly := (a.result, { a with result := none })

/-- Discards all open containers and the result. -/
def reset (a : Assembly) : Assembly :=
  { a with frames := [], room := a.room + a.depth, result := none }

/-! ### Events -/

/-- The next state of an assembly, and the reason if the event is refused. -/
abbrev Response := Assembly × Option DecodeError

/-- A container opens, if there is room for it.  It takes the key announced in its parent along. -/
def enter (a : Assembly) (kind : Bracket) : Response :=
  match a.room with
  | 0 => (a, some .nestingTooDeep)
  | room + 1 =>
    if a.result.isSome then (a, some .invalidRoot)
    else
      match a.frames with
      | [] => ({ a with frames := [Frame.start kind none], room }, none)
      | parent :: outer =>
        let frames := Frame.start kind parent.pendingKey :: parent.takeKey :: outer
        ({ a with frames, room }, none)

/-- A key is announced.  A key that was announced before and not used is replaced. -/
def announce (a : Assembly) (raw : Bytes) : Response :=
  match a.frames with
  | [] => (a, some (.unexpectedState .keyOutsideObject))
  | frame :: outer =>
    match frame.kind with
    | .square => (a, some (.unexpectedState .keyInsideArray))
    | .brace =>
      match key raw with
      | .error error => (a, some error)
      | .ok text => ({ a with frames := { frame with pendingKey := some text } :: outer }, none)

/-- The innermost container closes.  Its frame is gone whether or not it can be installed. -/
def leave (a : Assembly) (kind : Bracket) : Response :=
  match a.frames with
  | [] => (a, some (.unexpectedState .closeWithoutOpen))
  | frame :: outer =>
    let a := { a with frames := outer, room := a.room + 1 }
    if frame.kind ≠ kind then (a, some (.unexpectedState .closeMismatch))
    else
      match outer with
      | [] => ({ a with result := some frame.container }, none)
      | parent :: outer =>
        if parent.accepts frame.installKey then
          let parent := parent.install frame.installKey frame.container.toValue
          ({ a with frames := parent :: outer }, none)
        else (a, some (.unexpectedState .valueWithoutKey))

/-- A scalar is complete.  Its text is read before its key is looked for.  It does not matter whether
the key is taken before it is known that there is one (`add_eq_takeKey`). -/
def add (a : Assembly) (token : Token) (raw : Bytes) : Response :=
  match a.frames with
  | [] => (a, some .invalidRoot)
  | frame :: outer =>
    match scalar token raw with
    | .error error => (a, some error)
    | .ok content =>
      if frame.accepts frame.pendingKey then
        let frame := (frame.install frame.pendingKey (.scalar content)).takeKey
        ({ a with frames := frame :: outer }, none)
      else (a, some (.unexpectedState .valueWithoutKey))

/-- The announced key may be taken first, whether or not the value can be installed then. -/
theorem add_eq_takeKey {a : Assembly} {frame : Frame} {outer : List Frame}
    (hframes : a.frames = frame :: outer) {token : Token} {raw : Bytes} {content : Scalar}
    (hcontent : scalar token raw = .ok content) :
    a.add token raw =
      if frame.accepts frame.pendingKey then
        let frame := frame.takeKey.install frame.pendingKey (.scalar content)
        ({ a with frames := frame :: outer }, none)
      else
        ({ a with frames := frame.takeKey :: outer }, some (.unexpectedState .valueWithoutKey)) := by
  obtain ⟨frames, room, result⟩ := a
  cases hframes
  simp only [add, hcontent, Frame.takeKey_install]
  cases haccepts : frame.accepts frame.pendingKey with
  | true => rfl
  | false => rw [Frame.takeKey_of_accepts haccepts]

/-- **Takes in one event.** -/
def handle (a : Assembly) : Event → Response
  | .enter kind => a.enter kind
  | .leave kind => a.leave kind
  | .key raw => a.announce raw
  | .scalar token raw => a.add token raw

end Assembly

end DocCodec
