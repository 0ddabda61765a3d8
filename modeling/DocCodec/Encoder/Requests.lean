/-
**Writing a document one request at a time.**

A turn of the writer does not hand its text to the sink in one piece.  A string goes out as its
quotation marks and the runs and escapes between them, an object id as its digits between two fixed
texts, binary data block by block; what is formatted reaches the sink through an adapter, in the
pieces that the formatter makes of it.  Here the writer is given with each of its requests: telling
the sink the type of the content, giving it bytes, and asking the stop signal.  A session keeps the
sink and a journal of the requests, each with whether it went well.  Every request may fail, and a
failure ends the writing at once.

The formatter's way to divide a text is a parameter, of which only is assumed that the pieces join
up to the text.

Three mishaps that the writer takes for impossible are errors here as well: a container where a
scalar is to be written, a block of base64 digits that its buffer cannot hold, and a formatter that
fails though the sink has not.

Main definitions:

* `DocCodec.Request`, `DocCodec.Session` — what is asked, and of whom;
* `DocCodec.Writing` — a part of the writer;
* `DocCodec.Formatter` — how formatted text is divided;
* `DocCodec.Writing.turn`, `DocCodec.Writing.run` — a turn, and turns until no level is left;
* `DocCodec.encodeRequests` — **writes a container request by request**.
-/

import DocCodec.Encoder

set_option relaxedAutoImplicit false
set_option autoImplicit false

namespace DocCodec

/-! ### Sessions -/

/-- What the writer asks for. -/
inductive Request
  /-- To tell the sink the type of the content. -/
  | announce (contentType : String)
  /-- To give the sink bytes. -/
  | write (bytes : Bytes)
  /-- To ask the stop signal. -/
  | poll
  deriving DecidableEq, Repr

/-- A sink and a stop signal, and what has been asked of them. -/
structure Session where
  sink : Sink
  signal : Signal
  /-- How often the signal has been asked. -/
  polls : Nat := 0
  /-- The requests, in order, each with whether it went well.  To ask the signal goes well if the
  answer is not to stop. -/
  journal : List (Request × Bool) := []

namespace Session

/-- Notes a request and whether it went well. -/
def note (session : Session) (request : Request) (well : Bool) : Session :=
  { session with journal := session.journal ++ [(request, well)] }

/-- Tells the sink the type of the content. -/
def announce (session : Session) (contentType : String) : Session × Option SinkError :=
  let (sink, failure) := session.sink.announce contentType
  ({ session with sink }.note (.announce contentType) failure.isNone, failure)

/-- Gives the sink bytes. -/
def write (session : Session) (bytes : Bytes) : Session × Option SinkError :=
  let (sink, failure) := session.sink.write bytes
  ({ session with sink }.note (.write bytes) failure.isNone, failure)

/-- Asks the stop signal. -/
def poll (session : Session) : Session × Bool :=
  let polls := session.polls + 1
  let stop := session.signal polls
  ({ session with polls }.note .poll (!stop), stop)

end Session

/-! ### Requests that may fail -/

/-- A part of the writer: it works on a session, and may fail. -/
abbrev Writing := ExceptT EncodeError (StateM Session)

/-- How formatted text is divided into the pieces that the sink is given. -/
structure Formatter where
  pieces : Bytes → List Bytes
  /-- The pieces join up to the text. -/
  flatten_pieces : ∀ text, (pieces text).flatten = text

/-- The formatter that divides nothing. -/
def Formatter.whole : Formatter := ⟨fun text => [text], fun text => by simp⟩

namespace Writing

/-- What comes of a request to the sink. -/
def ofSink (request : Session → Session × Option SinkError) : Writing Unit := fun session =>
  match request session with
  | (session, none) => (.ok (), session)
  | (session, some failure) => (.error (.sink failure), session)

/-- Tells the sink the type of the content. -/
def announce (contentType : String) : Writing Unit := ofSink fun session =>
  session.announce contentType

/-- Gives the sink bytes. -/
def write (bytes : Bytes) : Writing Unit := ofSink fun session => session.write bytes

/-- Asks the stop signal, and goes on unless the answer is to stop. -/
def poll : Writing Unit := fun session =>
  match session.poll with
  | (session, false) => (.ok (), session)
  | (session, true) => (.error .aborted, session)

/-! ### Strings -/

/-- Writes a string literal: a quotation mark, its runs and escapes, and a quotation mark. -/
def string (content : Bytes) : Writing Unit := do
  write [Ascii.quote]
  ((Literal.fragments content).toList.map (Literal.Fragment.bytes content.toArray)).forM write
  write [Ascii.quote]

/-- Writes a text as a string literal. -/
def text (content : String) : Writing Unit := string (Utf8.encode content)

/-! ### Base64 -/

/-- Writes blocks of bytes as base64 digits.  The digits of a block are put into the buffer, of
which as much is written as they take up. -/
def base64Blocks (engine : Base64.Engine) (buffer : Bytes) : List Bytes → Writing Unit
  | [] => pure ()
  | block :: rest =>
    match engine buffer block with
    | none => throw (.unexpectedState .base64Overflow)
    | some (buffer, length) =>
      if length ≤ buffer.length then do
        write (buffer.take length)
        base64Blocks engine buffer rest
      else throw (.unexpectedState .base64Overflow)

/-- Writes bytes as base64 digits, with a buffer for those of one block. -/
def base64By (engine : Base64.Engine) (content : Bytes) : Writing Unit :=
  base64Blocks engine (List.replicate (Base64.blockSize / 3 * 4) 0)
    (content.parts Base64.blockSize)

/-- Writes bytes as base64 digits. -/
def base64 (content : Bytes) : Writing Unit := base64By Base64.encodeInto content

/-! ### Formatted text -/

/-- What stands between the formatter and the sink.  The formatter is only told whether a piece
went well, so the adapter keeps the failure. -/
structure Adapter where
  session : Session
  failure : Option SinkError := none

/-- Gives the sink one piece, and tells whether it went well. -/
def Adapter.take (adapter : Adapter) (piece : Bytes) : Adapter × Bool :=
  match adapter.session.write piece with
  | (session, none) => ({ adapter with session }, true)
  | (session, some failure) => (⟨session, some failure⟩, false)

/-- What the formatter does: it hands over piece after piece, up to the first that does not go
well. -/
def Adapter.takeAll (adapter : Adapter) : List Bytes → Adapter × Bool
  | [] => (adapter, true)
  | piece :: rest =>
    match adapter.take piece with
    | (adapter, true) => adapter.takeAll rest
    | (adapter, false) => (adapter, false)

/-- Writes a formatted text.  If the formatter fails, the error is what the adapter has kept. -/
def formatted (formatter : Formatter) (text : Bytes) : Writing Unit := fun session =>
  match ({ session : Adapter }).takeAll (formatter.pieces text) with
  | (adapter, true) => (.ok (), adapter.session)
  | (adapter, false) =>
    match adapter.failure with
    | some failure => (.error (.sink failure), adapter.session)
    | none => (.error (.unexpectedState .formatterFailed), adapter.session)

/-! ### Scalars -/

/-- What stands before the value of the first entry in braces. -/
def head (key : String) : Bytes :=
  [Ascii.openBrace, Ascii.space] ++ Encoder.quotedText key ++ Encoder.keyMark

/-- What stands before the value of a later entry in braces. -/
def next (key : String) : Bytes := Encoder.separator ++ Encoder.quotedText key ++ Encoder.keyMark

/-- What ends entries in braces. -/
def tail : Bytes := [Ascii.space, Ascii.closeBrace]

/-- Writes the id of a pointer into a collection, if there is one. -/
def pointerId : Option ObjectId → Writing Unit
  | none => pure ()
  | some id => do
    write (next "$id" ++ [Ascii.quote])
    write id.toHex
    write [Ascii.quote]

/-- Writes a scalar. -/
def scalar (formatter : Formatter) : Scalar → Writing Unit
  | .double number =>
    if number.isFinite then formatted formatter number.sixPlaces else write Encoder.nullText
  | .string content | .code content | .symbol content => string content
  | .binary subtype content => do
    formatted formatter
      (head "$type" ++ Encoder.quotedDigits (Hex.pair subtype) ++ next "$binary" ++ [Ascii.quote])
    base64 content
    write (Ascii.quote :: tail)
  | .objectId id => do
    write (head "$oid" ++ [Ascii.quote])
    write id.toHex
    write (Ascii.quote :: tail)
  | .regex pattern options => do
    write (head "$regex")
    text pattern
    write (next "$options")
    text options
    write tail
  | .dbPointer collection id => do
    write (head "$ref")
    text collection
    pointerId id
    write tail
  | .date milliseconds => formatted formatter (Encoder.scalarText (.date milliseconds))
  | .timestamp seconds ordinal => formatted formatter (Encoder.timestampText seconds ordinal)
  | .int32 number => formatted formatter (Decimal.ofInt number.toInt)
  | .int64 number => formatted formatter (Decimal.ofInt number.toInt)
  | .boolean truth => write (Encoder.booleanText truth)
  | .null => write Encoder.nullText
  | .undefined => write (Encoder.scalarText .undefined)
  | .minKey => write (Encoder.scalarText .minKey)
  | .maxKey => write (Encoder.scalarText .maxKey)

/-- Writes a value that is no container.  The scope of code is not written. -/
def plain (formatter : Formatter) : Value → Writing Unit
  | .scalar content => scalar formatter content
  | .codeWithScope content _ => string content
  | .document _ | .array _ => throw (.unexpectedState .containerAsScalar)

/-! ### Turns -/

/-- Writes the separator before an entry, unless it is the first of its level. -/
def separated (level : Encoder.Level) : Writing Unit :=
  if level.fresh then pure () else write Encoder.separator

/-- Writes the key of an entry, if it is written with one. -/
def key : Option String → Writing Unit
  | none => pure ()
  | some key => do
    text key
    write Encoder.keyMark

/-- Writes a value, of a container only as much as a turn does. -/
def value (formatter : Formatter) (depth : Nat) : Value → Writing Unit
  | .document entries => write (Encoder.visit (.ofDocument entries true) depth).1
  | .array items => write (Encoder.visit (.ofArray items) depth).1
  | value => plain formatter value

/-- **One turn** at the innermost level. -/
def turn (formatter : Formatter) (level : Encoder.Level) (outer : List Encoder.Level) :
    Writing Unit :=
  match level.entries with
  | [] => write (Encoder.closing level.kind)
  | (name, content) :: _ => do
    separated level
    key name
    value formatter (outer.length + 1) content

/-- Takes turns until no level is left. -/
def run (formatter : Formatter) (levels : List Encoder.Level) : Writing Unit := do
  poll
  match levels with
  | [] => pure ()
  | level :: outer =>
    turn formatter level outer
    run formatter (Encoder.turn level outer).2
termination_by Encoder.pending levels
decreasing_by exact Encoder.pending_turn_lt level outer

/-- Writes the container of a level, which is the root. -/
def root (formatter : Formatter) (level : Encoder.Level) : Writing Unit := do
  announce contentType
  if level.entries.isEmpty then write (Encoder.empty level.kind)
  else
    write (Encoder.opening level.kind)
    run formatter [level]

/-- What a part of the writer leaves: the session, and the error that has ended it, if any. -/
def outcome (program : Writing Unit) (session : Session) : Session × Option EncodeError :=
  match program session with
  | (.ok (), session) => (session, none)
  | (.error error, session) => (session, some error)

end Writing

/-! ### Roots -/

/-- The level of a container as a root. -/
def Encoder.Level.ofContainer (root : Container) (withKeys : Bool) : Encoder.Level :=
  match root with
  | .document document => .ofDocument document withKeys
  | .array items => .ofArray items

/-- **Writes a container request by request**, a document without its own keys if they are not
wanted: the session afterwards, and the error that has ended it, if any. -/
def encodeRequests (formatter : Formatter) (signal : Signal) (root : Container) (withKeys : Bool)
    (sink : Sink) : Session × Option EncodeError :=
  (Writing.root formatter (.ofContainer root withKeys)).outcome { sink, signal }

end DocCodec
