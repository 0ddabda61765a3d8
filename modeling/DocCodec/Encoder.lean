/-
**Writing a document to a sink.**

The sink is told the content type first.  A root that holds nothing is written at once.  For any
other root the writer takes one turn after another until no level is left; before each turn, and
before it finds that no level is left, it asks the stop signal.  It ends with the first failure of
the sink, and what has been written by then stays written.

Main definitions:

* `DocCodec.Mishap`, `DocCodec.EncodeError` — why a document is not written to its end;
* `DocCodec.Encoder.run` — takes turns until no level is left;
* `DocCodec.encodeDocument`, `DocCodec.encodeArray`, `DocCodec.encode`, `DocCodec.encodeContainer` —
  **write a document or an array** to a sink;
* `DocCodec.Container.toJson` — **the text of a container**.
-/

import DocCodec.Encoder.Turn
import DocCodec.Signal
import DocCodec.Sink

set_option relaxedAutoImplicit false
set_option autoImplicit false

namespace DocCodec

/-- What the writer takes for impossible. -/
inductive Mishap
  /-- A document or an array where a scalar is written. -/
  | containerAsScalar
  /-- More base64 digits of a block than the buffer holds. -/
  | base64Overflow
  /-- A formatter that fails though the sink did not. -/
  | formatterFailed
  deriving DecidableEq, Repr

/-- The wording of a mishap. -/
def Mishap.message : Mishap → String
  | containerAsScalar => "Container passed as scalar"
  | base64Overflow => "Base64 block overflow"
  | formatterFailed => "Formatter failed"

/-- Why a document is not written to its end. -/
inductive EncodeError
  /-- The sink failed. -/
  | sink (error : SinkError)
  /-- The caller had the writing stopped. -/
  | aborted
  /-- What the writer takes for impossible has happened. -/
  | unexpectedState (mishap : Mishap)
  deriving DecidableEq, Repr

namespace EncodeError

/-- The name of an error. -/
def name : EncodeError → String
  | sink _ => "Sink"
  | aborted => "Aborted"
  | unexpectedState _ => "UnexpectedState"

/-- The wording of an error; the sink's own is quoted. -/
def message : EncodeError → String
  | sink error => "sink error: \"" ++ error.message ++ "\""
  | aborted => "aborted"
  | unexpectedState mishap => "unexpected state: " ++ mishap.message

end EncodeError

/-- The type of the content that is written. -/
def contentType : String := "application/json"

namespace Encoder

/-- Takes turns until no level is left, where the signal has been asked `polls` times before. -/
def run (signal : Signal) (polls : Nat) (levels : List Level) (sink : Sink) :
    Sink × Option EncodeError :=
  if signal (polls + 1) then (sink, some .aborted)
  else
    match levels with
    | [] => (sink, none)
    | level :: outer =>
      match _h : turn level outer with
      | (text, levels) =>
        match sink.write text with
        | (sink, none) => run signal (polls + 1) levels sink
        | (sink, some error) => (sink, some (.sink error))
termination_by pending levels
decreasing_by
  have := pending_turn_lt level outer
  simp_all

/-- Writes the container of a level, which is the root. -/
def writeRoot (signal : Signal) (root : Level) (sink : Sink) : Sink × Option EncodeError :=
  match sink.announce contentType with
  | (sink, some error) => (sink, some (.sink error))
  | (sink, none) =>
    if root.entries.isEmpty then
      match sink.write (empty root.kind) with
      | (sink, none) => (sink, none)
      | (sink, some error) => (sink, some (.sink error))
    else
      match sink.write (opening root.kind) with
      | (sink, none) => run signal 0 [root] sink
      | (sink, some error) => (sink, some (.sink error))

end Encoder

/-- **Writes a document to a sink**, without its own keys if they are not wanted. -/
def encodeDocument (signal : Signal) (document : Document) (withKeys : Bool) (sink : Sink) :
    Sink × Option EncodeError :=
  Encoder.writeRoot signal (.ofDocument document withKeys) sink

/-- **Writes an array to a sink.** -/
def encodeArray (signal : Signal) (items : List Value) (sink : Sink) : Sink × Option EncodeError :=
  Encoder.writeRoot signal (.ofArray items) sink

/-- **Writes a container to a sink.** -/
def encode (signal : Signal) (root : Container) (sink : Sink) : Sink × Option EncodeError :=
  match root with
  | .document document => encodeDocument signal document true sink
  | .array items => encodeArray signal items sink

/-- Writes a container to a sink, a document without its own keys if they are not wanted. -/
def encodeContainer (signal : Signal) (root : Container) (withKeys : Bool) (sink : Sink) :
    Sink × Option EncodeError :=
  match root with
  | .document document => encodeDocument signal document withKeys sink
  | .array items => encodeArray signal items sink

/-- **The text of a container.** -/
def Container.toJson (root : Container) : Bytes := (encode .never root {}).1.bytes

end DocCodec
