/-
**Sinks: where a text goes.**

A sink is told the type of the content before anything is written to it, and then takes byte
strings.  It may have room for a limited number of bytes: a write that does not fit keeps the part
that fits and fails.  It may also refuse the content type.

Main definitions:

* `DocCodec.Sink` — a sink with what it holds;
* `DocCodec.Sink.announce` — tells it the content type;
* `DocCodec.Sink.write` — **writes bytes to it**.
-/

import DocCodec.Bytes

set_option relaxedAutoImplicit false
set_option autoImplicit false

namespace DocCodec

/-- Why a sink fails. -/
inductive SinkError
  /-- There is no room for all bytes. -/
  | full
  /-- The content type is not welcome. -/
  | refused
  deriving DecidableEq, Repr

/-- The wording of a sink's failure. -/
def SinkError.message : SinkError → String
  | full => "full"
  | refused => "refused"

/-- A sink with what it holds. -/
structure Sink where
  /-- How many bytes it can hold, if it is limited. -/
  limit : Option Nat := none
  /-- Whether it refuses the content type. -/
  refusesType : Bool := false
  /-- The content types it was told. -/
  announced : List String := []
  /-- The bytes it holds. -/
  held : Array UInt8 := #[]
  deriving DecidableEq, Repr

namespace Sink

/-- The bytes that a sink holds. -/
def bytes (sink : Sink) : Bytes := sink.held.toList

/-- Tells a sink the type of the content to come. -/
def announce (sink : Sink) (contentType : String) : Sink × Option SinkError :=
  ({ sink with announced := sink.announced ++ [contentType] },
    if sink.refusesType then some .refused else none)

/-- **Writes bytes to a sink**, as many as there is room for. -/
def write (sink : Sink) (bytes : Bytes) : Sink × Option SinkError :=
  match sink.limit with
  | none => ({ sink with held := sink.held ++ bytes }, none)
  | some limit =>
    let room := limit - sink.held.size
    if bytes.length ≤ room then ({ sink with held := sink.held ++ bytes }, none)
    else ({ sink with held := sink.held ++ bytes.take room }, some .full)

end Sink

end DocCodec
