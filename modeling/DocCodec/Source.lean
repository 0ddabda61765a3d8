/-
**Sources: where a text comes from.**

A decoder that draws its text from a source asks it for one bufferful after another.  What matters
of a source is the list of what these requests give: some bytes, or none at the end of the stream,
or a failure, or a report of more bytes than the buffer holds.  A request may also be
interrupted, in which case a source that is read through a retrying layer is asked again, and any
other has failed.

Main definitions:

* `DocCodec.Reading` — what a request gives;
* `DocCodec.ChunkReader` — a source over a byte string, which gives at most so many bytes at a
  time;
* `DocCodec.retrying` — a source behind a layer that repeats interrupted requests;
* `DocCodec.decodeReadings` — **decodes the text of a source**;
* `DocCodec.decode` — **decodes a byte string**.
-/

import DocCodec.Decoder
import DocCodec.Signal

set_option relaxedAutoImplicit false
set_option autoImplicit false

namespace DocCodec

/-- How many bytes the decoder has room for at a time. -/
def readBuffer : Nat := 1024

/-- What a request gives. -/
inductive Reading
  /-- Some bytes; none at all mean the end of the stream. -/
  | bytes (part : Bytes)
  /-- A report of more bytes than there is room for. -/
  | overlong
  /-- The request was interrupted. -/
  | interrupted
  /-- The source failed. -/
  | failed
  deriving DecidableEq, Repr

/-- A source behind a layer that repeats interrupted requests. -/
def retrying (readings : List Reading) : List Reading := readings.filter (· ≠ .interrupted)

/-! ### Byte strings as sources -/

/-- A source over a byte string, which gives at most `chunk` bytes at a time, and always one at
least; without a bound it gives as many as there is room for. -/
structure ChunkReader where
  /-- The bytes that are not yet given. -/
  rest : Bytes
  chunk : Option Nat
  /-- How many bytes are not yet given. -/
  remaining : Nat := rest.length
  remaining_eq : remaining = rest.length := by rfl
  deriving DecidableEq, Repr

namespace ChunkReader

/-- The source over a byte string of which nothing has been given. -/
def ofBytes (bytes : Bytes) (chunk : Option Nat) : ChunkReader := { rest := bytes, chunk }

/-- How many bytes a request with the given room may give at most. -/
def atMost (r : ChunkReader) (room : Nat) : Nat :=
  match r.chunk with
  | none => room
  | some chunk => Nat.min room (Nat.max chunk 1)

/-- A source after its first `count` bytes. -/
def skip (r : ChunkReader) (count : Nat) : ChunkReader where
  rest := r.rest.drop count
  chunk := r.chunk
  remaining := r.remaining - count
  remaining_eq := by rw [r.remaining_eq, List.length_drop]

/-- One request: the bytes it gives, and the source afterwards. -/
def read (r : ChunkReader) (room : Nat) : Bytes × ChunkReader :=
  let count := r.atMost room
  (r.rest.take count, r.skip count)

/-- What the requests of a decoder give, until the bytes are used up. -/
def readings (r : ChunkReader) : List Reading :=
  (r.rest.parts (r.atMost readBuffer)).map .bytes

end ChunkReader

/-! ### Decoding from a source -/

/-- Decodes what is left of a source, where `polls` questions to the signal have been answered.
At the end of the list the stream ends too. -/
def decodeFrom (signal : Signal) (polls : Nat) (d : Decoder) :
    List Reading → Except DecodeError Container
  | [] => d.finish (signal (polls + 1))
  | .failed :: _ | .interrupted :: _ => .error .readerError
  | .overlong :: _ => .error (.unexpectedState .overlongRead)
  | .bytes [] :: _ => d.finish (signal (polls + 1))
  | .bytes (b :: part) :: rest =>
    if readBuffer ≤ part.length then .error (.unexpectedState .overlongRead)
    else
      match d.write (signal (polls + 1)) (b :: part) with
      | (d, none) => decodeFrom signal (polls + 1) d rest
      | (_, some error) => .error error

/-- **Decodes the text of a source**, unless the signal says stop.  It is asked before each part
of the text that is not empty and once more at the end. -/
def decodeReadings (signal : Signal) (readings : List Reading) : Except DecodeError Container :=
  decodeFrom signal 0 {} readings

/-- **Decodes a byte string.** -/
def decode (text : Bytes) : Except DecodeError Container :=
  decodeReadings .never (ChunkReader.ofBytes text none).readings

end DocCodec
