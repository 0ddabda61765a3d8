/-
**Decoding a text that arrives in parts.**

A decoder joins a scanner and an assembly: the assembly listens to the scan, and refuses the
events that it cannot take in.  The text may be written to it in any parts.  The first error is
final: what was assembled is discarded, and every later call fails with the same error.

Before a part is looked at, and once more at the end, the caller is asked whether to stop.  The
answer is an argument of the call.

Main definitions:

* `DocCodec.Decoder` — **the state of a decoding**;
* `DocCodec.Decoder.write` — takes in a part of the text;
* `DocCodec.Decoder.finish` — **the root of the text**, at its end.
-/

import DocCodec.Assembly
import DocCodec.Scanner.Feed

set_option relaxedAutoImplicit false
set_option autoImplicit false

namespace DocCodec

/-- **The state of a decoding.** -/
structure Decoder where
  scanner : Scanner := {}
  assembly : Assembly := {}
  /-- The first error, which is final. -/
  failure : Option DecodeError := none
  deriving Repr

namespace Decoder

/-- How many containers are open. -/
def depth (d : Decoder) : Nat := d.assembly.depth

/-- The assembly as a listener. -/
def listen : Scanner.Listener Assembly DecodeError := fun assembly event _ => assembly.handle event

/-- The error that a scan stopped with. -/
def errorOf : Scanner.Stop DecodeError → DecodeError
  | .fault error => .ofSyntax error
  | .refused reason => reason

/-- Makes an error final and discards what was assembled. -/
def poison (d : Decoder) (error : DecodeError) : Decoder × Option DecodeError :=
  ({ d with assembly := d.assembly.reset, failure := some error }, some error)

/-- Takes in a part of the text, unless the caller has it stopped. -/
def write (d : Decoder) (stopped : Bool) (part : Bytes) : Decoder × Option DecodeError :=
  match d with
  | ⟨scanner, assembly, some error⟩ => (⟨scanner, assembly, some error⟩, some error)
  | ⟨scanner, assembly, none⟩ =>
    if stopped then poison ⟨scanner, assembly, none⟩ .aborted
    else
      match Scanner.feed listen scanner assembly part with
      | ⟨scanner, assembly, none⟩ => (⟨scanner, assembly, none⟩, none)
      | ⟨scanner, assembly, some stop⟩ => poison ⟨scanner, assembly, none⟩ (errorOf stop)

/-- **The root of the text**, which must be complete. -/
def finish (d : Decoder) (stopped : Bool) : Except DecodeError Container :=
  match d.failure with
  | some error => .error error
  | none =>
    if stopped then .error .aborted
    else
      match Scanner.close listen d.scanner d.assembly with
      | ⟨_, _, some stop⟩ => .error (errorOf stop)
      | ⟨_, assembly, none⟩ =>
        if assembly.depth ≠ 0 then .error .incompleteInput
        else
          match assembly.result with
          | some root => .ok root
          | none => .error .incompleteInput

end Decoder

end DocCodec
