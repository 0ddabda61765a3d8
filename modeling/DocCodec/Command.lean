/-
**The command that reformats a JSON file.**

The command reads a text, decodes it, and prints what it holds in the form in which documents are
written, with a line feed after it.  A text that is not decoded is reported with the status 2, and
a missing argument with the status 1.

Main definitions:

* `DocCodec.Command.Outcome` — what the command prints, and its exit status;
* `DocCodec.Command.reformat` — **the outcome for a given source**;
* `DocCodec.Command.usage` — the outcome without an argument.
-/

import DocCodec.Encoder
import DocCodec.Source

set_option relaxedAutoImplicit false
set_option autoImplicit false

namespace DocCodec.Command

/-- What a run of the command prints, and its exit status. -/
structure Outcome where
  status : UInt8
  output : Bytes
  errors : Bytes
  deriving DecidableEq, Repr

/-- The outcome of a failure: a line on the error output. -/
def failure (status : UInt8) (message : String) : Outcome :=
  ⟨status, [], Utf8.encode message ++ [Ascii.newline]⟩

/-- The outcome without an argument. -/
def usage : Outcome := failure 1 "Usage: bsonjson_cat <file.json>"

/-- The outcome if the file of the given name cannot be opened. -/
def cannotOpen (path reason : String) : Outcome :=
  failure 1 ("Cannot open " ++ path ++ ": " ++ reason)

/-- **The outcome for a given source.** -/
def reformat (readings : List Reading) : Outcome :=
  match decodeReadings .never (retrying readings) with
  | .ok root => ⟨0, root.toJson ++ [Ascii.newline], []⟩
  | .error error => failure 2 ("Error: " ++ error.message)

/-- The outcome for a file with the given content. -/
def reformatText (text : Bytes) : Outcome := reformat (ChunkReader.ofBytes text none).readings

end DocCodec.Command
