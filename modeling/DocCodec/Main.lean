/-
**The command line.**

The only part of the library that reads files and prints.  It hands the contents of the named file
to the command in the parts in which it reads them, and prints the outcome.
-/

import DocCodec.Command

set_option relaxedAutoImplicit false
set_option autoImplicit false

namespace DocCodec.Command

/-- What the requests to an open file give, in reverse and after those in `given`. -/
partial def readAll (file : IO.FS.Handle) (given : List Reading) : IO (List Reading) := do
  let reading ← try
      pure (Reading.bytes (← file.read readBuffer.toUSize).data.toList)
    catch error =>
      match error with
      | .interrupted .. => pure Reading.interrupted
      | _ => pure Reading.failed
  match reading with
  | .bytes (_ :: _) | .interrupted => readAll file (reading :: given)
  | _ => return reading :: given

/-- The outcome for the file of the given name. -/
def reformatFile (path : String) : IO Outcome := do
  let file ← try
      let file ← IO.FS.Handle.mk path .read
      pure (Except.ok file)
    catch error => pure (Except.error error)
  match file with
  | .ok file => return reformat (← readAll file []).reverse
  | .error error => return cannotOpen path (toString error)

end DocCodec.Command

/-- Reformats the file that is named by the first argument. -/
def main (arguments : List String) : IO UInt32 := do
  let outcome ← match arguments with
    | [] => pure DocCodec.Command.usage
    | path :: _ => DocCodec.Command.reformatFile path
  let output ← IO.getStdout
  let errors ← IO.getStderr
  output.write ⟨outcome.output.toArray⟩
  output.flush
  errors.write ⟨outcome.errors.toArray⟩
  return outcome.status.toUInt32
