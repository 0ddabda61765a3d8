/-
**Why a text is not decoded.**

Reading a document can fail for the sake of the text, of the source it comes from, or of the
caller, who may have it stopped.  Syntax errors that only mean that the input ends too early, that
it nests too deeply or that its root is no container are reported as such; all others are passed
on whole.

The assembly of a document from events also knows what is wrong with a sequence of events that no
text raises, such as a key within an array.  These are the disorders.

Main definitions:

* `DocCodec.Disorder` — what is wrong with a sequence of events, or with a source;
* `DocCodec.DecodeError` — **why a text is not decoded**;
* `DocCodec.DecodeError.ofSyntax` — the report of a syntax error;
* `DocCodec.DecodeError.message` — the wording.
-/

import DocCodec.SyntaxError
import DocCodec.Utf8

set_option relaxedAutoImplicit false
set_option autoImplicit false

namespace DocCodec

/-- What is wrong with a sequence of events, or with a source. -/
inductive Disorder
  /-- A key while no container is open. -/
  | keyOutsideObject
  /-- A key within an array. -/
  | keyInsideArray
  /-- The end of a container while none is open. -/
  | closeWithoutOpen
  /-- The end of a container of the other kind. -/
  | closeMismatch
  /-- A value within an object without a key before it. -/
  | valueWithoutKey
  /-- A source that reports more bytes than its buffer holds. -/
  | overlongRead
  deriving DecidableEq, Repr

/-- The wording of a disorder. -/
def Disorder.message : Disorder → String
  | keyOutsideObject => "Key outside of an object"
  | keyInsideArray => "Key inside an array"
  | closeWithoutOpen => "Close without open container"
  | closeMismatch => "Close does not match open container"
  | valueWithoutKey => "Object value without key"
  | overlongRead => "Reader returned more than buffer length"

/-- **Why a text is not decoded.** -/
inductive DecodeError
  /-- The text is not well-formed. -/
  | parseSyntaxError (error : SyntaxError)
  /-- More containers are open at a time than are allowed. -/
  | nestingTooDeep
  /-- The input ends while a container is open, or without a root. -/
  | incompleteInput
  /-- The root is no object and no array. -/
  | invalidRoot
  /-- An integer does not fit into 64 bits. -/
  | integerOverflow
  /-- A key or a string has an escape that stands for no character. -/
  | malformedEscape
  /-- The text of a number with a fraction or an exponent denotes none. -/
  | invalidNumber
  /-- A key is not UTF-8. -/
  | invalidUtf8 (defect : Utf8.Defect)
  /-- The source failed. -/
  | readerError
  /-- The caller had the reading stopped. -/
  | aborted
  /-- The events or the source are out of order. -/
  | unexpectedState (disorder : Disorder)
  deriving DecidableEq, Repr

namespace DecodeError

/-- The report of a syntax error. -/
def ofSyntax (error : SyntaxError) : DecodeError :=
  match error.fault with
  | .emptyStream | .unfinishedStream => incompleteInput
  | .maxDepthReached => nestingTooDeep
  | .invalidRoot => invalidRoot
  | _ => parseSyntaxError error

/-- The name of an error. -/
def name : DecodeError → String
  | parseSyntaxError _ => "ParseSyntaxError"
  | nestingTooDeep => "NestingTooDeep"
  | incompleteInput => "IncompleteInput"
  | invalidRoot => "InvalidRoot"
  | integerOverflow => "IntegerOverflow"
  | malformedEscape => "MalformedEscape"
  | invalidNumber => "InvalidNumber"
  | invalidUtf8 _ => "InvalidUtf8"
  | readerError => "ReaderError"
  | aborted => "Aborted"
  | unexpectedState _ => "UnexpectedState"

/-- The wording of an error: its name, unless there is more to say. -/
def message : DecodeError → String
  | parseSyntaxError error => "syntax error: " ++ error.message
  | invalidUtf8 defect => "invalid UTF-8 in key: " ++ defect.message
  | unexpectedState disorder => "unexpected state: " ++ disorder.message
  | error => error.name

end DecodeError

end DocCodec
