/-
**Typed documents.**

A document is a list of entries, each a key and a value; the order is part of the document, and
keys may repeat.  An array is a list of values.  Most values are scalars: numbers of three kinds,
texts, and the special types of the document format.  A string, a piece of code and a symbol hold
any bytes; keys, the parts of a regular expression and the name of a collection are texts.  Code
with a scope carries a whole document, and documents and arrays nest.

Main definitions:

* `DocCodec.Scalar` — the seventeen kinds of values without inner values;
* `DocCodec.Value` — **a value**: a scalar, code with a scope, a document or an array;
* `DocCodec.Document` — the entries of a document, with `append`, `get?` and `keys`;
* `DocCodec.Container` — the root of a text: a document or an array;
* `DocCodec.Value.kindName` — the name of a kind of values;
* `DocCodec.Value.equals` — equality, where doubles are compared as numbers.
-/

import DocCodec.Binary64
import DocCodec.ObjectId

set_option relaxedAutoImplicit false
set_option autoImplicit false

namespace DocCodec

/-! ### Scalars -/

/-- A value that holds no other values. -/
inductive Scalar
  | double (number : Binary64)
  | string (content : Bytes)
  | binary (subtype : UInt8) (content : Bytes)
  | undefined
  | objectId (id : ObjectId)
  | boolean (truth : Bool)
  /-- Milliseconds since the epoch. -/
  | date (milliseconds : Int64)
  | null
  | regex (pattern options : String)
  | dbPointer (collection : String) (id : Option ObjectId)
  | code (content : Bytes)
  | symbol (content : Bytes)
  | int32 (number : Int32)
  /-- Seconds since the epoch and the position within the second. -/
  | timestamp (seconds ordinal : UInt32)
  | int64 (number : Int64)
  | minKey
  | maxKey
  deriving DecidableEq, Repr

namespace Scalar

/-- The name of the kind of a scalar. -/
def kindName : Scalar → String
  | double _ => "double"
  | string _ => "string"
  | binary _ _ => "binary"
  | undefined => "undefined"
  | objectId _ => "objectId"
  | boolean _ => "bool"
  | date _ => "date"
  | null => "null"
  | regex _ _ => "regex"
  | dbPointer _ _ => "dbPointer"
  | code _ => "code"
  | symbol _ => "symbol"
  | int32 _ => "int"
  | timestamp _ _ => "timestamp"
  | int64 _ => "long"
  | minKey => "minKey"
  | maxKey => "maxKey"

/-- Equality of scalars, where doubles are compared as numbers. -/
def equals : Scalar → Scalar → Bool
  | double x, double y => x.equals y
  | x, y => decide (x = y)

end Scalar

/-! ### Values -/

/-- **A value.** -/
inductive Value
  | scalar (content : Scalar)
  | codeWithScope (content : Bytes) (scope : List (String × Value))
  | document (entries : List (String × Value))
  | array (items : List Value)
  deriving Repr

/-- The entries of a document, in order. -/
abbrev Document := List (String × Value)

namespace Document

/-- A document with one entry more, at the end. -/
def append (document : Document) (key : String) (value : Value) : Document :=
  document ++ [(key, value)]

/-- The value of the first entry with the given key. -/
def get? (document : Document) (key : String) : Option Value :=
  (document.find? fun entry => entry.1 == key).map Prod.snd

/-- The keys of a document, in order, as often as they occur. -/
def keys (document : Document) : List String := document.map Prod.fst

end Document

namespace Value

/-- The name of the kind of a value. -/
def kindName : Value → String
  | scalar content => content.kindName
  | codeWithScope _ _ => "codeWithScope"
  | document _ => "document"
  | array _ => "array"

/-- The entries of a value that is a document. -/
def document? : Value → Option Document
  | document entries => some entries
  | _ => none

/-- The items of a value that is an array. -/
def array? : Value → Option (List Value)
  | array items => some items
  | _ => none

/-! ### Equality -/

mutual

/-- Equality of values, where doubles are compared as numbers. -/
def equals : Value → Value → Bool
  | scalar x, scalar y => x.equals y
  | codeWithScope x xs, codeWithScope y ys => decide (x = y) && equalEntries xs ys
  | document xs, document ys => equalEntries xs ys
  | array xs, array ys => equalItems xs ys
  | _, _ => false

/-- Equality of entries: the same keys in the same order, with equal values. -/
def equalEntries : List (String × Value) → List (String × Value) → Bool
  | [], [] => true
  | (key, x) :: xs, (key', y) :: ys => decide (key = key') && equals x y && equalEntries xs ys
  | _, _ => false

/-- Equality of items, one by one. -/
def equalItems : List Value → List Value → Bool
  | [], [] => true
  | x :: xs, y :: ys => equals x y && equalItems xs ys
  | _, _ => false

end

end Value

/-! ### Roots -/

/-- The root of a text: a document or an array. -/
inductive Container
  | document (entries : Document)
  | array (items : List Value)
  deriving Repr

namespace Container

/-- A container as a value. -/
def toValue : Container → Value
  | document entries => .document entries
  | array items => .array items

/-- The entries of a container that is a document. -/
def document? : Container → Option Document
  | document entries => some entries
  | array _ => none

/-- The items of a container that is an array. -/
def array? : Container → Option (List Value)
  | document _ => none
  | array items => some items

end Container

end DocCodec
