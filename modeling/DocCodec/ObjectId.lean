/-
**Object ids.**

An object id is an opaque identifier of twelve bytes.  Its text is 24 hexadecimal digits, written
in lower case and read in either.

Main definitions:

* `DocCodec.ObjectId` — an object id;
* `DocCodec.ObjectId.toHex`, `DocCodec.ObjectId.ofHex?` — its text, written and read.

Main results:

* `DocCodec.ObjectId.ofHex?_toHex` — the text of an object id is read as that object id.
-/

import DocCodec.Hex

set_option relaxedAutoImplicit false
set_option autoImplicit false

namespace DocCodec

/-- An object id. -/
structure ObjectId where
  bytes : Bytes
  length_bytes : bytes.length = 12
  deriving DecidableEq, Repr

namespace ObjectId

/-- The object id of twelve bytes. -/
def ofBytes? (bytes : Bytes) : Option ObjectId :=
  if h : bytes.length = 12 then some ⟨bytes, h⟩ else none

/-- The object id whose bytes are all zero. -/
def zero : ObjectId := ⟨List.replicate 12 0, rfl⟩

/-- The 24 digits of an object id, in a buffer that an engine fills. -/
def toHexBy (engine : Hex.Engine) (id : ObjectId) : Bytes :=
  engine.fill (List.replicate 24 Ascii.zero) id.bytes

/-- The 24 digits of an object id. -/
def toHex (id : ObjectId) : Bytes := id.toHexBy Hex.encodeInto

/-- The object id of 24 digits of either case. -/
def ofHex? (text : Bytes) : Option ObjectId := (Hex.toBytes? text).bind ofBytes?

theorem length_buffer (id : ObjectId) :
    (List.replicate 24 Ascii.zero).length = 2 * id.bytes.length := by
  rw [id.length_bytes]
  rfl

theorem toHex_eq_ofBytes (id : ObjectId) : id.toHex = Hex.ofBytes id.bytes :=
  Hex.fill_encodeInto id.length_buffer

/-- The text of an object id is read as that object id. -/
@[simp] theorem ofHex?_toHex (id : ObjectId) : ofHex? id.toHex = some id := by
  rw [ofHex?, toHex_eq_ofBytes, Hex.toBytes?_ofBytes, Option.bind_some, ofBytes?,
    dif_pos id.length_bytes]

end ObjectId

end DocCodec
