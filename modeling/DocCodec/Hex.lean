/-
**Hexadecimal digits.**

A byte is written as two lower-case digits, the high half first; digits are read in either case.
The same digits serve object ids, the subtype of binary data and the `\u` escapes of string
literals.

Main definitions:

* `DocCodec.Hex.value?`, `DocCodec.Hex.digit` — reading and writing one digit;
* `DocCodec.Hex.ofBytes`, `DocCodec.Hex.toBytes?` — byte strings as pairs of digits;
* `DocCodec.Hex.Engine`, `DocCodec.Hex.encodeInto` — what fills a buffer with digits;
* `DocCodec.Hex.four?` — the number written by four digits.

Main results:

* `DocCodec.Hex.toBytes?_ofBytes` — the digits of a byte string are read as that byte string.
-/

import DocCodec.Ascii
import DocCodec.Bytes

set_option relaxedAutoImplicit false
set_option autoImplicit false

namespace DocCodec.Hex

/-! ### One digit -/

/-- The value of a hexadecimal digit of either case. -/
def value? (b : UInt8) : Option Nat :=
  if Ascii.byte '0' ≤ b ∧ b ≤ Ascii.byte '9' then some (b.toNat - 48)
  else if Ascii.byte 'a' ≤ b ∧ b ≤ Ascii.byte 'f' then some (b.toNat - 87)
  else if Ascii.byte 'A' ≤ b ∧ b ≤ Ascii.byte 'F' then some (b.toNat - 55)
  else none

/-- Whether a byte is a hexadecimal digit. -/
def isDigit (b : UInt8) : Bool := (value? b).isSome

/-- The lower-case digit for a value below sixteen. -/
def digit (n : Nat) : UInt8 := UInt8.ofNat (if n < 10 then 48 + n else 87 + n)

theorem value?_digit : ∀ n < 16, value? (digit n) = some n := by decide

/-! ### Byte strings -/

/-- The two digits of a byte. -/
def pair (b : UInt8) : Bytes := [digit (b.toNat / 16), digit (b.toNat % 16)]

/-- The digits of a byte string. -/
def ofBytes (bytes : Bytes) : Bytes := bytes.flatMap pair

/-- The byte string that pairs of digits stand for. -/
def toBytes? : Bytes → Option Bytes
  | [] => some []
  | high :: low :: rest => do
    let h ← value? high
    let l ← value? low
    let bytes ← toBytes? rest
    return UInt8.ofNat (16 * h + l) :: bytes
  | [_] => none

/-- The digits of a byte string stand for it. -/
@[simp] theorem toBytes?_ofBytes (bytes : Bytes) : toBytes? (ofBytes bytes) = some bytes := by
  induction bytes with
  | nil => rfl
  | cons b rest ih =>
    have hb := b.toNat_lt
    have high := value?_digit (b.toNat / 16) (by omega)
    have low := value?_digit (b.toNat % 16) (by omega)
    have whole : UInt8.ofNat (16 * (b.toNat / 16) + b.toNat % 16) = b := by
      rw [Nat.div_add_mod, UInt8.ofNat_toNat]
    unfold ofBytes at ih
    simp only [ofBytes, List.flatMap_cons, pair, List.cons_append, List.nil_append,
      toBytes?, high, low, ih, Option.bind_eq_bind, Option.bind_some, whole]
    rfl

@[simp] theorem length_ofBytes (bytes : Bytes) : (ofBytes bytes).length = 2 * bytes.length := by
  induction bytes with
  | nil => rfl
  | cons b rest ih =>
    unfold ofBytes at ih
    simp only [ofBytes, List.flatMap_cons, pair, List.length_append, ih, List.length_cons,
      List.length_nil]
    omega

/-! ### Into a buffer -/

/-- What is given a buffer and a byte string and fills the buffer with the digits: the buffer
afterwards, unless it is refused. -/
abbrev Engine := Bytes → Bytes → Option Bytes

/-- Fills a buffer that has just the size for the digits of a byte string. -/
def encodeInto (buffer bytes : Bytes) : Option Bytes :=
  if buffer.length = 2 * bytes.length then some (ofBytes bytes) else none

/-- The buffer that an engine was given; one that it refuses stays as it is. -/
def Engine.fill (engine : Engine) (buffer bytes : Bytes) : Bytes := (engine buffer bytes).getD buffer

theorem fill_encodeInto {buffer bytes : Bytes} (h : buffer.length = 2 * bytes.length) :
    Engine.fill encodeInto buffer bytes = ofBytes bytes := by
  rw [Engine.fill, encodeInto, if_pos h, Option.getD_some]

/-! ### Four digits -/

/-- The number that four digits stand for, most significant first. -/
def four? (a b c d : UInt8) : Option Nat := do
  let a ← value? a
  let b ← value? b
  let c ← value? c
  let d ← value? d
  return ((a * 16 + b) * 16 + c) * 16 + d

end DocCodec.Hex
