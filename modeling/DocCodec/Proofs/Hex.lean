/-
**Hexadecimal digits by their alphabet.**

The texts of bytes are computed digit by digit.  In the standard text a digit is a character of an
alphabet instead, and the character at an index stands for one half of a byte, the high half first;
a digit that is read has the place of its character as its value.

What fills the buffers of object ids and of escapes with digits need not be known.  It is enough
that it does so whenever the buffer has just the size for them, and these buffers always have.

Main definitions:

* `DocCodec.Hex.standard` — **the standard text** of a byte string, index by index;
* `DocCodec.Hex.place`, `DocCodec.Hex.lower` — the value of a digit of either case, and the digit in
  lower case;
* `DocCodec.Hex.Engine.Standard` — what is expected of what fills a buffer.

Main results:

* `DocCodec.Hex.ofBytes_eq_standard` — two digits for every byte give the standard text;
* `DocCodec.Hex.toBytes?_eq_some_iff`, `DocCodec.ObjectId.ofHex?_eq_some_iff` — **the standard text
  is read**, in either case, and no other;
* `DocCodec.Hex.four?_eq` — four digits stand for their places to the base sixteen;
* `DocCodec.ObjectId.toHexBy_eq_standard`, `DocCodec.Literal.controlEscapeBy_eq_standard` — **what
  is written does not depend on what fills the buffer**.
-/

import DocCodec.Literal.Escape
import DocCodec.ObjectId
import DocCodec.Utf8

set_option relaxedAutoImplicit false
set_option autoImplicit false

namespace DocCodec

namespace Hex

/-! ### The standard text -/

/-- The digits that are written, in the order of their values. -/
def lowerCase : Bytes := Utf8.encode "0123456789abcdef"

/-- The half of a byte that the digit at an index stands for, the high half of each byte first. -/
def half (bytes : Bytes) (index : Nat) : Nat :=
  bytes[index / 2]?.elim 0 fun b => if index % 2 = 0 then b.toNat / 16 else b.toNat % 16

/-- **The standard text** of a byte string: two digits for every byte. -/
def standard (bytes : Bytes) : Bytes :=
  (List.range (2 * bytes.length)).map fun index => lowerCase.getD (half bytes index) Ascii.zero

theorem lowerCase_getD : ∀ n < 16, lowerCase.getD n Ascii.zero = digit n := by decide

/-- Behind a byte the indices of the others begin anew. -/
theorem half_behind (b : UInt8) (rest : Bytes) (index : Nat) :
    half (b :: rest) (2 + index) = half rest index := by
  have hbyte : (2 + index) / 2 = index / 2 + 1 := by omega
  have hpart : (2 + index) % 2 = index % 2 := by omega
  rw [half, half, hbyte, hpart]
  rfl

/-- A byte has two digits, whatever follows it. -/
theorem standard_cons (b : UInt8) (rest : Bytes) :
    standard (b :: rest) = pair b ++ standard rest := by
  have hb := b.toNat_lt
  have hlength : 2 * (b :: rest).length = 2 + 2 * rest.length := by
    rw [List.length_cons]
    omega
  have htwo : (List.range 2).map (fun index => lowerCase.getD (half (b :: rest) index) Ascii.zero) =
      pair b := by
    have hhigh := lowerCase_getD (b.toNat / 16) (by omega)
    have hlow := lowerCase_getD (b.toNat % 16) (by omega)
    rw [pair, ← hhigh, ← hlow]
    rfl
  rw [standard, hlength, List.range_add, List.map_append, List.map_map, htwo]
  refine congrArg (pair b ++ ·) (List.map_congr_left ?_)
  intro index _
  exact congrArg (fun n => lowerCase.getD n Ascii.zero) (half_behind b rest index)

/-- **Two digits for every byte** give the standard text. -/
theorem ofBytes_eq_standard (bytes : Bytes) : ofBytes bytes = standard bytes := by
  induction bytes with
  | nil => rfl
  | cons b rest ih => rw [standard_cons, ← ih, ofBytes, ofBytes, List.flatMap_cons]

theorem pair_eq_standard (b : UInt8) : pair b = standard [b] := by
  rw [← ofBytes_eq_standard, ofBytes, List.flatMap_singleton]

/-! ### Digits that are read -/

/-- The digits in upper case, in the order of their values. -/
def upperCase : Bytes := Utf8.encode "0123456789ABCDEF"

/-- The value of a digit: its place among the digits of its case.  No other byte has a place below
sixteen. -/
def place (b : UInt8) : Nat := min (lowerCase.idxOf b) (upperCase.idxOf b)

/-- The value of a digit is its place. -/
theorem value?_eq : ∀ b, value? b = if place b < 16 then some (place b) else none :=
  Bytes.forall_of_ofNat (by decide +kernel)

/-- The digits are those of the two alphabets. -/
theorem isDigit_iff (b : UInt8) : isDigit b = true ↔ b ∈ lowerCase ∨ b ∈ upperCase := by
  have hlower : lowerCase.length = 16 := by decide
  have hupper : upperCase.length = 16 := by decide
  have hplace : place b < 16 ↔ b ∈ lowerCase ∨ b ∈ upperCase := by
    rw [← List.idxOf_lt_length_iff, ← List.idxOf_lt_length_iff, hlower, hupper, place]
    omega
  rw [← hplace, isDigit, value?_eq]
  split <;> simp_all

/-- The digits are printable ASCII. -/
theorem bounds_of_isDigit {b : UInt8} (h : isDigit b = true) : 0x20 ≤ b ∧ b < 0x80 := by
  have hall : ∀ digit ∈ lowerCase ++ upperCase, 0x20 ≤ digit ∧ digit < 0x80 := by
    decide +kernel
  exact hall b (List.mem_append.2 ((isDigit_iff b).1 h))

/-- What is read of a byte is its place. -/
theorem place_of_value? {b : UInt8} {n : Nat} (h : value? b = some n) :
    place b < 16 ∧ n = place b := by
  rw [value?_eq] at h
  split at h
  · next hplace =>
      cases h
      exact ⟨hplace, rfl⟩
  · cases h

theorem value?_of_isDigit {b : UInt8} (h : isDigit b = true) :
    place b < 16 ∧ value? b = some (place b) := by
  obtain ⟨n, hn⟩ := Option.isSome_iff_exists.1 h
  obtain ⟨hplace, rfl⟩ := place_of_value? hn
  exact ⟨hplace, hn⟩

/-! ### Byte strings that are read -/

/-- A digit in lower case.  Any other byte stays as it is. -/
def lower (b : UInt8) : UInt8 := (lowerCase[place b]?).getD b

theorem lower_of_place_lt {b : UInt8} (h : place b < 16) : lower b = digit (place b) := by
  rw [← lowerCase_getD (place b) h, lower, List.getD_eq_getElem?_getD,
    List.getElem?_eq_getElem h, Option.getD_some, Option.getD_some]

theorem lower_of_le_place {b : UInt8} (h : 16 ≤ place b) : lower b = b := by
  rw [lower, List.getElem?_eq_none h, Option.getD_none]

/-- The digit of a value in either case is what is read as the value. -/
theorem value?_eq_some_iff {b : UInt8} {n : Nat} (hn : n < 16) :
    value? b = some n ↔ lower b = digit n := by
  rcases Nat.lt_or_ge (place b) 16 with hplace | hplace
  · rw [value?_eq, if_pos hplace, lower_of_place_lt hplace]
    constructor
    · rintro ⟨⟩
      rfl
    · intro h
      rw [← value?_digit (place b) hplace, h, value?_digit n hn]
  · rw [lower_of_le_place hplace]
    constructor
    · intro h
      exact absurd (place_of_value? h).1 (Nat.not_lt.2 hplace)
    · rintro rfl
      exact value?_digit n hn

/-- A pair of digits of either case is what is read as a byte. -/
theorem toBytes?_cons_eq_some_iff {high low b : UInt8} {rest bytes : Bytes} :
    toBytes? (high :: low :: rest) = some (b :: bytes) ↔
      [high, low].map lower = pair b ∧ toBytes? rest = some bytes := by
  have hb := b.toNat_lt
  have hpair : [high, low].map lower = pair b ↔
      value? high = some (b.toNat / 16) ∧ value? low = some (b.toNat % 16) := by
    rw [value?_eq_some_iff (by omega), value?_eq_some_iff (by omega)]
    simp [pair]
  rw [hpair]
  constructor
  · intro h
    simp only [toBytes?, Option.bind_eq_bind, Option.bind_eq_some_iff] at h
    obtain ⟨first, hfirst, second, hsecond, more, hmore, h⟩ := h
    cases h
    obtain ⟨hhigh, rfl⟩ := place_of_value? hfirst
    obtain ⟨hlow, rfl⟩ := place_of_value? hsecond
    have hnat : (UInt8.ofNat (16 * place high + place low)).toNat = 16 * place high + place low :=
      UInt8.toNat_ofNat_of_lt' (by simp only [UInt8.size]; omega)
    rw [hfirst, hsecond, hnat]
    exact ⟨⟨congrArg some (by omega), congrArg some (by omega)⟩, hmore⟩
  · rintro ⟨⟨hfirst, hsecond⟩, hmore⟩
    simp only [toBytes?, hfirst, hsecond, hmore, Option.bind_eq_bind, Option.bind_some,
      Nat.div_add_mod, UInt8.ofNat_toNat]
    rfl

/-- **A text is read as a byte string** just if it is the standard text, in either case. -/
theorem toBytes?_eq_some_iff (text bytes : Bytes) :
    toBytes? text = some bytes ↔ text.map lower = standard bytes := by
  -- Digits are read in pairs, so the texts with fewer than two of them are apart.
  induction bytes generalizing text with
  | nil =>
      rcases text with _ | ⟨high, _ | ⟨low, rest⟩⟩
      · exact iff_of_true rfl rfl
      · simp [toBytes?, standard]
      · simp [toBytes?, standard, Option.bind_eq_some_iff]
  | cons b bytes ih =>
      rw [standard_cons]
      rcases text with _ | ⟨high, _ | ⟨low, rest⟩⟩
      · simp [toBytes?, pair]
      · simp [toBytes?, pair]
      · rw [toBytes?_cons_eq_some_iff, ih rest]
        simp [pair, and_assoc]

/-! ### Four digits -/

/-- The number that four digits stand for: their places, to the base sixteen. -/
def number (a b c d : UInt8) : Nat := [a, b, c, d].foldl (fun n digit => 16 * n + place digit) 0

section

variable {a b c d : UInt8} (h : ∀ digit ∈ [a, b, c, d], isDigit digit = true)

include h

/-- Four digits stand for a number of sixteen bits. -/
theorem number_lt : number a b c d < 0x10000 := by
  have ha := (value?_of_isDigit (h a (by simp))).1
  have hb := (value?_of_isDigit (h b (by simp))).1
  have hc := (value?_of_isDigit (h c (by simp))).1
  have hd := (value?_of_isDigit (h d (by simp))).1
  simp only [number, List.foldl_cons, List.foldl_nil]
  omega

/-- **Four digits stand for their places to the base sixteen.** -/
theorem four?_eq : four? a b c d = some (number a b c d) := by
  have hvalue (digit : UInt8) (hdigit : digit ∈ [a, b, c, d]) :=
    (value?_of_isDigit (h digit hdigit)).2
  rw [four?, hvalue a (by simp), hvalue b (by simp), hvalue c (by simp), hvalue d (by simp)]
  simp only [Option.bind_eq_bind, Option.bind_some, number, List.foldl_cons, List.foldl_nil]
  exact congrArg some (by omega)

end

/-! ### What is expected of what fills a buffer -/

/-- **What is expected of what fills a buffer**: if the buffer has just the size for the digits of a
byte string, it holds their standard text afterwards. -/
def Engine.Standard (engine : Engine) : Prop :=
  ∀ buffer bytes, buffer.length = 2 * bytes.length → engine buffer bytes = some (standard bytes)

theorem standard_encodeInto : Engine.Standard encodeInto := by
  intro buffer bytes hsize
  rw [← ofBytes_eq_standard]
  exact if_pos hsize

theorem Engine.Standard.fill_eq {engine : Engine} (h : engine.Standard) {buffer bytes : Bytes}
    (hsize : buffer.length = 2 * bytes.length) : engine.fill buffer bytes = standard bytes := by
  rw [Engine.fill, h buffer bytes hsize, Option.getD_some]

end Hex

/-- **The text of an object id** is the standard text of its bytes, whatever fills the buffer. -/
theorem ObjectId.toHexBy_eq_standard {engine : Hex.Engine} (h : engine.Standard) (id : ObjectId) :
    id.toHexBy engine = Hex.standard id.bytes := h.fill_eq id.length_buffer

theorem ObjectId.toHex_eq_standard (id : ObjectId) : id.toHex = Hex.standard id.bytes :=
  id.toHexBy_eq_standard Hex.standard_encodeInto

/-- **An object id is read** from its text in either case, and from nothing else. -/
theorem ObjectId.ofHex?_eq_some_iff (text : Bytes) (id : ObjectId) :
    ofHex? text = some id ↔ text.map Hex.lower = Hex.standard id.bytes := by
  rw [← Hex.toBytes?_eq_some_iff, ofHex?, Option.bind_eq_some_iff]
  constructor
  · rintro ⟨bytes, hbytes, h⟩
    rw [ofBytes?] at h
    split at h
    · cases h
      exact hbytes
    · cases h
  · intro h
    exact ⟨id.bytes, h, dif_pos id.length_bytes⟩

/-- **The escape of a byte by its number** ends with the standard text of the byte, whatever fills
the buffer. -/
theorem Literal.controlEscapeBy_eq_standard {engine : Hex.Engine} (h : engine.Standard)
    (b : UInt8) : controlEscapeBy engine b = Utf8.encode "\\u00" ++ Hex.standard [b] := by
  rw [controlEscapeBy, h.fill_eq rfl]
  rfl

theorem Literal.controlEscape_eq_standard (b : UInt8) :
    controlEscape b = Utf8.encode "\\u00" ++ Hex.standard [b] :=
  controlEscapeBy_eq_standard Hex.standard_encodeInto b

end DocCodec
