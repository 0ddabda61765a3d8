/-
**Texts by their characters.**

The bytes of a text are the bytes of its characters, one after another.  Byte strings in ASCII are
valid UTF-8, each byte being a character.

Main results:

* `DocCodec.Utf8.encode_ofList` — the bytes of a text, character by character;
* `DocCodec.Utf8.exists_decode_of_ascii` — ASCII is valid UTF-8.
-/

import DocCodec.Utf8

set_option relaxedAutoImplicit false
set_option autoImplicit false

namespace DocCodec.Utf8

/-- The bytes of a text, character by character. -/
theorem encode_ofList (chars : List Char) :
    encode (String.ofList chars) = chars.flatMap String.utf8EncodeChar := by
  have h : (String.ofList chars).toUTF8 = (chars.flatMap String.utf8EncodeChar).toByteArray := rfl
  rw [encode, h, List.data_toByteArray]

theorem encode_eq_flatMap (text : String) :
    encode text = text.toList.flatMap String.utf8EncodeChar := by
  rw [← encode_ofList, String.ofList_toList]

/-- A byte of ASCII is a character. -/
theorem utf8EncodeChar_of_ascii {b : UInt8} (h : b < 0x80) :
    String.utf8EncodeChar (Char.ofNat b.toNat) = [b] := by
  have hlt : b.toNat < 128 := UInt8.lt_iff_toNat_lt.1 h
  have hvalid : b.toNat.isValidChar := .inl (by omega)
  have hval : (Char.ofNat b.toNat).val.toNat = b.toNat := by
    rw [Char.ofNat, dif_pos hvalid]
    rfl
  unfold String.utf8EncodeChar
  rw [hval, if_pos (by omega), UInt8.ofNat_toNat]

/-- ASCII is valid UTF-8. -/
theorem exists_decode_of_ascii {bytes : Bytes} (h : ∀ b ∈ bytes, b < 0x80) :
    ∃ text, decode bytes = .ok text := by
  refine ⟨String.ofList (bytes.map fun b => Char.ofNat b.toNat), ?_⟩
  have hencode : encode (String.ofList (bytes.map fun b => Char.ofNat b.toNat)) = bytes := by
    rw [encode_ofList]
    induction bytes with
    | nil => rfl
    | cons b bytes ih =>
        rw [List.map_cons, List.flatMap_cons, utf8EncodeChar_of_ascii (h b (by simp)),
          ih fun c hc => h c (by simp [hc])]
        rfl
  rw [← hencode, decode_encode, hencode]

end DocCodec.Utf8
