/-
**Byte strings.**

Input, output and the contents of strings and binary data are byte strings.  Nothing is assumed
about their encoding: a string value may hold any bytes.

Main definitions:

* `DocCodec.Bytes` — a byte string;
* `DocCodec.Bytes.parts` — a byte string cut into parts of a given size.
-/

set_option relaxedAutoImplicit false
set_option autoImplicit false

namespace DocCodec

/-- A byte string. -/
abbrev Bytes := List UInt8

/-- A byte string cut into parts of `size` bytes, of which only the last may be shorter.  Every part
holds one byte at least, so a size of zero counts as one. -/
def Bytes.parts (bytes : Bytes) (size : Nat) : List Bytes :=
  match bytes with
  | [] => []
  | b :: rest => (b :: rest.take (size - 1)) :: Bytes.parts (rest.drop (size - 1)) size
termination_by bytes.length
decreasing_by simp only [List.length_drop, List.length_cons]; omega

/-- The parts of a byte string join up to the whole. -/
@[simp] theorem Bytes.flatten_parts (bytes : Bytes) (size : Nat) :
    (bytes.parts size).flatten = bytes := by
  fun_induction Bytes.parts bytes size with
  | case1 => rfl
  | case2 b rest ih => simp [ih]

/-- The parts of a byte string are not empty, and not too long. -/
theorem Bytes.length_of_mem_parts {bytes part : Bytes} {size : Nat} (hsize : 0 < size)
    (h : part ∈ bytes.parts size) : 0 < part.length ∧ part.length ≤ size := by
  fun_induction Bytes.parts bytes size with
  | case1 => cases h
  | case2 b rest ih =>
    rcases List.mem_cons.1 h with rfl | h
    · simp only [List.length_cons, List.length_take]
      omega
    · exact ih h

/-- What holds of the first 256 numbers as bytes holds of every byte. -/
theorem Bytes.forall_of_ofNat {P : UInt8 → Prop} (h : ∀ n < 256, P (UInt8.ofNat n)) (b : UInt8) :
    P b := by
  rw [← UInt8.ofNat_toNat (x := b)]
  exact h b.toNat b.toNat_lt

/-- Bytes may be appended to an array in two parts. -/
theorem Bytes.append_append (array : Array UInt8) (first second : Bytes) :
    array ++ first ++ second = array ++ (first ++ second) := Array.ext' (by simp)

@[simp] theorem Bytes.size_append (array : Array UInt8) (bytes : Bytes) :
    (array ++ bytes).size = array.size + bytes.length := by
  rw [← Array.length_toList]
  simp

end DocCodec
