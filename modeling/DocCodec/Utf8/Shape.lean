/-
**The shape of multi-byte sequences.**

String values may hold any bytes, and string literals pass them on without asking whether they are
UTF-8.  All that both directions look at is the outer shape of a sequence: a lead byte announces
by its upper bits how many continuation bytes follow it.  At any point of a byte string, what
begins there is a whole sequence, or one that the end of the bytes cuts off, or a stray byte,
which begins none or is not followed by what it announces.  Only a sequence of continuation bytes
counts as cut off: a lead byte before any other byte is stray, however near the end is.

Main definitions:

* `DocCodec.Utf8.sequenceLength`, `DocCodec.Utf8.isContinuation` — the two kinds of bytes;
* `DocCodec.Utf8.shape` — **what begins at a point of a byte string**;
* `DocCodec.Utf8.pieces` — a byte string cut into whole sequences, stray bytes and a cut-off tail.
-/

import DocCodec.Bytes

set_option relaxedAutoImplicit false
set_option autoImplicit false

namespace DocCodec.Utf8

/-! ### Lead bytes and continuation bytes -/

/-- The length of the sequence that a lead byte announces, and zero for a byte that is no lead. -/
def sequenceLength (lead : UInt8) : Nat :=
  if lead < 0x80 then 1
  else if lead < 0xC0 then 0
  else if lead < 0xE0 then 2
  else if lead < 0xF0 then 3
  else if lead < 0xF8 then 4
  else 0

/-- Whether a byte continues a sequence. -/
def isContinuation (b : UInt8) : Bool := decide (0x80 ≤ b) && decide (b < 0xC0)

/-! ### What begins at a point -/

/-- What begins at a point of a byte string. -/
inductive Shape
  /-- A lead byte and the `trailing` continuation bytes that it announces. -/
  | whole (trailing : Nat)
  /-- A byte that begins no sequence. -/
  | stray
  /-- A lead byte followed by fewer continuation bytes than it announces, and then the end. -/
  | cut
  deriving DecidableEq, Repr

/-- **What begins at a point of a byte string**, given the byte there and those after it. -/
def shape (lead : UInt8) (rest : Bytes) : Shape :=
  match sequenceLength lead with
  | 0 => .stray
  | trailing + 1 =>
    let present := rest.take trailing
    if present.all isContinuation then
      if present.length = trailing then .whole trailing else .cut
    else .stray

theorem sequenceLength_of_ascii {b : UInt8} (h : b < 0x80) : sequenceLength b = 1 := by
  rw [sequenceLength, if_pos h]

/-- A continuation byte begins no sequence. -/
theorem shape_continuation {b : UInt8} (h : isContinuation b = true) (rest : Bytes) :
    shape b rest = .stray := by
  simp only [isContinuation, Bool.and_eq_true, decide_eq_true_eq] at h
  have hlength : sequenceLength b = 0 := by
    rw [sequenceLength, if_neg (UInt8.not_lt.2 h.1), if_pos h.2]
  rw [shape, hlength]

/-- A lead byte and the continuation bytes that it announces. -/
theorem shape_eq_whole_iff (lead : UInt8) (rest : Bytes) (trailing : Nat) :
    shape lead rest = .whole trailing ↔
      sequenceLength lead = trailing + 1 ∧ trailing ≤ rest.length ∧
        ∀ b ∈ rest.take trailing, isContinuation b = true := by
  unfold shape
  split
  · next h => simp [h]
  · next announced h =>
      simp only [List.length_take, List.all_eq_true]
      constructor
      · intro hshape
        split at hshape
        · next hall =>
            split at hshape
            · next hlength =>
                cases hshape
                exact ⟨h, by omega, hall⟩
            · cases hshape
        · cases hshape
      · rintro ⟨hlength, hle, hall⟩
        obtain rfl : announced = trailing := by omega
        rw [if_pos hall, if_pos (Nat.min_eq_left hle)]

/-- Only continuation bytes follow the lead byte of a sequence that is cut off. -/
theorem isContinuation_of_cut {lead : UInt8} {rest : Bytes}
    (h : shape lead rest = .cut) : ∀ b ∈ rest, isContinuation b = true := by
  unfold shape at h
  split at h
  · cases h
  · next trailing _ =>
      simp only at h
      split at h
      · next hall =>
          split at h
          · cases h
          · next hlength =>
              have htake : rest.take trailing = rest := by
                rw [List.length_take] at hlength
                exact List.take_of_length_le (by omega)
              rw [htake] at hall
              exact List.all_eq_true.1 hall
      · cases h

/-! ### Pieces -/

/-- A piece of a byte string. -/
inductive Piece
  /-- A lead byte with the continuation bytes that it announces. -/
  | whole (lead : UInt8) (trailing : Bytes)
  /-- A byte that begins no sequence. -/
  | stray (byte : UInt8)
  /-- A sequence that the end cuts off. -/
  | cut (bytes : Bytes)
  deriving DecidableEq, Repr

/-- The bytes of a piece. -/
def Piece.bytes : Piece → Bytes
  | .whole lead trailing => lead :: trailing
  | .stray byte => [byte]
  | .cut bytes => bytes

/-- The pieces of a byte string, left to right. -/
def pieces (bytes : Bytes) : List Piece :=
  match bytes with
  | [] => []
  | b :: rest =>
    match shape b rest with
    | .whole trailing => .whole b (rest.take trailing) :: pieces (rest.drop trailing)
    | .stray => .stray b :: pieces rest
    | .cut => [.cut (b :: rest)]
termination_by bytes.length
decreasing_by all_goals simp only [List.length_drop, List.length_cons]; omega

/-- The pieces of a byte string join up to it. -/
@[simp] theorem flatMap_bytes_pieces (bytes : Bytes) :
    (pieces bytes).flatMap Piece.bytes = bytes := by
  fun_induction pieces bytes with
  | case1 => rfl
  | case2 b rest trailing h ih => simp [Piece.bytes, ih]
  | case3 b rest h ih => simp [Piece.bytes, ih]
  | case4 b rest h => simp [Piece.bytes]

end DocCodec.Utf8
