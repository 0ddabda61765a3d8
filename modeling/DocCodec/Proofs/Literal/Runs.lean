/-
**Runs of bytes that are written in one piece.**

The writer of literals lets a run of bytes grow and hands it out when an escape interrupts it or the
end is reached.  The runs cannot be seen in what is written: it is the text of the pieces of the byte
string, one after another.  The pieces are found from left to right: the sequences that are complete,
the bytes that start none, and possibly one sequence at the end that is not finished.  The escapes are
spelled out, as the texts that they are in a literal.

Main definitions:

* `DocCodec.Utf8.StartsNone`, `DocCodec.Utf8.Splits` — **how a byte string is split**;
* `DocCodec.Utf8.Piece.rendered` — the text of a piece;
* `DocCodec.Literal.Fragment.Fits` — whether a run is part of the byte string.

Main results:

* `DocCodec.Utf8.splits_iff` — there is one way to split a byte string;
* `DocCodec.Literal.fits_fragments` — every run is part of the byte string;
* `DocCodec.Literal.fragments_eq_rendered` — **what is handed out is the text of the pieces**.
-/

import DocCodec.Proofs.Literal.Cutoff
import DocCodec.Proofs.Literal.Repair

set_option relaxedAutoImplicit false
set_option autoImplicit false

namespace DocCodec

/-! ### Splitting -/

namespace Utf8

/-- Whether a byte starts no sequence: it is no lead byte, or not all of the bytes after it that it
announces are continuation bytes. -/
def StartsNone (b : UInt8) (rest : Bytes) : Prop :=
  sequenceLength b = 0 ∨ ∃ c ∈ rest.take (sequenceLength b - 1), isContinuation c = false

/-- **How a byte string is split** from left to right. -/
inductive Splits : Bytes → List Piece → Prop
  | nil : Splits [] []
  /-- A complete sequence. -/
  | whole {lead : UInt8} {trailing : Bytes} (hlength : sequenceLength lead = trailing.length + 1)
      (hall : ∀ b ∈ trailing, isContinuation b = true) {rest : Bytes} {ps : List Piece}
      (h : Splits rest ps) : Splits (lead :: (trailing ++ rest)) (.whole lead trailing :: ps)
  /-- A byte that starts none. -/
  | stray {b : UInt8} {rest : Bytes} (hb : StartsNone b rest) {ps : List Piece}
      (h : Splits rest ps) : Splits (b :: rest) (.stray b :: ps)
  /-- A sequence that is not finished at the end. -/
  | cut {bytes : Bytes} (hcut : CutOff bytes) : Splits bytes [.cut bytes]

theorem shape_eq_stray_iff (b : UInt8) (rest : Bytes) :
    shape b rest = .stray ↔ StartsNone b rest := by
  unfold shape StartsNone
  split
  · next h => simp [h]
  · next trailing h =>
      rw [h]
      simp only [Nat.succ_ne_zero, false_or, Nat.succ_sub_one]
      cases hall : (rest.take trailing).all isContinuation with
      | true =>
          have hnone : ¬∃ c ∈ rest.take trailing, isContinuation c = false := by
            rintro ⟨c, hc, hfalse⟩
            rw [List.all_eq_true.1 hall c hc] at hfalse
            cases hfalse
          rw [if_pos rfl, iff_false_right hnone]
          split <;> nofun
      | false =>
          rw [if_neg Bool.false_ne_true, iff_true_left rfl]
          simpa using hall

/-- **There is one way to split a byte string.** -/
theorem splits_iff (bytes : Bytes) (ps : List Piece) : Splits bytes ps ↔ ps = pieces bytes := by
  constructor
  · intro h
    induction h with
    | nil => rw [pieces]
    | whole hlength hall h ih => rw [pieces_whole hlength hall, ih]
    | stray hb h ih => rw [pieces, (shape_eq_stray_iff ..).2 hb, ih]
    | cut hcut =>
        obtain ⟨lead, trailing, rfl, -⟩ := id hcut
        rw [pieces, (shape_eq_cut_iff ..).2 hcut]
  · rintro rfl
    fun_induction pieces bytes with
    | case1 => exact .nil
    | case2 b rest trailing h ih =>
        obtain ⟨hlength, hle, hall⟩ := (shape_eq_whole_iff ..).1 h
        have hsplit : Splits (b :: (rest.take trailing ++ rest.drop trailing))
            (.whole b (rest.take trailing) :: pieces (rest.drop trailing)) :=
          .whole (by rw [hlength, List.length_take, Nat.min_eq_left hle]) hall ih
        rw [List.take_append_drop] at hsplit
        exact hsplit
    | case3 b rest h ih => exact .stray ((shape_eq_stray_iff ..).1 h) ih
    | case4 b rest h => exact .cut ((shape_eq_cut_iff ..).1 h)

/-! ### The text of a piece -/

/-- The bytes that have an escape of one letter, with that escape. -/
def shortEscapes : List (UInt8 × String) :=
  [(0x22, "\\\""), (0x5C, "\\\\"), (0x08, "\\b"), (0x0C, "\\f"), (0x0A, "\\n"), (0x0D, "\\r"),
    (0x09, "\\t")]

/-- The escape of a byte, by a letter if there is one and else by number. -/
def escaped (b : UInt8) : Bytes :=
  ((shortEscapes.lookup b).map encode).getD (encode "\\u00" ++ Hex.standard [b])

/-- **The text of a piece.**  Only among the sequences of one byte are there such that have to be
escaped. -/
def Piece.rendered : Piece → Bytes
  | .whole lead [] =>
    if lead = Ascii.quote ∨ lead = Ascii.backslash ∨ lead < 0x20 then escaped lead else [lead]
  | .whole lead (second :: trailing) => lead :: second :: trailing
  | .stray _ => encode "\\ufffd"
  | .cut _ => []

end Utf8

namespace Literal

open Utf8 (Splits)

/-- The writer has the escapes of one letter. -/
theorem shortEscape?_eq :
    ∀ b, shortEscape? b = (Utf8.shortEscapes.lookup b).map Utf8.encode :=
  Bytes.forall_of_ofNat (by decide +kernel)

theorem getD_shortEscape? (b : UInt8) :
    (shortEscape? b).getD (controlEscape b) = Utf8.escaped b := by
  rw [shortEscape?_eq, controlEscape_eq_standard, Utf8.escaped]

theorem escape?_eq (b : UInt8) :
    escape? b =
      if b = Ascii.quote ∨ b = Ascii.backslash ∨ b < 0x20 then some (Utf8.escaped b) else none := by
  rw [← getD_shortEscape?]
  unfold escape?
  cases hshort : shortEscape? b with
  | some text =>
      have hb : b = Ascii.quote ∨ b = Ascii.backslash ∨ b < 0x20 := by
        rcases cases_of_shortEscape? hshort with rfl | rfl | rfl | rfl | rfl | rfl | rfl <;> decide
      rw [if_pos hb]
      rfl
  | none =>
      have hquote : b ≠ Ascii.quote := by
        rintro rfl
        cases hshort
      have hbackslash : b ≠ Ascii.backslash := by
        rintro rfl
        cases hshort
      simp [Ascii.isControl, hquote, hbackslash]

/-- The writer escapes a piece as a whole or not at all. -/
theorem pieceText_whole {lead : UInt8} {trailing : Bytes}
    (hlength : Utf8.sequenceLength lead = trailing.length + 1) :
    pieceText (.whole lead trailing) = (Utf8.Piece.whole lead trailing).rendered := by
  cases trailing with
  | nil =>
      rw [pieceText, escape?_eq, Utf8.Piece.rendered]
      split <;> rfl
  | cons second trailing =>
      rw [pieceText, Utf8.Piece.rendered]
      cases hescape : escape? lead with
      | none => rfl
      | some text =>
          rw [Utf8.sequenceLength_of_ascii (lt_of_escape? hescape)] at hlength
          cases hlength

theorem flatMap_pieceText {bytes : Bytes} {ps : List Utf8.Piece} (h : Splits bytes ps) :
    ps.flatMap pieceText = ps.flatMap Utf8.Piece.rendered := by
  induction h with
  | nil => rfl
  | whole hlength hall h ih => rw [List.flatMap_cons, List.flatMap_cons, ih, pieceText_whole hlength]
  | stray hb h ih =>
      have hreplacement : replacement = Utf8.encode "\\ufffd" := rfl
      rw [List.flatMap_cons, List.flatMap_cons, ih, pieceText, Utf8.Piece.rendered, hreplacement]
  | cut hcut => rfl

/-! ### Runs -/

/-- Whether a run is part of a byte string of some length. -/
def Fragment.Fits (length : Nat) : Fragment → Prop
  | .run start stop => start ≤ stop ∧ stop ≤ length
  | .escape _ => True

theorem fits_push {length : Nat} {written : Array Fragment} {last : Fragment}
    (hwritten : ∀ fragment ∈ written, fragment.Fits length) (hlast : last.Fits length) :
    ∀ fragment ∈ written.push last, fragment.Fits length := by
  intro fragment hfragment
  rcases Array.mem_push.1 hfragment with hfragment | rfl
  · exact hwritten fragment hfragment
  · exact hlast

theorem fits_escape (length : Nat) (text : Bytes) : (Fragment.escape text).Fits length := trivial

/-- A run that has not been written yet ends where the bytes begin that are still to be read. -/
theorem fits_fragmentsFrom {length : Nat} {written : Array Fragment} {start pos : Nat}
    {bytes : Bytes} (hwritten : ∀ fragment ∈ written, fragment.Fits length) (hle : start ≤ pos)
    (hpos : pos + bytes.length = length) :
    ∀ fragment ∈ fragmentsFrom written start pos bytes, fragment.Fits length := by
  have hrun : Fragment.Fits length (.run start pos) := ⟨hle, by omega⟩
  fun_induction fragmentsFrom written start pos bytes with
  | case1 written start pos => exact fits_push hwritten hrun
  | case2 written start pos b rest h => exact fits_push hwritten hrun
  | case3 written start pos b rest h ih =>
      rw [List.length_cons] at hpos
      exact ih (fits_push (fits_push hwritten hrun) (fits_escape length _)) (Nat.le_refl _) (by omega)
        ⟨Nat.le_refl _, by omega⟩
  | case4 written start pos b rest trailing h text htext ih =>
      rw [List.length_cons] at hpos
      exact ih (fits_push (fits_push hwritten hrun) (fits_escape length _)) (Nat.le_refl _) (by omega)
        ⟨Nat.le_refl _, by omega⟩
  | case5 written start pos b rest trailing h htext ih =>
      have htrailing := ((Utf8.shape_eq_whole_iff ..).1 h).2.1
      rw [List.length_cons] at hpos
      exact ih hwritten (by omega) (by rw [List.length_drop]; omega) ⟨by omega, by omega⟩

/-- **Every run is part of the byte string.** -/
theorem fits_fragments (bytes : Bytes) :
    ∀ fragment ∈ fragments bytes, fragment.Fits bytes.length :=
  fits_fragmentsFrom (fun _ h => absurd h (by simp)) (Nat.le_refl 0) (Nat.zero_add _)

/-! ### What is handed out -/

/-- No letter is a control character or contains one. -/
theorem le_of_mem_letters {letters : Grammar.Letters} {b : UInt8} (h : b ∈ letters.bytes) :
    0x20 ≤ b := by
  obtain ⟨letter, -, hb⟩ := List.mem_flatMap.1 h
  cases letter with
  | plain byte ok =>
      rw [List.mem_singleton.1 hb]
      exact ok.1
  | escape letter ok =>
      rcases List.mem_cons.1 hb with rfl | hb
      · decide
      · rw [List.mem_singleton.1 hb]
        simp only [List.mem_cons, List.not_mem_nil, or_false] at ok
        rcases ok with rfl | rfl | rfl | rfl | rfl | rfl | rfl | rfl <;> decide
  | unit p q r s ok =>
      rcases List.mem_cons.1 hb with rfl | hb
      · decide
      rcases List.mem_cons.1 hb with rfl | hb
      · decide
      · exact (Hex.bounds_of_isDigit (ok b hb)).1

/-- **What is handed out is the text of the pieces**, of which there is one way to split a byte string.
Every run is part of the byte string, and the text consists of letters, so that quotation marks and
backslashes occur in escapes only and control characters not at all. -/
theorem fragments_eq_rendered (bytes : Bytes) :
    ∃ ps, (∀ other, Splits bytes other ↔ other = ps) ∧
      (fragments bytes).toList.flatMap (Fragment.bytes bytes.toArray) =
        ps.flatMap Utf8.Piece.rendered ∧
      (∀ fragment ∈ fragments bytes, fragment.Fits bytes.length) ∧
      (∃ letters : Grammar.Letters, letters.bytes = encode bytes) ∧
      ∀ b ∈ encode bytes, 0x20 ≤ b := by
  obtain ⟨letters, hletters⟩ := exists_letters bytes
  refine ⟨Utf8.pieces bytes, Utf8.splits_iff bytes, ?_, fits_fragments bytes,
    ⟨letters, hletters⟩, ?_⟩
  · rw [← flatMap_pieceText ((Utf8.splits_iff ..).2 rfl)]
    exact encode_eq_flatMap bytes
  · rw [← hletters]
    exact fun b hb => le_of_mem_letters hb

end Literal

end DocCodec
