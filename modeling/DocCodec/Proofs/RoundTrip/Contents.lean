/-
**Byte strings in what is written.**

Strings, symbols and code may hold any bytes, and the writer asks no more of them than the outer
shape of their sequences.  What it writes has that shape throughout: a byte that begins no sequence
is written as an escape, a sequence that the end cuts off is left out, and everything else that is
written is valid UTF-8.  A sequence of the right shape is passed on even if it is none of UTF-8, such
as an encoded surrogate or an overlong form; so what is written is valid if and only if all such
sequences in the byte strings are.

Main definitions:

* `DocCodec.Utf8.Shaped` — **byte strings that consist of whole sequences**;
* `DocCodec.Value.contents`, `DocCodec.Container.contents` — the byte strings that are written as
  literals.

Main results:

* `DocCodec.Utf8.Shaped.valid_append_iff` — whole sequences are valid one by one;
* `DocCodec.Literal.valid_encode_iff` — when the text of a byte string is valid;
* `DocCodec.Encoder.joins_valueText` — what joining keeps holds of the text of a value if it holds
  of its literals;
* `DocCodec.shaped_toJson` — **what is written consists of whole sequences, and is valid if and only
  if those of the byte strings are**.
-/

import DocCodec.Proofs.RoundTrip.Container
import DocCodec.Proofs.Utf8.Valid

set_option relaxedAutoImplicit false
set_option autoImplicit false

namespace DocCodec

open Encoder (valueText memberTexts itemTexts bracketed)

/-! ### Whole sequences -/

namespace Utf8

/-- Whether a piece is a whole sequence. -/
def Piece.IsWhole (piece : Piece) : Prop := ∃ lead trailing, piece = .whole lead trailing

/-- **Byte strings that consist of whole sequences**: lead bytes, each with the continuation bytes
that it announces. -/
def Shaped (bytes : Bytes) : Prop := ∀ piece ∈ pieces bytes, piece.IsWhole

theorem pieces_nil : pieces [] = [] := by rw [pieces]

/-- The sequences of a byte string that consists of whole ones do not depend on what follows. -/
theorem Shaped.pieces_append {first : Bytes} (h : Shaped first) (second : Bytes) :
    pieces (first ++ second) = pieces first ++ pieces second := by
  unfold Shaped at h
  fun_induction pieces first with
  | case1 => rfl
  | case2 b rest trailing hshape ih =>
      obtain ⟨hlength, hle, hall⟩ := (shape_eq_whole_iff ..).1 hshape
      have htrailing : (rest.take trailing).length = trailing := List.length_take_of_le hle
      have hsplit : b :: rest ++ second =
          b :: (rest.take trailing ++ (rest.drop trailing ++ second)) := by
        rw [← List.append_assoc, List.take_append_drop]
        rfl
      rw [hsplit, pieces_whole (by rw [htrailing]; exact hlength) hall,
        ih (List.forall_mem_cons.1 h).2]
      rfl
  | case3 b rest hshape ih =>
      obtain ⟨lead, trailing, hwhole⟩ := (List.forall_mem_cons.1 h).1
      cases hwhole
  | case4 b rest hshape =>
      obtain ⟨lead, trailing, hwhole⟩ := List.forall_mem_singleton.1 h
      cases hwhole

theorem shaped_nil : Shaped [] := by
  rw [Shaped, pieces_nil]
  exact List.forall_mem_nil _

theorem Shaped.append {first second : Bytes} (hfirst : Shaped first) (hsecond : Shaped second) :
    Shaped (first ++ second) := by
  rw [Shaped, hfirst.pieces_append]
  exact List.forall_mem_append.2 ⟨hfirst, hsecond⟩

/-- A lead byte with the continuation bytes that it announces. -/
theorem shaped_whole {lead : UInt8} {trailing : Bytes}
    (hlength : sequenceLength lead = trailing.length + 1)
    (hall : ∀ b ∈ trailing, isContinuation b = true) : Shaped (lead :: trailing) := by
  have hpieces := pieces_whole hlength hall []
  rw [List.append_nil, pieces_nil] at hpieces
  rw [Shaped, hpieces]
  exact List.forall_mem_singleton.2 ⟨lead, trailing, rfl⟩

/-- The pieces of a valid byte string are its characters. -/
theorem Valid.of_mem_pieces {bytes : Bytes} (h : Valid bytes) :
    ∀ piece ∈ pieces bytes, piece.IsWhole ∧ Valid piece.bytes := by
  obtain ⟨chars, rfl⟩ := (valid_iff_chars bytes).1 h
  clear h
  induction chars with
  | nil =>
      rw [List.flatMap_nil, pieces_nil]
      exact List.forall_mem_nil _
  | cons c chars ih =>
      obtain ⟨lead, trailing, hc, hlength, hall⟩ := utf8EncodeChar_whole c
      rw [List.flatMap_cons, hc, List.cons_append, pieces_whole hlength hall]
      have hvalid : Valid (lead :: trailing) := hc ▸ valid_char c
      exact List.forall_mem_cons.2 ⟨⟨⟨lead, trailing, rfl⟩, hvalid⟩, ih⟩

theorem Valid.shaped {bytes : Bytes} (h : Valid bytes) : Shaped bytes :=
  fun piece hpiece => (h.of_mem_pieces piece hpiece).1

/-- A byte string is valid if and only if its pieces are. -/
theorem valid_iff_pieces (bytes : Bytes) : Valid bytes ↔ ∀ piece ∈ pieces bytes, Valid piece.bytes := by
  constructor
  · intro h piece hpiece
    exact (h.of_mem_pieces piece hpiece).2
  · intro h
    rw [← flatMap_bytes_pieces bytes]
    exact valid_flatMap h

/-- **Whole sequences are valid one by one.** -/
theorem Shaped.valid_append_iff {first : Bytes} (h : Shaped first) (second : Bytes) :
    Valid (first ++ second) ↔ Valid first ∧ Valid second := by
  rw [valid_iff_pieces, h.pieces_append, List.forall_mem_append, ← valid_iff_pieces,
    ← valid_iff_pieces]

/-- Parts that consist of whole sequences are valid one by one. -/
theorem valid_flatMap_iff {α : Type} {f : α → Bytes} {parts : List α}
    (h : ∀ a ∈ parts, Shaped (f a)) : Valid (parts.flatMap f) ↔ ∀ a ∈ parts, Valid (f a) := by
  induction parts with
  | nil => exact ⟨fun _ => List.forall_mem_nil _, fun _ => valid_nil⟩
  | cons a parts ih =>
      obtain ⟨ha, hparts⟩ := List.forall_mem_cons.1 h
      rw [List.flatMap_cons, ha.valid_append_iff, ih hparts, List.forall_mem_cons]

/-- A piece that is a whole sequence has its shape. -/
theorem shape_of_mem_pieces {bytes : Bytes} {lead : UInt8} {trailing : Bytes}
    (h : .whole lead trailing ∈ pieces bytes) :
    sequenceLength lead = trailing.length + 1 ∧ ∀ b ∈ trailing, isContinuation b = true := by
  fun_induction pieces bytes with
  | case1 => cases h
  | case2 b rest count hshape ih =>
      rcases List.mem_cons.1 h with heq | hmem
      · cases heq
        obtain ⟨hlength, hle, hall⟩ := (shape_eq_whole_iff ..).1 hshape
        exact ⟨by rw [hlength, List.length_take_of_le hle], hall⟩
      · exact ih hmem
  | case3 b rest hshape ih =>
      rcases List.mem_cons.1 h with heq | hmem
      · cases heq
      · exact ih hmem
  | case4 b rest hshape =>
      rcases List.mem_singleton.1 h with ⟨⟩

/-! ### What joining keeps -/

/-- A property that valid byte strings have, and that is kept when byte strings are joined. -/
structure Joins (P : Bytes → Prop) : Prop where
  of_valid : ∀ {bytes}, Valid bytes → P bytes
  append : ∀ {first second}, P first → P second → P (first ++ second)

theorem joins_valid : Joins Valid := ⟨id, Valid.append⟩

theorem joins_shaped : Joins Shaped := ⟨Valid.shaped, Shaped.append⟩

theorem Joins.flatMap {P : Bytes → Prop} (hP : Joins P) {α : Type} {f : α → Bytes}
    {parts : List α} (h : ∀ a ∈ parts, P (f a)) : P (parts.flatMap f) := by
  induction parts with
  | nil => exact hP.of_valid valid_nil
  | cons a parts ih =>
      obtain ⟨ha, hparts⟩ := List.forall_mem_cons.1 h
      rw [List.flatMap_cons]
      exact hP.append ha (ih hparts)

end Utf8

/-! ### Literals -/

namespace Literal

/-- Escapes that are written are ASCII. -/
theorem valid_of_escape? {b : UInt8} {text : Bytes} (h : escape? b = some text) :
    Utf8.Valid text := by
  unfold escape? at h
  split at h
  · next hshort =>
      cases h
      rcases cases_of_shortEscape? hshort with rfl | rfl | rfl | rfl | rfl | rfl | rfl <;>
        cases hshort <;> exact Utf8.valid_of_all rfl
  · split at h
    · cases h
      exact (Utf8.valid_of_all rfl).append
        (Utf8.valid_of_ascii fun c hc => (Hex.isPlain_of_mem_pair hc).1)
    · cases h

/-- The text of a piece consists of whole sequences. -/
theorem shaped_pieceText {bytes : Bytes} : ∀ piece ∈ Utf8.pieces bytes, Utf8.Shaped (pieceText piece) := by
  intro piece hpiece
  cases piece with
  | whole lead trailing =>
      rw [pieceText]
      cases hescape : escape? lead with
      | some text => exact (valid_of_escape? hescape).shaped
      | none =>
          obtain ⟨hlength, hall⟩ := Utf8.shape_of_mem_pieces hpiece
          exact Utf8.shaped_whole hlength hall
  | stray b => exact (Utf8.valid_of_all rfl).shaped
  | cut bytes => exact Utf8.shaped_nil

/-- The text of any byte string consists of whole sequences. -/
theorem shaped_encode (bytes : Bytes) : Utf8.Shaped (encode bytes) := by
  rw [encode_eq_flatMap]
  exact Utf8.joins_shaped.flatMap shaped_pieceText

/-- The text of a piece is valid if and only if the piece is no sequence or a valid one. -/
theorem valid_pieceText_iff {bytes : Bytes} {piece : Utf8.Piece} (h : piece ∈ Utf8.pieces bytes) :
    Utf8.Valid (pieceText piece) ↔ (piece.IsWhole → Utf8.Valid piece.bytes) := by
  cases piece with
  | whole lead trailing =>
      obtain ⟨hlength, -⟩ := Utf8.shape_of_mem_pieces h
      rw [pieceText]
      cases hescape : escape? lead with
      | some text =>
          -- A byte that has an escape is a sequence by itself.
          have hlt := lt_of_escape? hescape
          rw [Utf8.sequenceLength_of_ascii hlt] at hlength
          have htrailing : trailing = [] := List.eq_nil_of_length_eq_zero (Nat.succ.inj hlength).symm
          subst htrailing
          have hlead : Utf8.Valid [lead] := Utf8.valid_of_ascii (List.forall_mem_singleton.2 hlt)
          exact ⟨fun _ _ => hlead, fun _ => valid_of_escape? hescape⟩
      | none => exact ⟨fun hvalid _ => hvalid, fun hvalid => hvalid ⟨lead, trailing, rfl⟩⟩
  | stray b =>
      refine ⟨?_, fun _ => Utf8.valid_of_all rfl⟩
      rintro - ⟨lead, trailing, hpiece⟩
      cases hpiece
  | cut bytes =>
      refine ⟨?_, fun _ => Utf8.valid_nil⟩
      rintro - ⟨lead, trailing, hpiece⟩
      cases hpiece

/-- **When the text of a byte string is valid**: if the whole sequences of the byte string are. -/
theorem valid_encode_iff (bytes : Bytes) :
    Utf8.Valid (encode bytes) ↔
      ∀ piece ∈ Utf8.pieces bytes, piece.IsWhole → Utf8.Valid piece.bytes := by
  rw [encode_eq_flatMap, Utf8.valid_flatMap_iff shaped_pieceText]
  exact forall₂_congr fun piece hpiece => valid_pieceText_iff hpiece

/-- The quotation marks around a literal are ASCII. -/
theorem valid_quoted_iff (bytes : Bytes) :
    Utf8.Valid (quoted bytes) ↔ Utf8.Valid (encode bytes) := by
  have hquote : Utf8.Valid [Ascii.quote] := Utf8.valid_of_all rfl
  constructor
  · intro h
    exact ((h.tail (by decide)).of_append_cons (by decide)).1
  · intro h
    exact (h.append hquote).cons (by decide)

theorem shaped_quoted (bytes : Bytes) : Utf8.Shaped (quoted bytes) := by
  have hquote : Utf8.Shaped [Ascii.quote] := (Utf8.valid_of_all rfl).shaped
  exact hquote.append ((shaped_encode bytes).append hquote)

/-- The literal of a valid byte string is valid. -/
theorem valid_quoted {bytes : Bytes} (h : Utf8.Valid bytes) : Utf8.Valid (quoted bytes) := by
  rw [valid_quoted_iff, valid_encode_iff]
  intro piece hpiece _
  exact (h.of_mem_pieces piece hpiece).2

end Literal

/-! ### Scalars -/

theorem Grammar.Number.valid_bytes (n : Number) : Utf8.Valid n.bytes :=
  Utf8.valid_of_ascii fun _ hb => n.lt_of_mem_bytes hb

theorem Decimal.valid_ofInt (z : Int) : Utf8.Valid (ofInt z) := by
  cases z with
  | ofNat n =>
      have hvalid := (numeral false n).valid_bytes
      rwa [bytes_numeral] at hvalid
  | negSucc n =>
      have hvalid := (numeral true (n + 1)).valid_bytes
      rwa [bytes_numeral] at hvalid

/-- The bytes of a scalar that may hold any. -/
def Scalar.bytes? : Scalar → Option Bytes
  | .string content | .code content | .symbol content => some content
  | _ => none

namespace Encoder

theorem valid_quotedText (text : String) : Utf8.Valid (quotedText text) :=
  Literal.valid_quoted (Utf8.valid_encode text)

theorem valid_quotedDigits {digits : Bytes} (h : ∀ b ∈ digits, IsPlain b) :
    Utf8.Valid (quotedDigits digits) := by
  have hdigits : Utf8.Valid digits := Utf8.valid_of_ascii fun b hb => (h b hb).1
  exact (hdigits.append (Utf8.valid_nil.cons (by decide))).cons (by decide)

/-- Texts with separators between them. -/
theorem joins_intercalate {P : Bytes → Prop} (hP : Utf8.Joins P) {texts : List Bytes}
    (h : ∀ text ∈ texts, P text) : P (separator.intercalate texts) := by
  have hseparator : P separator := hP.of_valid (Utf8.valid_of_all rfl)
  cases texts with
  | nil => exact hP.of_valid Utf8.valid_nil
  | cons text texts =>
      obtain ⟨htext, htexts⟩ := List.forall_mem_cons.1 h
      rw [intercalate_cons]
      exact hP.append htext (hP.flatMap fun text hmem => hP.append hseparator (htexts text hmem))

/-- An entry: beside the value it is valid. -/
theorem joins_member {P : Bytes → Prop} (hP : Utf8.Joins P) (key : String) {value : Bytes}
    (h : P value) : P (member key value) :=
  hP.append (hP.of_valid ((valid_quotedText key).append (Utf8.valid_of_all rfl))) h

/-- A container: beside its parts it is ASCII. -/
theorem joins_bracketed {P : Bytes → Prop} (hP : Utf8.Joins P) (kind : Bracket)
    {texts : List Bytes} (h : ∀ text ∈ texts, P text) : P (bracketed kind texts) := by
  have hopening : Utf8.Valid (opening kind) := by cases kind <;> exact Utf8.valid_of_all rfl
  have hclosing : Utf8.Valid (closing kind) := by cases kind <;> exact Utf8.valid_of_all rfl
  have hempty : Utf8.Valid (empty kind) := by cases kind <;> exact Utf8.valid_of_all rfl
  rw [bracketed_eq]
  split
  · exact hP.of_valid hempty
  · exact hP.append (hP.append (hP.of_valid hopening) (joins_intercalate hP h))
      (hP.of_valid hclosing)

theorem valid_member (key : String) {value : Bytes} (h : Utf8.Valid value) :
    Utf8.Valid (member key value) := joins_member Utf8.joins_valid key h

theorem valid_object {members : List Bytes} (h : ∀ text ∈ members, Utf8.Valid text) :
    Utf8.Valid (object members) :=
  ((Utf8.valid_of_all rfl).append (joins_intercalate Utf8.joins_valid h)).append
    (Utf8.valid_of_all rfl)

theorem valid_doubleText (number : Binary64) : Utf8.Valid (doubleText number) := by
  unfold doubleText
  split
  · rw [← bytes_sixPlacesNumber]
    exact (sixPlacesNumber number).valid_bytes
  · exact Utf8.valid_encode "null"

/-- The text of a scalar that does not hold any bytes is valid. -/
theorem valid_scalarText {content : Scalar} (h : content.bytes? = none) :
    Utf8.Valid (scalarText content) := by
  have hone (key : String) : Utf8.Valid (object [member key (Decimal.ofNat 1)]) :=
    valid_object (List.forall_mem_singleton.2 (valid_member key (Decimal.valid_ofInt 1)))
  have hhex (id : ObjectId) : Utf8.Valid (quotedDigits id.toHex) := by
    rw [id.toHex_eq_standard]
    exact valid_quotedDigits fun b hb => Hex.isPlain_of_mem_standard hb
  cases content with
  | double number => exact valid_doubleText number
  | string content | code content | symbol content => cases h
  | binary subtype content =>
      have hblocks : Utf8.Valid (quotedDigits (Base64.blocks content).flatten) := by
        refine valid_quotedDigits ?_
        intro b hb
        rw [Base64.flatten_blocks] at hb
        exact Base64.isPlain_of_mem_encode hb
      have hpair : Utf8.Valid (quotedDigits (Hex.pair subtype)) :=
        valid_quotedDigits fun b hb => Hex.isPlain_of_mem_pair hb
      exact valid_object (List.forall_mem_cons.2 ⟨valid_member _ hpair,
        List.forall_mem_singleton.2 (valid_member _ hblocks)⟩)
  | undefined =>
      exact valid_object (List.forall_mem_singleton.2 (valid_member _ (Utf8.valid_encode "true")))
  | objectId id => exact valid_object (List.forall_mem_singleton.2 (valid_member _ (hhex id)))
  | boolean truth => cases truth <;> exact Utf8.valid_encode _
  | date milliseconds =>
      exact valid_object (List.forall_mem_singleton.2 (valid_member _ (Decimal.valid_ofInt _)))
  | null => exact Utf8.valid_encode "null"
  | regex pattern options =>
      exact valid_object (List.forall_mem_cons.2 ⟨valid_member _ (valid_quotedText pattern),
        List.forall_mem_singleton.2 (valid_member _ (valid_quotedText options))⟩)
  | dbPointer collection id =>
      have hcollection := valid_member "$ref" (valid_quotedText collection)
      cases id with
      | none => exact valid_object (List.forall_mem_singleton.2 hcollection)
      | some id =>
          exact valid_object (List.forall_mem_cons.2 ⟨hcollection,
            List.forall_mem_singleton.2 (valid_member _ (hhex id))⟩)
  | int32 number => exact Decimal.valid_ofInt number.toInt
  | timestamp seconds ordinal =>
      have hpart (name : String) (number : UInt32) : Utf8.Valid (timestampText.part name number) :=
        ((valid_quotedText name).append (Utf8.valid_of_all rfl)).append
          (Decimal.valid_ofInt (.ofNat number.toNat))
      have hparts := valid_object (List.forall_mem_cons.2 ⟨hpart "t" seconds,
        List.forall_mem_singleton.2 (hpart "i" ordinal)⟩)
      exact valid_object (List.forall_mem_singleton.2 (valid_member _ hparts))
  | int64 number => exact Decimal.valid_ofInt number.toInt
  | minKey => exact hone "$minKey"
  | maxKey => exact hone "$maxKey"

end Encoder

/-! ### The byte strings of a value -/

namespace Value

mutual

/-- **The byte strings of a value that are written as literals**, where `depth` containers are around
the value.  A container that is nested too deeply is elided with all that it holds. -/
def contents (depth : Nat) : Value → List Bytes
  | .scalar content => content.bytes?.toList
  | .codeWithScope content _ => [content]
  | .document entries => if nestingLimit ≤ depth then [] else contentsOfEntries (depth + 1) entries
  | .array items => if nestingLimit ≤ depth then [] else contentsOfItems (depth + 1) items

/-- The byte strings of the entries of a document. -/
def contentsOfEntries (depth : Nat) : List (String × Value) → List Bytes
  | [] => []
  | (_, value) :: rest => value.contents depth ++ contentsOfEntries depth rest

/-- The byte strings of the items of an array. -/
def contentsOfItems (depth : Nat) : List Value → List Bytes
  | [] => []
  | value :: rest => value.contents depth ++ contentsOfItems depth rest

end

end Value

/-- **The byte strings of a container that are written as literals.** -/
def Container.contents (root : Container) : List Bytes := root.toValue.contents 0

namespace Encoder

theorem joins_scalarText {P : Bytes → Prop} (hP : Utf8.Joins P) {content : Scalar}
    (h : ∀ bytes ∈ content.bytes?, P (Literal.quoted bytes)) : P (scalarText content) := by
  cases hbytes : content.bytes? with
  | none => exact hP.of_valid (valid_scalarText hbytes)
  | some bytes =>
      have hquoted := h bytes hbytes
      cases content with
      | string content | code content | symbol content =>
          cases hbytes
          exact hquoted
      | double | binary | undefined | objectId | boolean | date | null | regex | dbPointer | int32
      | timestamp | int64 | minKey | maxKey => cases hbytes

mutual

/-- **What joining keeps holds of the text of a value** if it holds of its literals. -/
theorem joins_valueText {P : Bytes → Prop} (hP : Utf8.Joins P) (value : Value) {depth : Nat}
    (h : ∀ content ∈ value.contents depth, P (Literal.quoted content)) :
    P (valueText depth value) := by
  have helision : P elision := hP.of_valid (Utf8.valid_encode _)
  cases value with
  | scalar content =>
      exact joins_scalarText hP fun bytes hbytes => h bytes (Option.mem_toList.2 hbytes)
  | codeWithScope content scope => exact h content List.mem_cons_self
  | document entries =>
      rw [Value.contents] at h
      rw [valueText]
      split
      · exact helision
      · next hdepth =>
          rw [if_neg hdepth] at h
          exact joins_bracketed hP .brace (joins_memberTexts hP entries h)
  | array items =>
      rw [Value.contents] at h
      rw [valueText]
      split
      · exact helision
      · next hdepth =>
          rw [if_neg hdepth] at h
          exact joins_bracketed hP .square (joins_itemTexts hP items h)

theorem joins_memberTexts {P : Bytes → Prop} (hP : Utf8.Joins P) (entries : Document) {depth : Nat}
    (h : ∀ content ∈ Value.contentsOfEntries depth entries, P (Literal.quoted content)) :
    ∀ text ∈ memberTexts depth entries, P text := by
  cases entries with
  | nil => exact List.forall_mem_nil _
  | cons entry rest =>
      obtain ⟨key, value⟩ := entry
      obtain ⟨hvalue, hrest⟩ := List.forall_mem_append.1 h
      exact List.forall_mem_cons.2 ⟨joins_member hP key (joins_valueText hP value hvalue),
        joins_memberTexts hP rest hrest⟩

theorem joins_itemTexts {P : Bytes → Prop} (hP : Utf8.Joins P) (items : List Value) {depth : Nat}
    (h : ∀ content ∈ Value.contentsOfItems depth items, P (Literal.quoted content)) :
    ∀ text ∈ itemTexts depth items, P text := by
  cases items with
  | nil => exact List.forall_mem_nil _
  | cons value rest =>
      obtain ⟨hvalue, hrest⟩ := List.forall_mem_append.1 h
      exact List.forall_mem_cons.2 ⟨joins_valueText hP value hvalue, joins_itemTexts hP rest hrest⟩

end

/-! ### Literals within a text -/

theorem infix_intercalate {text : Bytes} {texts : List Bytes} (h : text ∈ texts) :
    text <:+: separator.intercalate texts := by
  cases texts with
  | nil => cases h
  | cons first rest =>
      rw [intercalate_cons]
      rcases List.mem_cons.1 h with rfl | h
      · exact (List.prefix_append ..).isInfix
      · obtain ⟨before, after, rfl⟩ := List.append_of_mem h
        refine ⟨first ++ before.flatMap (fun text => separator ++ text) ++ separator,
          after.flatMap (fun text => separator ++ text), ?_⟩
        simp

theorem infix_bracketed (kind : Bracket) {text : Bytes} {texts : List Bytes} (h : text ∈ texts) :
    text <:+: bracketed kind texts := by
  have hne : texts.isEmpty = false := by
    cases texts with
    | nil => cases h
    | cons first rest => rfl
  rw [bracketed_eq, hne]
  exact (infix_intercalate h).trans ⟨opening kind, closing kind, rfl⟩

mutual

/-- **The literals of a value stand in its text.** -/
theorem quoted_infix_valueText (value : Value) {depth : Nat} :
    ∀ content ∈ value.contents depth, Literal.quoted content <:+: valueText depth value := by
  intro content hcontent
  cases value with
  | scalar scalar =>
      cases scalar with
      | string bytes | code bytes | symbol bytes =>
          rw [List.mem_singleton.1 hcontent]
          exact List.infix_rfl
      | double | binary | undefined | objectId | boolean | date | null | regex | dbPointer | int32
      | timestamp | int64 | minKey | maxKey => cases hcontent
  | codeWithScope bytes scope =>
      rw [List.mem_singleton.1 hcontent]
      exact List.infix_rfl
  | document entries =>
      rw [Value.contents] at hcontent
      rw [valueText]
      split
      · next hdepth =>
          rw [if_pos hdepth] at hcontent
          cases hcontent
      · next hdepth =>
          rw [if_neg hdepth] at hcontent
          obtain ⟨text, htext, hstands⟩ := quoted_infix_memberTexts entries content hcontent
          exact hstands.trans (infix_bracketed .brace htext)
  | array items =>
      rw [Value.contents] at hcontent
      rw [valueText]
      split
      · next hdepth =>
          rw [if_pos hdepth] at hcontent
          cases hcontent
      · next hdepth =>
          rw [if_neg hdepth] at hcontent
          obtain ⟨text, htext, hstands⟩ := quoted_infix_itemTexts items content hcontent
          exact hstands.trans (infix_bracketed .square htext)

theorem quoted_infix_memberTexts (entries : Document) {depth : Nat} :
    ∀ content ∈ Value.contentsOfEntries depth entries,
      ∃ text ∈ memberTexts depth entries, Literal.quoted content <:+: text := by
  intro content hcontent
  cases entries with
  | nil => cases hcontent
  | cons entry rest =>
      obtain ⟨key, value⟩ := entry
      rcases List.mem_append.1 hcontent with hcontent | hcontent
      · have hvalue := quoted_infix_valueText value content hcontent
        exact ⟨_, List.mem_cons_self, hvalue.trans (List.suffix_append ..).isInfix⟩
      · obtain ⟨text, htext, hstands⟩ := quoted_infix_memberTexts rest content hcontent
        exact ⟨text, List.mem_cons_of_mem _ htext, hstands⟩

theorem quoted_infix_itemTexts (items : List Value) {depth : Nat} :
    ∀ content ∈ Value.contentsOfItems depth items,
      ∃ text ∈ itemTexts depth items, Literal.quoted content <:+: text := by
  intro content hcontent
  cases items with
  | nil => cases hcontent
  | cons value rest =>
      rcases List.mem_append.1 hcontent with hcontent | hcontent
      · exact ⟨_, List.mem_cons_self, quoted_infix_valueText value content hcontent⟩
      · obtain ⟨text, htext, hstands⟩ := quoted_infix_itemTexts rest content hcontent
        exact ⟨text, List.mem_cons_of_mem _ htext, hstands⟩

end

end Encoder

/-! ### What is written -/

/-- The literals of a text that is valid are valid. -/
theorem valid_encode_of_stands {bytes text : Bytes} (hstands : Literal.quoted bytes <:+: text)
    (h : Utf8.Valid text) : Utf8.Valid (Literal.encode bytes) := by
  obtain ⟨before, after, rfl⟩ := hstands
  have hsplit : before ++ Literal.quoted bytes ++ after =
      before ++ Ascii.quote :: (Literal.encode bytes ++ Ascii.quote :: after) := by
    simp [Literal.quoted]
  rw [hsplit] at h
  have hbehind := (h.of_append_cons (by decide)).2
  exact (hbehind.of_append_cons (by decide)).1

/-- **What is written consists of whole sequences.**  Each byte string stands in it in quotation
marks, piece by piece: the escape of U+FFFD for a byte that begins no sequence, nothing for a
sequence that is cut off, and any other sequence escaped or as it is.  So what is written is valid if
and only if the whole sequences of the byte strings are. -/
theorem shaped_toJson (root : Container) :
    Utf8.Shaped root.toJson ∧
    (∀ content ∈ root.contents,
      Ascii.quote :: ((Utf8.pieces content).flatMap Literal.pieceText ++ [Ascii.quote]) <:+:
        root.toJson) ∧
    (Utf8.Valid root.toJson ↔ ∀ content ∈ root.contents, ∀ lead trailing,
      .whole lead trailing ∈ Utf8.pieces content → Utf8.Valid (lead :: trailing)) := by
  have hstands : ∀ content ∈ root.contents, Literal.quoted content <:+: root.toJson := by
    rw [toJson_eq_valueText]
    exact Encoder.quoted_infix_valueText root.toValue
  refine ⟨?_, ?_, ?_, ?_⟩
  · rw [toJson_eq_valueText]
    exact Encoder.joins_valueText Utf8.joins_shaped root.toValue fun content _ =>
      Literal.shaped_quoted content
  · intro content hcontent
    rw [← Literal.encode_eq_flatMap]
    exact hstands content hcontent
  · intro h content hcontent lead trailing hpiece
    have hvalid := valid_encode_of_stands (hstands content hcontent) h
    exact (Literal.valid_encode_iff content).1 hvalid _ hpiece ⟨lead, trailing, rfl⟩
  · intro h
    rw [toJson_eq_valueText]
    refine Encoder.joins_valueText Utf8.joins_valid root.toValue ?_
    intro content hcontent
    rw [Literal.valid_quoted_iff, Literal.valid_encode_iff]
    rintro piece hpiece ⟨lead, trailing, rfl⟩
    exact h content hcontent lead trailing hpiece

/-- An array that holds a string of three bytes, an encoded surrogate. -/
def surrogate : Container := .array [.scalar (.string [0xED, 0xA0, 0x80])]

/-- A surrogate is passed on. -/
theorem not_valid_toJson_surrogate : ¬ Utf8.Valid surrogate.toJson := by
  intro h
  have hstands : Literal.quoted [0xED, 0xA0, 0x80] <:+: surrogate.toJson := by
    rw [toJson_eq_valueText]
    exact Encoder.quoted_infix_valueText surrogate.toValue _ List.mem_cons_self
  have htrailing : ∀ b ∈ ([0xA0, 0x80] : Bytes), Utf8.isContinuation b = true :=
    List.all_eq_true.1 rfl
  have hpieces : Utf8.pieces [0xED, 0xA0, 0x80] = .whole 0xED [0xA0, 0x80] :: Utf8.pieces [] :=
    Utf8.pieces_whole rfl htrailing []
  have hencode := valid_encode_of_stands hstands h
  rw [Literal.valid_encode_iff, hpieces] at hencode
  have hvalid := hencode _ List.mem_cons_self ⟨_, _, rfl⟩
  obtain ⟨text, htext⟩ := (Utf8.valid_iff_decode _).1 hvalid
  have hdefect : Utf8.decode [0xED, 0xA0, 0x80] = .error ⟨0, some 1⟩ := by rfl
  exact absurd (hdefect.symm.trans htext) nofun

end DocCodec
