/-
**Writing what was read from what was written.**

The normal form of a container is its own normal form, so a text that was decoded and written again
does not change when this is done once more.  The first time it may change in two ways: a byte that
begins no sequence is written as an escape and read as the replacement character, which is written
as it is; and a timestamp, whose parts are written without a space before the colon, is read as a
plain document.  Doubles are left out, as they are rounded to six places.

Main definitions:

* `DocCodec.Utf8.Piece.mended` — what a piece becomes when it is written and read;
* `DocCodec.Value.scalars`, `DocCodec.Container.scalars` — **the scalars that are written**.

Main results:

* `DocCodec.Utf8.repair_repair` — a repaired byte string needs no repair;
* `DocCodec.normal_normal` — the normal form is its own normal form;
* `DocCodec.valueText_normal` — the text of the normal form is the text of the value, but for stray
  bytes and timestamps;
* `DocCodec.toJson_stable` — **re-encoding comes to a fixed point**.
-/

import DocCodec.Command
import DocCodec.Proofs.RoundTrip.Container

set_option relaxedAutoImplicit false
set_option autoImplicit false

namespace DocCodec

open Encoder (valueText memberTexts itemTexts bracketed)

/-! ### Repairing twice -/

namespace Utf8

/-- What a piece becomes when it is written and read. -/
def Piece.mended : Piece → Option Piece
  | .whole lead trailing => some (.whole lead trailing)
  | .stray _ => some (.whole 0xEF [0xBF, 0xBD])
  | .cut _ => none

/-- Whether a piece is a byte that begins no sequence. -/
def Piece.isStray : Piece → Bool
  | .stray _ => true
  | .whole _ _ | .cut _ => false

/-- **The pieces of a repaired byte string** are whole. -/
theorem pieces_repair (bytes : Bytes) :
    pieces (repair bytes) = (pieces bytes).filterMap Piece.mended := by
  unfold repair
  fun_induction pieces bytes with
  | case1 => rw [List.flatMap_nil, pieces, List.filterMap_nil]
  | case2 b rest trailing h ih =>
      obtain ⟨hlength, hle, hall⟩ := (shape_eq_whole_iff ..).1 h
      have htrailing : (rest.take trailing).length = trailing := List.length_take_of_le hle
      rw [List.flatMap_cons, Piece.repaired, List.cons_append,
        pieces_whole (by rw [htrailing]; exact hlength) hall, ih]
      rfl
  | case3 b rest h ih =>
      have hwhole : pieces (0xEF :: ([0xBF, 0xBD] ++ (pieces rest).flatMap Piece.repaired)) =
          .whole 0xEF [0xBF, 0xBD] :: pieces ((pieces rest).flatMap Piece.repaired) :=
        pieces_whole rfl (List.all_eq_true.1 rfl) _
      rw [List.flatMap_cons]
      refine hwhole.trans ?_
      rw [ih]
      rfl
  | case4 b rest h =>
      rw [List.flatMap_cons, Piece.repaired, List.flatMap_nil, List.append_nil, pieces]
      rfl

/-- What is written of mended pieces. -/
theorem flatMap_mended {f : Piece → Bytes} {pieces : List Piece}
    (h : ∀ piece ∈ pieces, piece.mended.elim [] f = f piece) :
    (pieces.filterMap Piece.mended).flatMap f = pieces.flatMap f := by
  induction pieces with
  | nil => rfl
  | cons piece pieces ih =>
      have hpiece := h piece List.mem_cons_self
      have hrest := ih fun p hp => h p (List.mem_cons_of_mem _ hp)
      rw [List.filterMap_cons, List.flatMap_cons]
      cases hmended : piece.mended with
      | none =>
          rw [hmended] at hpiece
          rw [hrest, ← hpiece]
          rfl
      | some mended =>
          rw [hmended] at hpiece
          rw [List.flatMap_cons, hrest, ← hpiece]
          rfl

/-- **A repaired byte string needs no repair.** -/
theorem repair_repair (bytes : Bytes) : repair (repair bytes) = repair bytes := by
  rw [repair, pieces_repair]
  refine flatMap_mended ?_
  intro piece _
  cases piece <;> rfl

end Utf8

/-- The literal of a byte string without stray bytes is that of the repaired one. -/
theorem Literal.quoted_repair {bytes : Bytes}
    (h : (Utf8.pieces bytes).any Utf8.Piece.isStray = false) :
    quoted (Utf8.repair bytes) = quoted bytes := by
  rw [quoted, quoted, encode_eq_flatMap, encode_eq_flatMap, Utf8.pieces_repair]
  congr 2
  refine Utf8.flatMap_mended ?_
  intro piece hpiece
  have hstray := List.any_eq_false.1 h piece hpiece
  cases piece with
  | whole lead trailing => rfl
  | stray b => exact absurd rfl hstray
  | cut bytes => rfl

/-! ### The scalars that are written -/

namespace Scalar

/-- Whether a scalar is a double that is written as a number. -/
def isFiniteDouble : Scalar → Bool
  | .double number => number.isFinite
  | _ => false

/-- Whether a scalar is a timestamp. -/
def isTimestamp : Scalar → Bool
  | .timestamp _ _ => true
  | _ => false

/-- Whether a scalar holds a byte that begins no sequence, where it may hold any bytes. -/
def hasStray : Scalar → Bool
  | .string content | .code content | .symbol content =>
    (Utf8.pieces content).any Utf8.Piece.isStray
  | _ => false

end Scalar

namespace Value

mutual

/-- **The scalars of a value that are written**, in order.  Code with a scope is written like code
without one. -/
def scalars : Value → List Scalar
  | .scalar content => [content]
  | .codeWithScope content _ => [.code content]
  | .document entries => scalarsOfEntries entries
  | .array items => scalarsOfItems items

/-- The scalars of the entries of a document. -/
def scalarsOfEntries : List (String × Value) → List Scalar
  | [] => []
  | (_, value) :: rest => value.scalars ++ scalarsOfEntries rest

/-- The scalars of the items of an array. -/
def scalarsOfItems : List Value → List Scalar
  | [] => []
  | value :: rest => value.scalars ++ scalarsOfItems rest

end

end Value

/-- **The scalars of a container that are written**, in order. -/
def Container.scalars (root : Container) : List Scalar := root.toValue.scalars

/-! ### The normal form of normal forms -/

theorem normal_ofText {content : Bytes} (h : Utf8.repair content = content) :
    (Value.ofText content).normal = .ofText content := congrArg Value.ofText h

theorem normal_entry {key : String} {value : Value} (h : value.normal = value) :
    (Value.document [(key, value)]).normal = .document [(key, value)] := by
  simp only [Value.normal, Value.normalEntries, h]

theorem normal_two_entries {key key' : String} {value value' : Value} (h : value.normal = value)
    (h' : value'.normal = value') :
    (Value.document [(key, value), (key', value')]).normal =
      .document [(key, value), (key', value')] := by
  simp only [Value.normal, Value.normalEntries, h, h']

theorem repair_of_isPlain {digits : Bytes} (h : ∀ b ∈ digits, IsPlain b) :
    Utf8.repair digits = digits := (Literal.encode_of_plain h).2

/-- The normal form of a scalar is its own normal form. -/
theorem Scalar.normal_normal {content : Scalar} (h : content.isFiniteDouble = false) :
    content.normal.normal = content.normal := by
  have htext (text : String) :
      (Value.ofText (Utf8.encode text)).normal = .ofText (Utf8.encode text) :=
    normal_ofText (Utf8.repair_encode text)
  have hhex (bytes : Bytes) :
      (Value.ofText (Hex.standard bytes)).normal = .ofText (Hex.standard bytes) :=
    normal_ofText (repair_of_isPlain fun _ hb => Hex.isPlain_of_mem_standard hb)
  cases content with
  | double number =>
      have hnumber : number.isFinite = false := h
      rw [Scalar.normal, hnumber]
      rfl
  | string content => exact normal_ofText (Utf8.repair_repair content)
  | code content => exact normal_ofText (Utf8.repair_repair content)
  | symbol content => exact normal_ofText (Utf8.repair_repair content)
  | binary subtype content =>
      exact normal_two_entries (hhex [subtype])
        (normal_ofText (repair_of_isPlain fun _ hb => Base64.isPlain_of_mem_standard hb))
  | objectId id => exact normal_entry (hhex id.bytes)
  | regex pattern options => exact normal_two_entries (htext pattern) (htext options)
  | dbPointer collection id =>
      cases id with
      | none => exact normal_entry (htext collection)
      | some id => exact normal_two_entries (htext collection) (hhex id.bytes)
  | timestamp seconds ordinal => exact normal_entry (normal_two_entries rfl rfl)
  | undefined | boolean truth | date milliseconds | null | int32 number | int64 number | minKey
  | maxKey => rfl

mutual

/-- **The normal form is its own normal form.** -/
theorem normal_normal (value : Value)
    (h : ∀ content ∈ value.scalars, content.isFiniteDouble = false) :
    value.normal.normal = value.normal := by
  cases value with
  | scalar content => exact Scalar.normal_normal (h content List.mem_cons_self)
  | codeWithScope content scope => exact normal_ofText (Utf8.repair_repair content)
  | document entries => exact congrArg Value.document (normalEntries_normalEntries entries h)
  | array items => exact congrArg Value.array (normalItems_normalItems items h)

theorem normalEntries_normalEntries (entries : Document)
    (h : ∀ content ∈ Value.scalarsOfEntries entries, content.isFiniteDouble = false) :
    Value.normalEntries (Value.normalEntries entries) = Value.normalEntries entries := by
  cases entries with
  | nil => rfl
  | cons entry rest =>
      obtain ⟨key, value⟩ := entry
      obtain ⟨hvalue, hrest⟩ := List.forall_mem_append.1 h
      simp only [Value.normalEntries, normal_normal value hvalue,
        normalEntries_normalEntries rest hrest]

theorem normalItems_normalItems (items : List Value)
    (h : ∀ content ∈ Value.scalarsOfItems items, content.isFiniteDouble = false) :
    Value.normalItems (Value.normalItems items) = Value.normalItems items := by
  cases items with
  | nil => rfl
  | cons value rest =>
      obtain ⟨hvalue, hrest⟩ := List.forall_mem_append.1 h
      simp only [Value.normalItems, normal_normal value hvalue, normalItems_normalItems rest hrest]

end

theorem Scalar.nesting_normal (content : Scalar) : content.normal.nesting = content.nesting := by
  cases content with
  | double number =>
      rw [Scalar.normal]
      split <;> rfl
  | dbPointer collection id => cases id <;> rfl
  | string | binary | undefined | objectId | boolean | date | null | regex | code | symbol | int32
  | timestamp | int64 | minKey | maxKey => rfl

mutual

/-- The normal form of a value nests as deeply as the value. -/
theorem nesting_normal (value : Value) : value.normal.nesting = value.nesting := by
  cases value with
  | scalar content => exact Scalar.nesting_normal content
  | codeWithScope content scope => rfl
  | document entries =>
      simp only [Value.normal, Value.nesting, nestingOfEntries_normalEntries entries]
  | array items => simp only [Value.normal, Value.nesting, nestingOfItems_normalItems items]

theorem nestingOfEntries_normalEntries (entries : Document) :
    Value.nestingOfEntries (Value.normalEntries entries) = Value.nestingOfEntries entries := by
  cases entries with
  | nil => rfl
  | cons entry rest =>
      obtain ⟨key, value⟩ := entry
      simp only [Value.normalEntries, Value.nestingOfEntries, nesting_normal value,
        nestingOfEntries_normalEntries rest]

theorem nestingOfItems_normalItems (items : List Value) :
    Value.nestingOfItems (Value.normalItems items) = Value.nestingOfItems items := by
  cases items with
  | nil => rfl
  | cons value rest =>
      simp only [Value.normalItems, Value.nestingOfItems, nesting_normal value,
        nestingOfItems_normalItems rest]

end

/-! ### The text of normal forms -/

/-- Whether a scalar is written like its normal form. -/
def Scalar.IsSettled (content : Scalar) : Prop :=
  content.isFiniteDouble = false ∧ content.isTimestamp = false ∧ content.hasStray = false

theorem quotedDigits_eq_quoted {digits : Bytes} (h : ∀ b ∈ digits, IsPlain b) :
    Encoder.quotedDigits digits = Literal.quoted digits := by
  rw [Literal.quoted, (Literal.encode_of_plain h).1]
  rfl

theorem valueText_document {depth : Nat} (h : depth < nestingLimit) (entries : Document) :
    valueText depth (.document entries) = bracketed .brace (memberTexts (depth + 1) entries) := by
  rw [valueText, if_neg (Nat.not_le_of_lt h)]

theorem valueText_ofInteger {depth : Nat} {z : Int} (h : Grammar.Fits z) :
    valueText depth (.ofInteger z) = Decimal.ofInt z :=
  congrArg Decimal.ofInt (Int64.toInt_ofInt_of_le h.1 h.2)

/-- **The text of the normal form of a scalar** is the text of the scalar. -/
theorem valueText_normal_scalar {content : Scalar} (h : content.IsSettled) {depth : Nat}
    (hdepth : depth + content.nesting ≤ nestingLimit) :
    valueText depth content.normal = Encoder.scalarText content := by
  obtain ⟨hfinite, htimestamp, hstray⟩ := h
  have hhex (bytes : Bytes) :
      Encoder.quotedDigits (Hex.standard bytes) = Literal.quoted (Hex.standard bytes) :=
    quotedDigits_eq_quoted fun _ hb => Hex.isPlain_of_mem_standard hb
  cases content with
  | double number =>
      have hnumber : number.isFinite = false := hfinite
      rw [Scalar.normal, Encoder.scalarText, Encoder.doubleText, hnumber]
      rfl
  | string content => exact Literal.quoted_repair hstray
  | code content => exact Literal.quoted_repair hstray
  | symbol content => exact Literal.quoted_repair hstray
  | binary subtype content =>
      have hcontent : Encoder.quotedDigits (Base64.standard content) =
          Literal.quoted (Base64.standard content) :=
        quotedDigits_eq_quoted fun _ hb => Base64.isPlain_of_mem_standard hb
      rw [Scalar.normal, valueText_document hdepth, Encoder.scalarText, Encoder.binaryText,
        Base64.flatten_blocks, Base64.encode_eq_standard, Hex.pair_eq_standard, hhex, hcontent]
      rfl
  | objectId id =>
      rw [Scalar.normal, valueText_document hdepth, Encoder.scalarText, id.toHex_eq_standard, hhex]
      rfl
  | dbPointer collection id =>
      cases id with
      | none => exact valueText_document hdepth _
      | some id =>
          rw [Scalar.normal, valueText_document hdepth, Encoder.scalarText, Encoder.dbPointerText,
            id.toHex_eq_standard, hhex]
          rfl
  | int32 number => exact valueText_ofInteger (fits_int32 number)
  | timestamp seconds ordinal => cases htimestamp
  | undefined | date milliseconds | regex pattern options => exact valueText_document hdepth _
  | minKey | maxKey => exact valueText_document hdepth _
  | boolean truth | null | int64 number => rfl

mutual

/-- **The text of the normal form** is the text of the value, but for stray bytes and timestamps. -/
theorem valueText_normal (value : Value) (h : ∀ content ∈ value.scalars, content.IsSettled)
    {depth : Nat} (hdepth : depth + value.nesting ≤ nestingLimit) :
    valueText depth value.normal = valueText depth value := by
  cases value with
  | scalar content => exact valueText_normal_scalar (h content List.mem_cons_self) hdepth
  | codeWithScope content scope =>
      exact Literal.quoted_repair (h (.code content) List.mem_cons_self).2.2
  | document entries =>
      simp only [Value.nesting] at hdepth
      simp only [Value.normal, valueText]
      rw [memberTexts_normalEntries entries h (by omega)]
  | array items =>
      simp only [Value.nesting] at hdepth
      simp only [Value.normal, valueText]
      rw [itemTexts_normalItems items h (by omega)]

theorem memberTexts_normalEntries (entries : Document)
    (h : ∀ content ∈ Value.scalarsOfEntries entries, content.IsSettled) {depth : Nat}
    (hdepth : depth + Value.nestingOfEntries entries ≤ nestingLimit) :
    memberTexts depth (Value.normalEntries entries) = memberTexts depth entries := by
  cases entries with
  | nil => rfl
  | cons entry rest =>
      obtain ⟨key, value⟩ := entry
      obtain ⟨hvalue, hrest⟩ := List.forall_mem_append.1 h
      simp only [Value.nestingOfEntries] at hdepth
      simp only [Value.normalEntries, memberTexts]
      rw [valueText_normal value hvalue (by omega), memberTexts_normalEntries rest hrest (by omega)]

theorem itemTexts_normalItems (items : List Value)
    (h : ∀ content ∈ Value.scalarsOfItems items, content.IsSettled) {depth : Nat}
    (hdepth : depth + Value.nestingOfItems items ≤ nestingLimit) :
    itemTexts depth (Value.normalItems items) = itemTexts depth items := by
  cases items with
  | nil => rfl
  | cons value rest =>
      obtain ⟨hvalue, hrest⟩ := List.forall_mem_append.1 h
      simp only [Value.nestingOfItems] at hdepth
      simp only [Value.normalItems, itemTexts]
      rw [valueText_normal value hvalue (by omega), itemTexts_normalItems rest hrest (by omega)]

end

/-! ### Roots -/

namespace Container

theorem nesting_normal (root : Container) : root.normal.nesting = root.nesting := by
  rw [nesting, ← root.normal_toValue]
  exact DocCodec.nesting_normal root.toValue

theorem toJson_normal {root : Container} (h : ∀ content ∈ root.scalars, content.IsSettled)
    (hnesting : root.nesting ≤ nestingLimit) : root.normal.toJson = root.toJson := by
  have hdepth : 0 + root.toValue.nesting ≤ nestingLimit := by rwa [Nat.zero_add]
  rw [toJson_eq_valueText, toJson_eq_valueText, ← root.normal_toValue]
  exact valueText_normal root.toValue h hdepth

/-- The normal form of a container is its own normal form. -/
theorem normal_normal {root : Container}
    (h : ∀ content ∈ root.scalars, content.isFiniteDouble = false) :
    root.normal.normal = root.normal := by
  cases root with
  | document entries => exact congrArg Container.document (normalEntries_normalEntries entries h)
  | array items => exact congrArg Container.array (normalItems_normalItems items h)

end Container

/-! ### The command -/

namespace Command

/-- The command decodes the text of its file. -/
theorem reformatText_of_decode {text : Bytes} {root : Container} (h : decode text = .ok root) :
    reformatText text = ⟨0, root.toJson ++ [Ascii.newline], []⟩ := by
  have hparts := (ChunkReader.ofBytes text none).isPart_of_mem_readings
  have hdecode := decodeReadings_of_isPart
    (isPart_of_mem_retrying fun r hr => .inr (hparts r hr))
  rw [flatMap_given_retrying, ChunkReader.flatMap_given_readings] at hdecode
  have hread : decodeReadings .never
      (retrying (ChunkReader.ofBytes text none).readings) = .ok root := by
    rw [hdecode, ← h, decode_eq_decoded]
    rfl
  rw [reformatText, reformat, hread]

end Command

/-- The line feed that the command prints. -/
def Grammar.Spaces.newline : Grammar.Spaces := ⟨[Ascii.newline], by simp [Ascii.isSpace]⟩

/-- **Re-encoding comes to a fixed point.**  A container that fits and holds no finite double is
written, read, written, read and written again: the last two texts are the same, and the first is
too if there is no timestamp and, in strings, symbols and code, no byte that begins no sequence.  So
the command reproduces its own output. -/
theorem toJson_stable (root : Container) (hnesting : root.nesting ≤ nestingLimit)
    (hfinite : ∀ content ∈ root.scalars, content.isFiniteDouble = false) :
    ∃ first second, decode root.toJson = .ok first ∧ decode first.toJson = .ok second ∧
      second.toJson = first.toJson ∧
      ((∀ content ∈ root.scalars, content.isTimestamp = false ∧ content.hasStray = false) →
        first.toJson = root.toJson) ∧
      Command.reformatText root.toJson = ⟨0, first.toJson ++ [Ascii.newline], []⟩ ∧
      Command.reformatText (first.toJson ++ [Ascii.newline]) =
        ⟨0, first.toJson ++ [Ascii.newline], []⟩ := by
  have hfirst := decode_toJson_of_le hnesting
  have hfits : root.normal.nesting ≤ nestingLimit := by rwa [root.nesting_normal]
  have hagain (after : Grammar.Spaces) :
      decode (root.normal.toJson ++ after.bytes) = .ok root.normal := by
    have hspaces := decode_toJson_spaces hfits after
    rwa [Container.normal_normal hfinite] at hspaces
  have hsecond : decode root.normal.toJson = .ok root.normal := by
    have hnone := hagain .none
    rwa [Grammar.Spaces.bytes_none, List.append_nil] at hnone
  refine ⟨root.normal, root.normal, hfirst, hsecond, rfl, ?_,
    Command.reformatText_of_decode hfirst, Command.reformatText_of_decode (hagain .newline)⟩
  intro hsettled
  exact Container.toJson_normal (fun content hcontent => ⟨hfinite content hcontent,
    hsettled content hcontent⟩) hnesting

/-- An array with a timestamp, a stray byte and an infinite double. -/
def unsettled : Container :=
  .array [.scalar (.timestamp 1 2), .scalar (.string [0xFF]),
    .scalar (.double ⟨0x7FF0000000000000⟩)]

/-- An array with a string whose last sequence is cut off, and code whose scope has a timestamp. -/
def cutOff : Container :=
  .array [.scalar (.string [Ascii.zero, 0xC3]),
    .codeWithScope [Ascii.zero] [("t", .scalar (.timestamp 1 2))]]

theorem toJson_stable_of_arrays :
    (∃ first second, decode unsettled.toJson = .ok first ∧ decode first.toJson = .ok second ∧
      second.toJson = first.toJson) ∧
    ∃ first, decode cutOff.toJson = .ok first ∧ first.toJson = cutOff.toJson := by
  obtain ⟨first, second, hfirst, hsecond, hstable, -⟩ :=
    toJson_stable unsettled (by decide) (by decide)
  obtain ⟨settled, -, hsettled, -, -, hsame, -⟩ := toJson_stable cutOff (by decide) (by decide)
  exact ⟨⟨first, second, hfirst, hsecond, hstable⟩, settled, hsettled, hsame (by decide +kernel)⟩

end DocCodec
