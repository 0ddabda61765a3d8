/-
**Decoding what was written.**

A container that is written and then decoded comes back in its normal form: the same tree with the
same keys in the same order, where every scalar is in its normal form and code has lost its scope.
This holds as long as the text does not nest too deeply.  The writer counts the documents and arrays
that it is in, but not the small objects that some scalars are written as, so a text may nest too
deeply although nothing was left out of it.

Main definitions:

* `DocCodec.Value.normal`, `DocCodec.Container.normal` — **the normal form**;
* `DocCodec.Value.nesting`, `DocCodec.Container.nesting` — how many containers of the text are open
  at a time, if nothing is left out;
* `DocCodec.Value.levels`, `DocCodec.Container.levels` — how many documents and arrays are nested.

Main results:

* `DocCodec.renders_valueText` — a text from which nothing is left out renders the normal form;
* `DocCodec.overflows_valueText` — the text of a value that does not fit is refused;
* `DocCodec.decode_toJson` — **decoding what was written**.
-/

import DocCodec.Proofs.Decoder.Language
import DocCodec.Proofs.RoundTrip.Scalar
import DocCodec.Proofs.RoundTrip.TooDeep

set_option relaxedAutoImplicit false
set_option autoImplicit false

namespace DocCodec

open Encoder (valueText memberTexts itemTexts)

/-! ### Normal forms -/

namespace Value

mutual

/-- **The normal form of a value**: what it is read back as. -/
def normal : Value → Value
  | .scalar content => content.normal
  | .codeWithScope content _ => .ofText (Utf8.repair content)
  | .document entries => .document (normalEntries entries)
  | .array items => .array (normalItems items)

/-- The normal form of entries, with their keys. -/
def normalEntries : List (String × Value) → List (String × Value)
  | [] => []
  | (key, value) :: rest => (key, value.normal) :: normalEntries rest

/-- The normal form of items. -/
def normalItems : List Value → List Value
  | [] => []
  | value :: rest => value.normal :: normalItems rest

end

mutual

/-- **How many containers of the text of a value are open at a time**, if nothing is left out. -/
def nesting : Value → Nat
  | .scalar content => content.nesting
  | .codeWithScope _ _ => 0
  | .document entries => nestingOfEntries entries + 1
  | .array items => nestingOfItems items + 1

/-- How many containers within a document are open at a time. -/
def nestingOfEntries : List (String × Value) → Nat
  | [] => 0
  | (_, value) :: rest => max value.nesting (nestingOfEntries rest)

/-- How many containers within an array are open at a time. -/
def nestingOfItems : List Value → Nat
  | [] => 0
  | value :: rest => max value.nesting (nestingOfItems rest)

end

mutual

/-- **How many documents and arrays are nested in a value**, itself included. -/
def levels : Value → Nat
  | .scalar _ | .codeWithScope _ _ => 0
  | .document entries => levelsOfEntries entries + 1
  | .array items => levelsOfItems items + 1

/-- How many documents and arrays are nested in the values of a document. -/
def levelsOfEntries : List (String × Value) → Nat
  | [] => 0
  | (_, value) :: rest => max value.levels (levelsOfEntries rest)

/-- How many documents and arrays are nested in the items of an array. -/
def levelsOfItems : List Value → Nat
  | [] => 0
  | value :: rest => max value.levels (levelsOfItems rest)

end

mutual

/-- The text of a value nests at least as deeply as its documents and arrays, and at most two
deeper. -/
theorem nesting_bounds (value : Value) :
    value.levels ≤ value.nesting ∧ value.nesting ≤ value.levels + 2 := by
  cases value with
  | scalar content => exact ⟨Nat.zero_le _, content.nesting_le_two⟩
  | codeWithScope content scope => exact ⟨Nat.le_refl 0, Nat.zero_le 2⟩
  | document entries =>
      have hentries := nestingOfEntries_bounds entries
      simp only [nesting, levels]
      omega
  | array items =>
      have hitems := nestingOfItems_bounds items
      simp only [nesting, levels]
      omega

theorem nestingOfEntries_bounds (entries : List (String × Value)) :
    levelsOfEntries entries ≤ nestingOfEntries entries ∧
      nestingOfEntries entries ≤ levelsOfEntries entries + 2 := by
  cases entries with
  | nil => exact ⟨Nat.le_refl 0, Nat.zero_le 2⟩
  | cons entry rest =>
      obtain ⟨key, value⟩ := entry
      have hvalue := nesting_bounds value
      have hrest := nestingOfEntries_bounds rest
      simp only [nestingOfEntries, levelsOfEntries]
      omega

theorem nestingOfItems_bounds (items : List Value) :
    levelsOfItems items ≤ nestingOfItems items ∧
      nestingOfItems items ≤ levelsOfItems items + 2 := by
  cases items with
  | nil => exact ⟨Nat.le_refl 0, Nat.zero_le 2⟩
  | cons value rest =>
      have hvalue := nesting_bounds value
      have hrest := nestingOfItems_bounds rest
      simp only [nestingOfItems, levelsOfItems]
      omega

end

theorem levels_le_nesting (value : Value) : value.levels ≤ value.nesting := (nesting_bounds value).1

end Value

namespace Container

/-- **The normal form of a container.** -/
def normal : Container → Container
  | document entries => .document (Value.normalEntries entries)
  | array items => .array (Value.normalItems items)

/-- How many containers of the text of a container are open at a time. -/
def nesting (root : Container) : Nat := root.toValue.nesting

/-- How many documents and arrays are nested in a container, itself included. -/
def levels (root : Container) : Nat := root.toValue.levels

theorem normal_toValue (root : Container) : root.toValue.normal = root.normal.toValue := by
  cases root <;> rfl

end Container

/-! ### Texts from which nothing is left out -/

mutual

/-- **A text from which nothing is left out** renders the normal form. -/
theorem renders_valueText (value : Value) {depth : Nat} (h : depth + value.levels ≤ nestingLimit) :
    Renders (valueText depth value) value.normal value.nesting := by
  cases value with
  | scalar content => exact renders_scalarText content
  | codeWithScope content scope => exact renders_quoted content
  | document entries =>
      simp only [Value.levels] at h
      have hentries : RendersMembers (memberTexts (depth + 1) entries) _ _ :=
        renders_memberTexts entries (by omega)
      rw [valueText, if_neg (by omega)]
      exact renders_document hentries
  | array items =>
      simp only [Value.levels] at h
      have hitems : RendersItems (itemTexts (depth + 1) items) _ _ :=
        renders_itemTexts items (by omega)
      rw [valueText, if_neg (by omega)]
      exact renders_array hitems

theorem renders_memberTexts (entries : Document) {depth : Nat}
    (h : depth + Value.levelsOfEntries entries ≤ nestingLimit) :
    RendersMembers (memberTexts depth entries) (Value.normalEntries entries)
      (Value.nestingOfEntries entries) := by
  cases entries with
  | nil => exact .nil
  | cons entry rest =>
      obtain ⟨key, value⟩ := entry
      simp only [Value.levelsOfEntries] at h
      exact .cons ((renders_valueText value (by omega)).member key)
        (renders_memberTexts rest (by omega))

theorem renders_itemTexts (items : List Value) {depth : Nat}
    (h : depth + Value.levelsOfItems items ≤ nestingLimit) :
    RendersItems (itemTexts depth items) (Value.normalItems items)
      (Value.nestingOfItems items) := by
  cases items with
  | nil => exact .nil
  | cons value rest =>
      simp only [Value.levelsOfItems] at h
      exact .cons (renders_valueText value (by omega)) (renders_itemTexts rest (by omega))

end

/-! ### Values that do not fit -/

/-- Without room an elision is refused like a container. -/
theorem overflows_elision : Overflows 0 Encoder.elision := by
  have helision : Encoder.elision = Bracket.brace.opening ::
      [Ascii.space, Ascii.point, Ascii.point, Ascii.point, Ascii.space, Ascii.closeBrace] := by
    decide
  rw [helision]
  exact overflows_opening .brace _

theorem overflows_bracketed {kind : Bracket} {depth : Nat} (hdepth : depth < nestingLimit)
    {text : Bytes} {texts : List Bytes}
    (h : OverflowsInside kind (nestingLimit - (depth + 1)) (Encoder.between (text :: texts))) :
    Overflows (nestingLimit - depth) (Encoder.bracketed kind (text :: texts)) := by
  have hroom : nestingLimit - depth = nestingLimit - (depth + 1) + 1 := by omega
  rw [Encoder.bracketed_cons, hroom]
  exact overflows_container h _

mutual

/-- **The text of a value that does not fit** is refused. -/
theorem overflows_valueText (value : Value) {depth : Nat} (hdepth : depth ≤ nestingLimit)
    (h : nestingLimit < depth + value.nesting) :
    Overflows (nestingLimit - depth) (valueText depth value) := by
  cases value with
  | scalar content =>
      simp only [Value.nesting] at h
      exact overflows_of_renders (renders_scalarText content) (by omega)
  | codeWithScope content scope => exact absurd h (Nat.not_lt_of_le hdepth)
  | document entries =>
      rcases Nat.lt_or_ge depth nestingLimit with hlt | hge
      · rw [valueText, if_neg (Nat.not_le_of_lt hlt)]
        simp only [Value.nesting] at h
        have hentries := overflows_memberTexts entries (Nat.succ_le_of_lt hlt) (by omega)
        cases entries with
        | nil => exact absurd h (Nat.not_lt_of_le hlt)
        | cons entry rest => exact overflows_bracketed hlt hentries
      · rw [valueText, if_pos hge, Nat.sub_eq_zero_of_le hge]
        exact overflows_elision
  | array items =>
      rcases Nat.lt_or_ge depth nestingLimit with hlt | hge
      · rw [valueText, if_neg (Nat.not_le_of_lt hlt)]
        simp only [Value.nesting] at h
        have hitems := overflows_itemTexts items (Nat.succ_le_of_lt hlt) (by omega)
        cases items with
        | nil => exact absurd h (Nat.not_lt_of_le hlt)
        | cons item rest => exact overflows_bracketed hlt hitems
      · rw [valueText, if_pos hge, Nat.sub_eq_zero_of_le hge]
        exact overflows_elision

theorem overflows_memberTexts (entries : Document) {depth : Nat} (hdepth : depth ≤ nestingLimit)
    (h : nestingLimit < depth + Value.nestingOfEntries entries) :
    OverflowsInside .brace (nestingLimit - depth)
      (Encoder.between (memberTexts depth entries)) := by
  cases entries with
  | nil => exact absurd h (Nat.not_lt_of_le hdepth)
  | cons entry rest =>
      obtain ⟨key, value⟩ := entry
      simp only [Value.nestingOfEntries] at h
      -- The decoder is stopped within the first value that does not fit, after others that do.
      rcases Nat.lt_or_ge nestingLimit (depth + value.nesting) with hvalue | hvalue
      · obtain ⟨more, hmore⟩ := Encoder.exists_between (Encoder.member key (valueText depth value))
          (memberTexts depth rest)
        rw [Encoder.memberTexts_cons, hmore]
        exact overflowsInside_member (overflows_valueText value hdepth hvalue) key more
      · have hrest := overflows_memberTexts rest hdepth (by omega)
        have hlevels : depth + value.levels ≤ nestingLimit :=
          Nat.le_trans (Nat.add_le_add_left value.levels_le_nesting depth) hvalue
        have hfirst := (renders_valueText value hlevels).member key
        cases rest with
        | nil => exact absurd h (by simp only [Value.nestingOfEntries]; omega)
        | cons next rest =>
            rw [Encoder.memberTexts_cons, Encoder.memberTexts_cons, Encoder.between_cons]
            exact overflowsInside_members hfirst (by omega) hrest

theorem overflows_itemTexts (items : List Value) {depth : Nat} (hdepth : depth ≤ nestingLimit)
    (h : nestingLimit < depth + Value.nestingOfItems items) :
    OverflowsInside .square (nestingLimit - depth)
      (Encoder.between (itemTexts depth items)) := by
  cases items with
  | nil => exact absurd h (Nat.not_lt_of_le hdepth)
  | cons value rest =>
      simp only [Value.nestingOfItems] at h
      rcases Nat.lt_or_ge nestingLimit (depth + value.nesting) with hvalue | hvalue
      · obtain ⟨more, hmore⟩ := Encoder.exists_between (valueText depth value)
          (itemTexts depth rest)
        rw [itemTexts, hmore]
        exact overflowsInside_item (overflows_valueText value hdepth hvalue) more
      · have hrest := overflows_itemTexts rest hdepth (by omega)
        have hlevels : depth + value.levels ≤ nestingLimit :=
          Nat.le_trans (Nat.add_le_add_left value.levels_le_nesting depth) hvalue
        have hfirst := renders_valueText value hlevels
        cases rest with
        | nil => exact absurd h (by simp only [Value.nestingOfItems]; omega)
        | cons next rest =>
            rw [itemTexts, itemTexts, Encoder.between_cons]
            exact overflowsInside_items hfirst (by omega) hrest

end

/-! ### Roots -/

theorem toJson_eq_valueText (root : Container) : root.toJson = valueText 0 root.toValue := by
  rw [Encoder.toJson_eq_containerText]
  cases root <;> rfl

/-- A container that fits comes back in its normal form, also with white space after its text. -/
theorem decode_toJson_spaces {root : Container} (h : root.nesting ≤ nestingLimit)
    (after : Grammar.Spaces) : decode (root.toJson ++ after.bytes) = .ok root.normal := by
  have hlevels : 0 + root.toValue.levels ≤ nestingLimit := by
    rw [Nat.zero_add]
    exact Nat.le_trans root.toValue.levels_le_nesting h
  obtain ⟨n, hbytes, hdenoted, hdepth, hsound⟩ := renders_valueText root.toValue hlevels
  rw [root.normal_toValue] at hdenoted
  have htext : root.toJson ++ after.bytes = (⟨.none, n, after⟩ : Grammar.Text).bytes := by
    rw [toJson_eq_valueText, ← hbytes]
    rfl
  rw [htext, decode_bytes, Grammar.Text.reading_eq_ok_iff]
  refine ⟨⟨?_, ?_, hsound⟩, hdenoted⟩
  · rw [hdenoted, Container.container?_toValue]
    rfl
  · rw [Grammar.Text.depth, hdepth]
    exact h

/-- A container that fits comes back in its normal form. -/
theorem decode_toJson_of_le {root : Container} (h : root.nesting ≤ nestingLimit) :
    decode root.toJson = .ok root.normal := by
  have hspaces := decode_toJson_spaces h .none
  rwa [Grammar.Spaces.bytes_none, List.append_nil] at hspaces

/-- A container that does not fit is refused. -/
theorem decode_toJson_of_lt {root : Container} (h : nestingLimit < root.nesting) :
    decode root.toJson = .error .nestingTooDeep := by
  have hlarge : nestingLimit < 0 + root.toValue.nesting := by rwa [Nat.zero_add]
  -- The decoder begins where a value is expected, with room for as many containers as are allowed.
  have hawaits : Decoder.Awaits (nestingLimit - 0) { room := nestingLimit } {} :=
    ⟨.inr ⟨.inl rfl, rfl⟩, ⟨rfl, by rintro frame ⟨⟩⟩, rfl, rfl⟩
  have hdeep := overflows_valueText root.toValue (Nat.zero_le _) hlarge _ _ [] hawaits
  rw [← toJson_eq_valueText, List.append_nil] at hdeep
  rw [decode_eq_decoded]
  exact congrArg (· >>= fun p => p.2.root) hdeep

/-- **Decoding what was written.**  A container comes back in its normal form, unless its text nests
too deeply; the doubles of the normal form are those that their texts are read as. -/
theorem decode_toJson (root : Container) :
    decode root.toJson =
        (if root.nesting ≤ nestingLimit then .ok root.normal else .error .nestingTooDeep) ∧
      ∀ x : Binary64, Numeral.double? x.sixPlaces = some x.readBack := by
  refine ⟨?_, double?_sixPlaces⟩
  split
  · next h => exact decode_toJson_of_le h
  · next h => exact decode_toJson_of_lt (Nat.lt_of_not_le h)

end DocCodec
