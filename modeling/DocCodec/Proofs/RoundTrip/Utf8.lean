/-
**UTF-8 from end to end.**

A text that is valid UTF-8 is read as texts and written as a text.  Its literals stand between
quotation marks, so they are valid by themselves; each is read completely, and what is read is
valid.  What the writer adds to the strings of a value is ASCII, and it cuts a valid string nowhere
but between characters, so the text of a value is valid if its strings are.

Main definitions:

* `DocCodec.Scalar.IsText` — whether a scalar that may hold any bytes holds a text.

Main results:

* `DocCodec.valid_toJson` — **what is written of texts is valid**;
* `DocCodec.Grammar.Node.quoted_infix` — the literals of a tree stand in its text;
* `DocCodec.valid_text_end_to_end` — **a valid text is read completely and written as a valid
  text**.
-/

import DocCodec.Proofs.Decoder.Keys
import DocCodec.Proofs.RoundTrip.Contents
import DocCodec.Proofs.RoundTrip.Stable

set_option relaxedAutoImplicit false
set_option autoImplicit false

namespace DocCodec

open Grammar (Node Items Members Letters Part)

/-! ### What is written -/

/-- Whether a scalar that may hold any bytes holds a text. -/
def Scalar.IsText : Scalar → Prop
  | .string content | .code content | .symbol content => Utf8.Valid content
  | _ => True

theorem Scalar.IsText.valid {content : Scalar} (h : content.IsText) {bytes : Bytes}
    (hbytes : content.bytes? = some bytes) : Utf8.Valid bytes := by
  cases content with
  | string content | code content | symbol content =>
      cases hbytes
      exact h
  | double | binary | undefined | objectId | boolean | date | null | regex | dbPointer | int32
  | timestamp | int64 | minKey | maxKey => cases hbytes

namespace Value

mutual

/-- The byte strings that are written are those of the scalars. -/
theorem exists_scalar_of_mem_contents (value : Value) {depth : Nat} :
    ∀ bytes ∈ value.contents depth, ∃ content ∈ value.scalars, content.bytes? = some bytes := by
  intro bytes hbytes
  cases value with
  | scalar content => exact ⟨content, List.mem_cons_self, Option.mem_toList.1 hbytes⟩
  | codeWithScope content scope =>
      rw [List.mem_singleton.1 hbytes]
      exact ⟨.code content, List.mem_cons_self, rfl⟩
  | document entries =>
      rw [contents] at hbytes
      split at hbytes
      · cases hbytes
      · exact exists_scalar_of_mem_contentsOfEntries entries bytes hbytes
  | array items =>
      rw [contents] at hbytes
      split at hbytes
      · cases hbytes
      · exact exists_scalar_of_mem_contentsOfItems items bytes hbytes

theorem exists_scalar_of_mem_contentsOfEntries (entries : Document) {depth : Nat} :
    ∀ bytes ∈ contentsOfEntries depth entries,
      ∃ content ∈ scalarsOfEntries entries, content.bytes? = some bytes := by
  intro bytes hbytes
  cases entries with
  | nil => cases hbytes
  | cons entry rest =>
      obtain ⟨key, value⟩ := entry
      rcases List.mem_append.1 hbytes with hbytes | hbytes
      · obtain ⟨content, hcontent, h⟩ := exists_scalar_of_mem_contents value bytes hbytes
        exact ⟨content, List.mem_append_left _ hcontent, h⟩
      · obtain ⟨content, hcontent, h⟩ := exists_scalar_of_mem_contentsOfEntries rest bytes hbytes
        exact ⟨content, List.mem_append_right _ hcontent, h⟩

theorem exists_scalar_of_mem_contentsOfItems (items : List Value) {depth : Nat} :
    ∀ bytes ∈ contentsOfItems depth items,
      ∃ content ∈ scalarsOfItems items, content.bytes? = some bytes := by
  intro bytes hbytes
  cases items with
  | nil => cases hbytes
  | cons value rest =>
      rcases List.mem_append.1 hbytes with hbytes | hbytes
      · obtain ⟨content, hcontent, h⟩ := exists_scalar_of_mem_contents value bytes hbytes
        exact ⟨content, List.mem_append_left _ hcontent, h⟩
      · obtain ⟨content, hcontent, h⟩ := exists_scalar_of_mem_contentsOfItems rest bytes hbytes
        exact ⟨content, List.mem_append_right _ hcontent, h⟩

end

end Value

/-- **What is written of texts is valid.** -/
theorem valid_toJson {root : Container} (h : ∀ content ∈ root.scalars, content.IsText) :
    Utf8.Valid root.toJson := by
  rw [toJson_eq_valueText]
  refine Encoder.joins_valueText Utf8.joins_valid root.toValue ?_
  intro bytes hbytes
  obtain ⟨content, hcontent, hheld⟩ := root.toValue.exists_scalar_of_mem_contents bytes hbytes
  exact Literal.valid_quoted ((h content hcontent).valid hheld)

/-! ### What is read -/

namespace Grammar

/-- The literal of a part that is a string or a key. -/
def Part.letters? : Part → Option Letters
  | .number _ => none
  | .string letters | .key letters => some letters

theorem quoted_infix_keyBytes (before : Spaces) (key : Letters) (gap lead : Spaces)
    (more : Bytes) : key.quoted <:+: keyBytes before key gap lead ++ more := by
  refine ⟨before.bytes, gap.bytes ++ (Ascii.colon :: lead.bytes) ++ more, ?_⟩
  simp [keyBytes]

mutual

/-- **The literals of a tree stand in its text.** -/
theorem Node.quoted_infix (n : Node) :
    ∀ part ∈ n.parts, ∀ letters ∈ part.letters?, letters.quoted <:+: n.bytes := by
  intro part hpart letters hletters
  cases n with
  | word word => cases hpart
  | number number =>
      rw [List.mem_singleton.1 hpart] at hletters
      cases hletters
  | string literal =>
      rw [List.mem_singleton.1 hpart] at hletters
      cases hletters
      exact List.infix_rfl
  | empty kind gap => cases hpart
  | array items =>
      have hitems := items.quoted_infix part hpart letters hletters
      exact hitems.trans ⟨[Ascii.openSquare], [Ascii.closeSquare], rfl⟩
  | object members =>
      have hmembers := members.quoted_infix part hpart letters hletters
      exact hmembers.trans ⟨[Ascii.openBrace], [Ascii.closeBrace], rfl⟩

theorem Items.quoted_infix (items : Items) :
    ∀ part ∈ items.parts, ∀ letters ∈ part.letters?, letters.quoted <:+: items.bytes := by
  intro part hpart letters hletters
  cases items with
  | last before value after =>
      have hvalue := value.quoted_infix part hpart letters hletters
      exact hvalue.trans ⟨before.bytes, after.bytes, by simp [Items.bytes]⟩
  | more before value after rest =>
      rcases List.mem_append.1 hpart with hpart | hpart
      · have hvalue := value.quoted_infix part hpart letters hletters
        exact hvalue.trans ⟨before.bytes, after.bytes ++ (Ascii.comma :: rest.bytes), by
          simp [Items.bytes]⟩
      · have hrest := rest.quoted_infix part hpart letters hletters
        exact hrest.trans ⟨before.bytes ++ value.bytes ++ after.bytes ++ [Ascii.comma], [], by
          simp [Items.bytes]⟩

theorem Members.quoted_infix (members : Members) :
    ∀ part ∈ members.parts, ∀ letters ∈ part.letters?, letters.quoted <:+: members.bytes := by
  intro part hpart letters hletters
  cases members with
  | last before key gap lead value after =>
      rcases List.mem_cons.1 hpart with rfl | hpart
      · cases hletters
        exact quoted_infix_keyBytes ..
      · have hvalue := value.quoted_infix part hpart letters hletters
        exact hvalue.trans ⟨keyBytes before key gap lead, after.bytes, by simp [Members.bytes]⟩
  | more before key gap lead value after rest =>
      rcases List.mem_cons.1 hpart with rfl | hpart
      · cases hletters
        exact quoted_infix_keyBytes ..
      rcases List.mem_append.1 hpart with hpart | hpart
      · have hvalue := value.quoted_infix part hpart letters hletters
        exact hvalue.trans ⟨keyBytes before key gap lead,
          after.bytes ++ (Ascii.comma :: rest.bytes), by simp [Members.bytes]⟩
      · have hrest := rest.quoted_infix part hpart letters hletters
        exact hrest.trans ⟨keyBytes before key gap lead ++ value.bytes ++ after.bytes ++
          [Ascii.comma], [], by simp [Members.bytes]⟩

end

/-- The literals of a valid text are valid. -/
theorem Text.valid_bytes_letters {t : Text} (h : Utf8.Valid t.bytes) {part : Part}
    (hpart : part ∈ t.root.parts) {letters : Letters} (hletters : letters ∈ part.letters?) :
    Utf8.Valid letters.bytes := by
  obtain ⟨before, after, hsplit⟩ := t.root.quoted_infix part hpart letters hletters
  have hbytes : t.bytes = (t.before.bytes ++ before) ++
      Ascii.quote :: (letters.bytes ++ Ascii.quote :: (after ++ t.after.bytes)) := by
    rw [Text.bytes, ← hsplit]
    simp [Letters.quoted, Letters.raw]
  rw [hbytes] at h
  have hbehind := (h.of_append_cons (by decide)).2
  exact (hbehind.of_append_cons (by decide)).1

mutual

/-- The scalars that a tree denotes are texts if its literals denote texts. -/
theorem Node.isText_scalars (n : Node)
    (h : ∀ part ∈ n.parts, ∀ letters ∈ part.letters?, Utf8.Valid letters.content) :
    ∀ content ∈ n.denoted.scalars, content.IsText := by
  cases n with
  | word word =>
      refine List.forall_mem_singleton.2 ?_
      cases word <;> trivial
  | number number =>
      refine List.forall_mem_singleton.2 ?_
      unfold Number.denoted
      split <;> trivial
  | string letters =>
      exact List.forall_mem_singleton.2 (h _ List.mem_cons_self letters rfl)
  | empty kind gap => cases kind <;> exact List.forall_mem_nil _
  | array items => exact items.isText_scalars h
  | object members => exact members.isText_scalars h

theorem Items.isText_scalars (items : Items)
    (h : ∀ part ∈ items.parts, ∀ letters ∈ part.letters?, Utf8.Valid letters.content) :
    ∀ content ∈ Value.scalarsOfItems items.denoted, content.IsText := by
  cases items with
  | last before value after =>
      exact List.forall_mem_append.2 ⟨value.isText_scalars h, List.forall_mem_nil _⟩
  | more before value after rest =>
      obtain ⟨hvalue, hrest⟩ := List.forall_mem_append.1 h
      exact List.forall_mem_append.2 ⟨value.isText_scalars hvalue, rest.isText_scalars hrest⟩

theorem Members.isText_scalars (members : Members)
    (h : ∀ part ∈ members.parts, ∀ letters ∈ part.letters?, Utf8.Valid letters.content) :
    ∀ content ∈ Value.scalarsOfEntries members.denoted, content.IsText := by
  cases members with
  | last before key gap lead value after =>
      obtain ⟨-, hvalue⟩ := List.forall_mem_cons.1 h
      exact List.forall_mem_append.2 ⟨value.isText_scalars hvalue, List.forall_mem_nil _⟩
  | more before key gap lead value after rest =>
      obtain ⟨-, hparts⟩ := List.forall_mem_cons.1 h
      obtain ⟨hvalue, hrest⟩ := List.forall_mem_append.1 hparts
      exact List.forall_mem_append.2 ⟨value.isText_scalars hvalue, rest.isText_scalars hrest⟩

end

end Grammar

/-! ### From end to end -/

/-- The literals of a text that is decoded are read completely, those of keys as texts. -/
theorem Grammar.Text.content_eq_complete {t : Text} (ht : t.Admitted) (h : Utf8.Valid t.bytes)
    {part : Part} (hpart : part ∈ t.root.parts) {letters : Letters}
    (hletters : letters ∈ part.letters?) :
    letters.content = letters.complete ∧ Utf8.Valid letters.content ∧
      (part = .key letters → Utf8.encode letters.text = letters.complete) := by
  have hsound := ht.sound part hpart
  have hvalid := Text.valid_bytes_letters h hpart hletters
  cases part with
  | number n => cases hletters
  | string literal =>
      cases hletters
      obtain ⟨hcontent, hbytes⟩ := Letters.content_eq_complete hsound hvalid
      exact ⟨hcontent, hbytes, nofun⟩
  | key literal =>
      cases hletters
      obtain ⟨hpaired, text, htext⟩ := hsound
      obtain ⟨hcontent, hbytes⟩ := Letters.content_eq_complete hpaired hvalid
      refine ⟨hcontent, hbytes, ?_⟩
      intro _
      rw [Letters.text, htext, ← hcontent]
      exact Utf8.encode_of_decode htext

/-- **A valid text is read completely and written as a valid text.**  No key of it is refused for
not being UTF-8.  If it is decoded, it is the text of a tree each of whose literals is read as what
all its letters denote, which is valid; so the scalars are texts, and what is written of them is
valid. -/
theorem valid_text_end_to_end (x : Bytes) (hx : Utf8.Valid x) :
    (∀ defect, decode x ≠ .error (.invalidUtf8 defect)) ∧
    ∀ root, decode x = .ok root →
      (∃ t : Grammar.Text, t.bytes = x ∧ t.root.denoted = root.toValue ∧
        ∀ part ∈ t.root.parts, ∀ letters ∈ part.letters?,
          letters.content = letters.complete ∧ Utf8.Valid letters.content ∧
            (part = .key letters → Utf8.encode letters.text = letters.complete)) ∧
      (∀ content ∈ root.scalars, content.IsText) ∧ Utf8.Valid root.toJson := by
  refine ⟨decode_ne_invalidUtf8 hx, ?_⟩
  intro root hroot
  obtain ⟨t, rfl, hadmitted, hdenoted⟩ := exists_text_of_decode hroot
  have hcomplete (part : Part) (hpart : part ∈ t.root.parts) (letters : Letters)
      (hletters : letters ∈ part.letters?) :=
    Grammar.Text.content_eq_complete hadmitted hx hpart hletters
  have hscalars : ∀ content ∈ root.scalars, content.IsText := by
    rw [Container.scalars, ← hdenoted]
    refine t.root.isText_scalars ?_
    intro part hpart letters hletters
    exact (hcomplete part hpart letters hletters).2.1
  exact ⟨⟨t, rfl, hdenoted, hcomplete⟩, hscalars, valid_toJson hscalars⟩

/-- An array that holds a string of two bytes, a lead byte and a continuation byte. -/
def accented : Container := .array [.scalar (.string (Utf8.encode "é"))]

theorem valid_text_end_to_end_accented :
    ∃ root, decode accented.toJson = .ok root ∧ Utf8.Valid root.toJson := by
  have hscalars : ∀ content ∈ accented.scalars, content.IsText :=
    List.forall_mem_singleton.2 (Utf8.valid_encode "é")
  have hnesting : accented.nesting ≤ nestingLimit := Nat.le_of_ble_eq_true rfl
  have hdecode := decode_toJson_of_le hnesting
  obtain ⟨-, hroot⟩ := valid_text_end_to_end accented.toJson (valid_toJson hscalars)
  exact ⟨_, hdecode, (hroot _ hdecode).2.2⟩

end DocCodec
