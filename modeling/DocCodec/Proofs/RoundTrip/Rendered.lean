/-
**Texts with nothing wrong in them.**

A text is the rendering of a value if it is the text of a tree that denotes the value and whose
numbers, strings and keys are sound.  Nothing can be wrong with such a tree but that it nests too
deeply, so its depth is kept as well.  Renderings of items and entries join up to the rendering of
an array or an object, in the brackets and with the separators that are written.

Main definitions:

* `DocCodec.Renders` — **a rendering of a value**, with its depth;
* `DocCodec.RendersEntry` — a rendering of an entry, with its key;
* `DocCodec.RendersItems`, `DocCodec.RendersMembers` — renderings of items and entries, one by one.

Main results:

* `DocCodec.renders_quoted` — the literal of a byte string renders the repaired byte string;
* `DocCodec.renders_array`, `DocCodec.renders_document` — **renderings in brackets**.
-/

import DocCodec.Proofs.Denotation.Tree
import DocCodec.Proofs.Encoder.Rendering
import DocCodec.Proofs.Literal.Repair

set_option relaxedAutoImplicit false
set_option autoImplicit false

namespace DocCodec

open Grammar (Node Items Members Letters Part Spaces)

/-! ### Texts between brackets -/

namespace Encoder

/-- What is written between the brackets of a container that holds something. -/
def between (texts : List Bytes) : Bytes :=
  Ascii.space :: (separator.intercalate texts ++ [Ascii.space])

theorem between_singleton (text : Bytes) :
    between [text] = Ascii.space :: (text ++ [Ascii.space]) := by simp [between]

theorem between_cons (text next : Bytes) (texts : List Bytes) :
    between (text :: next :: texts) =
      Ascii.space :: (text ++ Ascii.comma :: between (next :: texts)) := by
  simp [between, List.intercalate_cons_cons, separator]

theorem exists_between (text : Bytes) (texts : List Bytes) :
    ∃ more, between (text :: texts) = Ascii.space :: (text ++ more) := by
  cases texts with
  | nil => exact ⟨_, between_singleton text⟩
  | cons next texts => exact ⟨_, between_cons text next texts⟩

theorem bracketed_cons (kind : Bracket) (text : Bytes) (texts : List Bytes) :
    bracketed kind (text :: texts) =
      kind.opening :: (between (text :: texts) ++ [kind.closing]) := by
  simp [bracketed_eq, opening, closing, between]

end Encoder

/-! ### Renderings -/

/-- **A rendering of a value**: the text of a tree that denotes it, of the given depth and with
sound parts. -/
def Renders (text : Bytes) (value : Value) (depth : Nat) : Prop :=
  ∃ n : Node, n.bytes = text ∧ n.denoted = value ∧ n.depth = depth ∧ ∀ part ∈ n.parts, part.Sound

/-- A rendering of an entry: a key and its value, without white space around them. -/
def RendersEntry (text : Bytes) (entry : String × Value) (depth : Nat) : Prop :=
  ∃ (key : Letters) (gap lead : Spaces) (n : Node),
    Grammar.keyBytes .none key gap lead ++ n.bytes = text ∧ (key.text, n.denoted) = entry ∧
      n.depth = depth ∧ (Part.key key).Sound ∧ ∀ part ∈ n.parts, part.Sound

/-- Renderings of values, one by one, with the greatest of their depths. -/
inductive RendersItems : List Bytes → List Value → Nat → Prop
  | nil : RendersItems [] [] 0
  | cons {text : Bytes} {texts : List Bytes} {value : Value} {values : List Value}
      {depth inner : Nat} (first : Renders text value depth)
      (rest : RendersItems texts values inner) :
      RendersItems (text :: texts) (value :: values) (max depth inner)

/-- Renderings of entries, one by one, with the greatest of their depths. -/
inductive RendersMembers : List Bytes → Document → Nat → Prop
  | nil : RendersMembers [] [] 0
  | cons {text : Bytes} {texts : List Bytes} {entry : String × Value} {entries : Document}
      {depth inner : Nat} (first : RendersEntry text entry depth)
      (rest : RendersMembers texts entries inner) :
      RendersMembers (text :: texts) (entry :: entries) (max depth inner)

/-! ### Renderings in brackets -/

/-- Renderings of items with the separators between them. -/
theorem exists_items {text : Bytes} {texts : List Bytes} {values : List Value} {depth : Nat}
    (h : RendersItems (text :: texts) values depth) :
    ∃ items : Items, items.bytes = Encoder.between (text :: texts) ∧ items.denoted = values ∧
      items.depth = depth ∧ ∀ part ∈ items.parts, part.Sound := by
  induction texts generalizing text values depth with
  | nil =>
      cases h with
      | cons hfirst hrest =>
          cases hrest
          obtain ⟨n, rfl, rfl, rfl, hsound⟩ := hfirst
          refine ⟨.last .one n .one, ?_, rfl, (Nat.max_zero _).symm, hsound⟩
          rw [Encoder.between_singleton]
          rfl
  | cons next texts ih =>
      cases h with
      | cons hfirst hrest =>
          obtain ⟨n, rfl, rfl, rfl, hsound⟩ := hfirst
          obtain ⟨items, hbytes, rfl, rfl, hitems⟩ := ih hrest
          refine ⟨.more .one n .none items, ?_, rfl, rfl, List.forall_mem_append.2 ⟨hsound, hitems⟩⟩
          rw [Encoder.between_cons, ← hbytes]
          rfl

/-- **Renderings of items in brackets.** -/
theorem renders_array {texts : List Bytes} {values : List Value} {depth : Nat}
    (h : RendersItems texts values depth) :
    Renders (Encoder.bracketed .square texts) (.array values) (depth + 1) := by
  cases texts with
  | nil =>
      cases h
      exact ⟨.empty .square .one, rfl, rfl, rfl, nofun⟩
  | cons text texts =>
      obtain ⟨items, hbytes, rfl, rfl, hsound⟩ := exists_items h
      refine ⟨.array items, ?_, rfl, rfl, hsound⟩
      rw [Encoder.bracketed_cons, ← hbytes]
      rfl

/-- Renderings of entries with the separators between them. -/
theorem exists_members {text : Bytes} {texts : List Bytes} {entries : Document} {depth : Nat}
    (h : RendersMembers (text :: texts) entries depth) :
    ∃ members : Members, members.bytes = Encoder.between (text :: texts) ∧
      members.denoted = entries ∧ members.depth = depth ∧ ∀ part ∈ members.parts, part.Sound := by
  induction texts generalizing text entries depth with
  | nil =>
      cases h with
      | cons hfirst hrest =>
          cases hrest
          obtain ⟨key, gap, lead, n, rfl, rfl, rfl, hkey, hsound⟩ := hfirst
          refine ⟨.last .one key gap lead n .one, ?_, rfl, (Nat.max_zero _).symm,
            List.forall_mem_cons.2 ⟨hkey, hsound⟩⟩
          rw [Encoder.between_singleton, List.append_assoc]
          rfl
  | cons next texts ih =>
      cases h with
      | cons hfirst hrest =>
          obtain ⟨key, gap, lead, n, rfl, rfl, rfl, hkey, hsound⟩ := hfirst
          obtain ⟨members, hbytes, rfl, rfl, hmembers⟩ := ih hrest
          refine ⟨.more .one key gap lead n .none members, ?_, rfl, rfl,
            List.forall_mem_cons.2 ⟨hkey, List.forall_mem_append.2 ⟨hsound, hmembers⟩⟩⟩
          rw [Encoder.between_cons, ← hbytes, List.append_assoc]
          rfl

/-- **Renderings of entries in braces.** -/
theorem renders_document {texts : List Bytes} {entries : Document} {depth : Nat}
    (h : RendersMembers texts entries depth) :
    Renders (Encoder.bracketed .brace texts) (.document entries) (depth + 1) := by
  cases texts with
  | nil =>
      cases h
      exact ⟨.empty .brace .one, rfl, rfl, rfl, nofun⟩
  | cons text texts =>
      obtain ⟨members, hbytes, rfl, rfl, hsound⟩ := exists_members h
      refine ⟨.object members, ?_, rfl, rfl, hsound⟩
      rw [Encoder.bracketed_cons, ← hbytes]
      rfl

/-! ### Strings and keys -/

/-- A text as a value. -/
def Value.ofText (content : Bytes) : Value := .scalar (.string content)

/-- **The literal of a byte string is read back as the repaired byte string.** -/
theorem Literal.exists_letters_quoted (content : Bytes) :
    ∃ letters : Letters, letters.quoted = quoted content ∧ letters.paired = true ∧
      letters.content = Utf8.repair content := by
  obtain ⟨letters, hbytes⟩ := exists_letters content
  have hread : decode? letters.raw = some (Utf8.repair content) := by
    have h := unescapeFrom_encode content #[]
    rw [← hbytes] at h
    change (unescapeFrom #[] letters.bytes).map Array.toList = _
    rw [h]
    simp
  refine ⟨letters, ?_, ?_, ?_⟩
  · rw [Letters.quoted, Letters.raw, hbytes]
    rfl
  · rw [← Letters.isSome_decode?_raw, hread]
    rfl
  · rw [Letters.content, hread]
    rfl

/-- **The literal of a byte string** renders the repaired byte string. -/
theorem renders_quoted (content : Bytes) :
    Renders (Literal.quoted content) (.ofText (Utf8.repair content)) 0 := by
  obtain ⟨letters, hquoted, hpaired, hcontent⟩ := Literal.exists_letters_quoted content
  refine ⟨.string letters, hquoted, ?_, rfl, List.forall_mem_singleton.2 hpaired⟩
  rw [← hcontent]
  rfl

/-- The literal of a text renders it. -/
theorem renders_quotedText (text : String) :
    Renders (Encoder.quotedText text) (.ofText (Utf8.encode text)) 0 := by
  have h := renders_quoted (Utf8.encode text)
  rw [Utf8.repair_encode] at h
  exact h

/-- The literal of a key is read back as the key. -/
theorem exists_key (key : String) :
    ∃ letters : Letters, letters.quoted = Encoder.quotedText key ∧ letters.text = key ∧
      (Part.key letters).Sound := by
  obtain ⟨letters, hquoted, hpaired, hcontent⟩ := Literal.exists_letters_quoted (Utf8.encode key)
  rw [Utf8.repair_encode] at hcontent
  have hdecode : Utf8.decode letters.content = .ok key := by rw [hcontent, Utf8.decode_encode]
  refine ⟨letters, hquoted, ?_, hpaired, key, hdecode⟩
  rw [Letters.text, hdecode]

/-- A key, with or without a space before its colon, and a rendering of its value. -/
theorem Renders.entry {text : Bytes} {value : Value} {depth : Nat} (h : Renders text value depth)
    (key : String) (gap : Spaces) :
    RendersEntry (Encoder.quotedText key ++ gap.bytes ++ [Ascii.colon, Ascii.space] ++ text)
      (key, value) depth := by
  obtain ⟨n, rfl, rfl, rfl, hsound⟩ := h
  obtain ⟨letters, hquoted, htext, hkey⟩ := exists_key key
  refine ⟨letters, gap, .one, n, ?_, by rw [htext], rfl, hkey, hsound⟩
  simp [Grammar.keyBytes, hquoted]

/-- A key and a rendering of its value. -/
theorem Renders.member {text : Bytes} {value : Value} {depth : Nat} (h : Renders text value depth)
    (key : String) : RendersEntry (Encoder.member key text) (key, value) depth := by
  have hentry := h.entry key .one
  simp only [Spaces.bytes_one, List.append_assoc, List.cons_append, List.nil_append] at hentry
  simpa [Encoder.member, Encoder.keyMark] using hentry

end DocCodec
