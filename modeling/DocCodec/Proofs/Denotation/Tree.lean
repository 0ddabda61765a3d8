/-
**What syntax trees denote, and where they must not be accepted.**

Every tree of the grammar denotes a value, entries and items in the order of the text, and repeated
keys as often as they occur.  Not every tree is accepted, however: it may have violations, in the
order of the text.  A container may have no room, an integer may not fit, surrogates may be out of
their pairs, and a key may not be UTF-8.  Each violation has the offset of the byte that completes
it.

Main definitions:

* `DocCodec.Grammar.Node.denoted` — **the value that a tree denotes**;
* `DocCodec.Grammar.Part`, `DocCodec.Grammar.Node.parts` — the numbers, strings and keys of a tree;
* `DocCodec.Grammar.Node.violations` — **what is wrong with a tree**, in order;
* `DocCodec.judge` — a result, or the first violation;
* `DocCodec.Grammar.Text.reading` — **what a text is read as**.

Main results:

* `DocCodec.Grammar.Node.violations_eq_nil_iff` — **a tree without violations** has room for its
  containers, and all its parts are sound;
* `DocCodec.Grammar.Node.ordered_violations` — violations are in the order of their offsets.
-/

import DocCodec.DecodeError
import DocCodec.Proofs.Denotation.Literal
import DocCodec.Proofs.Denotation.Number
import DocCodec.Value

set_option relaxedAutoImplicit false
set_option autoImplicit false

namespace DocCodec

/-- The container that a value is. -/
def Value.container? : Value → Option Container
  | .document entries => some (.document entries)
  | .array items => some (.array items)
  | _ => none

theorem Container.container?_toValue (root : Container) : root.toValue.container? = some root := by
  cases root <;> rfl

theorem container?_eq_some_iff {value : Value} {root : Container} :
    value.container? = some root ↔ value = root.toValue := by
  constructor
  · cases value <;> rintro ⟨⟩ <;> rfl
  · rintro rfl
    exact root.container?_toValue

namespace Grammar

/-! ### Parts -/

namespace Letters

/-- The bytes that a literal denotes; none if it is not read. -/
def content (letters : Letters) : Bytes := (Literal.decode? letters.raw).getD []

/-- The text that a key denotes; none if it is not UTF-8. -/
def text (letters : Letters) : String :=
  match Utf8.decode letters.content with
  | .ok text => text
  | .error _ => ""

theorem decode?_raw {letters : Letters} (h : letters.paired = true) :
    Literal.decode? letters.raw = some letters.content := by
  rw [← isSome_decode?_raw, Option.isSome_iff_exists] at h
  obtain ⟨content, hcontent⟩ := h
  rw [Letters.content, hcontent]
  rfl

theorem decode?_raw_eq_none {letters : Letters} (h : letters.paired = false) :
    Literal.decode? letters.raw = none := by
  rw [← isSome_decode?_raw] at h
  exact Option.not_isSome_iff_eq_none.1 (by simp [h])

end Letters

/-- A part of a tree that may be wrong by itself. -/
inductive Part
  | number (number : Number)
  | string (letters : Letters)
  | key (letters : Letters)

/-- Whether a part is right: an integer fits into 64 bits, all surrogates are in pairs, and a key
is UTF-8. -/
def Part.Sound : Part → Prop
  | .number n => n.token = .integer → Fits n.integer
  | .string letters => letters.paired = true
  | .key letters => letters.paired = true ∧ ∃ text, Utf8.decode letters.content = .ok text

/-- What is wrong with a part. -/
def Part.violation? : Part → Option DecodeError
  | .number n =>
    if n.token = .integer ∧ ¬ Fits n.integer then some .integerOverflow else none
  | .string letters => if letters.paired then none else some .malformedEscape
  | .key letters =>
    if letters.paired then
      match Utf8.decode letters.content with
      | .ok _ => none
      | .error defect => some (.invalidUtf8 defect)
    else some .malformedEscape

theorem Part.violation?_eq_none_iff (part : Part) : part.violation? = none ↔ part.Sound := by
  cases part with
  | number n =>
      simp only [violation?, Sound]
      split
      · next h => exact ⟨nofun, fun hsound => absurd (hsound h.1) h.2⟩
      · next h =>
          refine ⟨?_, fun _ => rfl⟩
          intro _ htoken
          exact Decidable.byContradiction fun hfits => h ⟨htoken, hfits⟩
  | string letters => simp [violation?, Sound]
  | key letters =>
      simp only [violation?, Sound]
      split
      · next h => cases hdecode : Utf8.decode letters.content <;> simp [h]
      · next h => exact ⟨nofun, fun hsound => absurd hsound.1 h⟩

/-! ### Values -/

/-- The scalar that a word denotes. -/
def wordDenoted : Scanner.Word → Scalar
  | .true => .boolean true
  | .false => .boolean false
  | .null => .null

/-- The scalar that a number denotes: an integer if it has neither a fraction nor an exponent, and
a double otherwise. -/
def Number.denoted (n : Number) : Scalar :=
  if n.token = .integer then .int64 (Int64.ofInt n.integer)
  else .double (Binary64.ofMagnitude n.negative n.fractionRead.magnitude)

mutual

/-- **The value that a tree denotes.** -/
def Node.denoted : Node → Value
  | .word word => .scalar (wordDenoted word)
  | .number number => .scalar number.denoted
  | .string letters => .scalar (.string letters.content)
  | .empty .brace _ => .document []
  | .empty .square _ => .array []
  | .array items => .array items.denoted
  | .object members => .document members.denoted

/-- The values of the items of an array. -/
def Items.denoted : Items → List Value
  | .last _ value _ => [value.denoted]
  | .more _ value _ rest => value.denoted :: rest.denoted

/-- The entries of the members of an object. -/
def Members.denoted : Members → List (String × Value)
  | .last _ key _ _ value _ => [(key.text, value.denoted)]
  | .more _ key _ _ value _ rest => (key.text, value.denoted) :: rest.denoted

end

mutual

/-- The numbers, strings and keys of a tree, in order. -/
def Node.parts : Node → List Part
  | .word _ | .empty _ _ => []
  | .number number => [.number number]
  | .string letters => [.string letters]
  | .array items => items.parts
  | .object members => members.parts

/-- The parts of the items of an array. -/
def Items.parts : Items → List Part
  | .last _ value _ => value.parts
  | .more _ value _ rest => value.parts ++ rest.parts

/-- The parts of the members of an object. -/
def Members.parts : Members → List Part
  | .last _ key _ _ value _ => .key key :: value.parts
  | .more _ key _ _ value _ rest => .key key :: (value.parts ++ rest.parts)

end

/-! ### Violations -/

/-- Violations, each with the offset of the byte that completes it. -/
abbrev Violations := List (DecodeError × Nat)

/-- The violation of a part that is complete at an offset. -/
def Part.violations (part : Part) (offset : Nat) : Violations :=
  part.violation?.toList.map fun error => (error, offset)

/-- The violation of a container that begins at an offset. -/
def enterViolations (room start : Nat) : Violations :=
  if room = 0 then [(.nestingTooDeep, start)] else []

mutual

/-- **What is wrong with a tree** that begins at offset `start`, where `room` more containers may
be opened. -/
def Node.violations (room start : Nat) : Node → Violations
  | .word _ => []
  | .number number => (Part.number number).violations (start + number.bytes.length)
  | .string letters => (Part.string letters).violations (start + letters.raw.length)
  | .empty _ _ => enterViolations room start
  | .array items => enterViolations room start ++ items.violations (room - 1) (start + 1)
  | .object members => enterViolations room start ++ members.violations (room - 1) (start + 1)

/-- What is wrong with the items of an array. -/
def Items.violations (room start : Nat) : Items → Violations
  | .last before value _ => value.violations room (start + before.bytes.length)
  | .more before value after rest =>
    value.violations room (start + before.bytes.length) ++
      rest.violations room
        (start + before.bytes.length + value.bytes.length + after.bytes.length + 1)

/-- What is wrong with the members of an object. -/
def Members.violations (room start : Nat) : Members → Violations
  | .last before key gap lead value _ =>
    (Part.key key).violations (start + before.bytes.length + key.raw.length) ++
      value.violations room (start + (keyBytes before key gap lead).length)
  | .more before key gap lead value after rest =>
    (Part.key key).violations (start + before.bytes.length + key.raw.length) ++
      (value.violations room (start + (keyBytes before key gap lead).length) ++
        rest.violations room (start + (keyBytes before key gap lead).length + value.bytes.length +
          after.bytes.length + 1))

end

theorem Part.violations_eq_nil_iff (part : Part) (offset : Nat) :
    part.violations offset = [] ↔ part.Sound := by
  rw [← part.violation?_eq_none_iff, violations, List.map_eq_nil_iff, Option.toList_eq_nil_iff]

theorem enterViolations_eq_nil_iff (room start : Nat) :
    enterViolations room start = [] ↔ 0 < room := by
  unfold enterViolations
  split
  · next h => simp [h]
  · next h => simp [Nat.pos_of_ne_zero h]

mutual

/-- **A tree without violations** has room for its containers, and all its parts are sound. -/
theorem Node.violations_eq_nil_iff (n : Node) (room start : Nat) :
    n.violations room start = [] ↔ n.depth ≤ room ∧ ∀ part ∈ n.parts, part.Sound := by
  cases n with
  | word word => simp [Node.violations, Node.depth, Node.parts]
  | number number =>
      simp [Node.violations, Part.violations_eq_nil_iff, Node.depth, Node.parts]
  | string letters =>
      simp [Node.violations, Part.violations_eq_nil_iff, Node.depth, Node.parts]
  | empty kind gap =>
      rw [Node.violations, enterViolations_eq_nil_iff]
      simp [Node.depth, Node.parts, Nat.succ_le_iff]
  | array items =>
      rw [Node.violations, List.append_eq_nil_iff, enterViolations_eq_nil_iff,
        items.violations_eq_nil_iff, ← and_assoc]
      refine and_congr_left ?_
      intro _
      simp only [Node.depth]
      omega
  | object members =>
      rw [Node.violations, List.append_eq_nil_iff, enterViolations_eq_nil_iff,
        members.violations_eq_nil_iff, ← and_assoc]
      refine and_congr_left ?_
      intro _
      simp only [Node.depth]
      omega

theorem Items.violations_eq_nil_iff (items : Items) (room start : Nat) :
    items.violations room start = [] ↔
      items.depth ≤ room ∧ ∀ part ∈ items.parts, part.Sound := by
  cases items with
  | last before value after => exact value.violations_eq_nil_iff room _
  | more before value after rest =>
      rw [Items.violations, List.append_eq_nil_iff, value.violations_eq_nil_iff,
        rest.violations_eq_nil_iff]
      simp only [Items.depth, Items.parts, Nat.max_le, List.forall_mem_append]
      exact and_and_and_comm

theorem Members.violations_eq_nil_iff (members : Members) (room start : Nat) :
    members.violations room start = [] ↔
      members.depth ≤ room ∧ ∀ part ∈ members.parts, part.Sound := by
  cases members with
  | last before key gap lead value after =>
      rw [Members.violations, List.append_eq_nil_iff, Part.violations_eq_nil_iff,
        value.violations_eq_nil_iff]
      simp only [Members.depth, Members.parts, List.forall_mem_cons]
      exact and_left_comm
  | more before key gap lead value after rest =>
      rw [Members.violations, List.append_eq_nil_iff, List.append_eq_nil_iff,
        Part.violations_eq_nil_iff, value.violations_eq_nil_iff, rest.violations_eq_nil_iff]
      simp only [Members.depth, Members.parts, Nat.max_le, List.forall_mem_cons,
        List.forall_mem_append]
      rw [and_and_and_comm]
      exact and_left_comm

end

/-! ### The order of violations -/

/-- Violations in the order of their offsets, all of them from one offset up to another. -/
def Ordered (low high : Nat) (violations : Violations) : Prop :=
  violations.Pairwise (fun first second => first.2 < second.2) ∧
    ∀ violation ∈ violations, low ≤ violation.2 ∧ violation.2 ≤ high

theorem ordered_nil (low high : Nat) : Ordered low high [] := ⟨.nil, by simp⟩

theorem Ordered.mono {low high low' high' : Nat} {violations : Violations}
    (h : Ordered low high violations) (hlow : low' ≤ low) (hhigh : high ≤ high') :
    Ordered low' high' violations :=
  ⟨h.1, fun violation hmem =>
    ⟨Nat.le_trans hlow (h.2 violation hmem).1, Nat.le_trans (h.2 violation hmem).2 hhigh⟩⟩

/-- Violations one after another. -/
theorem Ordered.append {low middle middle' high : Nat} {first second : Violations}
    (hfirst : Ordered low middle first) (hsecond : Ordered middle' high second)
    (hmiddle : middle < middle') (hlow : low ≤ middle') (hhigh : middle ≤ high) :
    Ordered low high (first ++ second) := by
  refine ⟨List.pairwise_append.2 ⟨hfirst.1, hsecond.1, ?_⟩, ?_⟩
  · intro p hp q hq
    exact Nat.lt_of_le_of_lt (hfirst.2 p hp).2 (Nat.lt_of_lt_of_le hmiddle (hsecond.2 q hq).1)
  · intro p hp
    rcases List.mem_append.1 hp with hp | hp
    · exact (hfirst.mono (Nat.le_refl _) hhigh).2 p hp
    · exact (hsecond.mono hlow (Nat.le_refl _)).2 p hp

theorem Part.ordered_violations (part : Part) (offset : Nat) :
    Ordered offset offset (part.violations offset) := by
  unfold violations
  cases part.violation? with
  | none => exact ordered_nil offset offset
  | some error => exact ⟨List.pairwise_singleton .., by simp⟩

theorem ordered_enterViolations (room start : Nat) :
    Ordered start start (enterViolations room start) := by
  unfold enterViolations
  split
  · exact ⟨List.pairwise_singleton .., by simp⟩
  · exact ordered_nil start start

theorem length_key_lt (before : Spaces) (key : Letters) (gap lead : Spaces) :
    before.bytes.length + key.raw.length < (keyBytes before key gap lead).length := by
  simp only [keyBytes, List.length_append, Letters.length_raw, Letters.length_quoted]
  omega

mutual

/-- **Violations are in the order of their offsets.** -/
theorem Node.ordered_violations (n : Node) (room start : Nat) :
    Ordered start (start + n.bytes.length) (n.violations room start) := by
  cases n with
  | word word => exact ordered_nil ..
  | number number =>
      exact ((Part.number number).ordered_violations _).mono (by omega) (Nat.le_refl _)
  | string letters =>
      refine ((Part.string letters).ordered_violations _).mono (by omega) ?_
      simp only [Node.bytes, Letters.length_raw, Letters.length_quoted]
      omega
  | empty kind gap => exact (ordered_enterViolations room start).mono (Nat.le_refl _) (by omega)
  | array items =>
      refine (ordered_enterViolations room start).append
        (items.ordered_violations (room - 1) (start + 1)) (by omega) (by omega) (by omega) |>.mono
        (Nat.le_refl _) ?_
      simp only [Node.bytes, List.length_cons, List.length_append, List.length_nil]
      omega
  | object members =>
      refine (ordered_enterViolations room start).append
        (members.ordered_violations (room - 1) (start + 1)) (by omega) (by omega) (by omega) |>.mono
        (Nat.le_refl _) ?_
      simp only [Node.bytes, List.length_cons, List.length_append, List.length_nil]
      omega

theorem Items.ordered_violations (items : Items) (room start : Nat) :
    Ordered start (start + items.bytes.length) (items.violations room start) := by
  cases items with
  | last before value after =>
      refine (value.ordered_violations room _).mono (by omega) ?_
      simp only [Items.bytes, List.length_append]
      omega
  | more before value after rest =>
      refine (value.ordered_violations room _).append (rest.ordered_violations room _) (by omega)
        (by omega) (by omega) |>.mono (by omega) ?_
      simp only [Items.bytes, List.length_append, List.length_cons]
      omega

theorem Members.ordered_violations (members : Members) (room start : Nat) :
    Ordered start (start + members.bytes.length) (members.violations room start) := by
  cases members with
  | last before key gap lead value after =>
      have hkey := length_key_lt before key gap lead
      refine ((Part.key key).ordered_violations _).append (value.ordered_violations room _)
        (by omega) (by omega) (by omega) |>.mono (by omega) ?_
      simp only [Members.bytes, List.length_append]
      omega
  | more before key gap lead value after rest =>
      have hkey := length_key_lt before key gap lead
      have hvalues := (value.ordered_violations room
        (start + (keyBytes before key gap lead).length)).append (rest.ordered_violations room
          (start + (keyBytes before key gap lead).length + value.bytes.length +
            after.bytes.length + 1))
        (by omega) (by omega) (by omega)
      refine ((Part.key key).ordered_violations _).append hvalues (by omega) (by omega) (by omega)
        |>.mono (by omega) ?_
      simp only [Members.bytes, List.length_append, List.length_cons]
      omega

end

end Grammar

/-! ### Readings of texts -/

/-- A result, or the first violation. -/
def judge {α : Type} (violations : Grammar.Violations) (result : α) : Except DecodeError α :=
  match violations with
  | [] => .ok result
  | (error, _) :: _ => .error error

theorem judge_eq_ok_iff {α : Type} {violations : Grammar.Violations} {result found : α} :
    judge violations result = .ok found ↔ violations = [] ∧ result = found := by
  cases violations with
  | nil => simp [judge]
  | cons violation violations => simp [judge]

/-- **What a text is read as**: its root has to be a container. -/
def Grammar.Text.reading (t : Text) : Except DecodeError Container :=
  match t.root.denoted.container? with
  | none => .error .invalidRoot
  | some root => judge (t.root.violations nestingLimit t.before.bytes.length) root

end DocCodec
