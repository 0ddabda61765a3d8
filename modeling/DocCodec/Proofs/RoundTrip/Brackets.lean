/-
**How deeply the brackets of a text nest.**

The writer and the decoder both allow so many levels, but they count different things.  The writer
counts the documents and arrays that it is in; the decoder counts the brackets that are open in the
text.  Some scalars are written in braces of their own, a timestamp even in two pairs, and the
writer does not count those.

The brackets of a text are counted here byte by byte: those within string literals do not count.
As long as nothing is left out, a text has as many brackets open at a time as the value nests, and
exactly if these are not too many it is decoded again.  A value whose documents and arrays nest as
deeply as is allowed, with a scalar in braces in the innermost one, is written without an elision,
and its text is refused.

Main definitions:

* `DocCodec.Brackets.peak` — **how many brackets of a text are open at a time**;
* `DocCodec.Value.chained` — a value within arrays that hold nothing else.

Main results:

* `DocCodec.Brackets.peak_bytes` — the brackets of the text of a tree;
* `DocCodec.peak_toJson` — the brackets of what is written;
* `DocCodec.decode_toJson_iff_of_levels` — **which texts without elisions are decoded again**;
* `DocCodec.decode_toJson_deepest` — one that is not.
-/

import DocCodec.Proofs.RoundTrip.Container

set_option relaxedAutoImplicit false
set_option autoImplicit false

namespace DocCodec

open Grammar (Node Items Members Letter Letters Spaces)

/-! ### Counting brackets -/

namespace Brackets

/-- Where a byte of a text stands. -/
inductive Region
  | outside
  /-- Within a string literal. -/
  | literal
  /-- Within a string literal, behind a backslash. -/
  | escaped
  deriving DecidableEq, Repr

/-- The brackets of a first part of a text. -/
structure Count where
  region : Region := .outside
  /-- How many brackets are open. -/
  level : Nat := 0
  /-- How many brackets have been open at a time. -/
  peak : Nat := 0
  deriving DecidableEq, Repr

namespace Count

/-- One byte outside of string literals. -/
def outer (c : Count) (b : UInt8) : Count :=
  if b = Ascii.quote then { c with region := .literal }
  else if b = Ascii.openBrace ∨ b = Ascii.openSquare then
    { c with level := c.level + 1, peak := max c.peak (c.level + 1) }
  else if b = Ascii.closeBrace ∨ b = Ascii.closeSquare then { c with level := c.level - 1 }
  else c

/-- One byte more. -/
def step (c : Count) (b : UInt8) : Count :=
  match c.region with
  | .outside => c.outer b
  | .literal =>
    if b = Ascii.quote then { c with region := .outside }
    else if b = Ascii.backslash then { c with region := .escaped }
    else c
  | .escaped => { c with region := .literal }

/-- The brackets after some bytes more. -/
def run (c : Count) (text : Bytes) : Count := text.foldl step c

end Count

/-- **How many brackets of a text are open at a time**, at most. -/
def peak (text : Bytes) : Nat := (Count.run {} text).peak

/-! ### Tokens -/

namespace Count

@[simp] theorem run_nil (c : Count) : c.run [] = c := rfl

@[simp] theorem run_cons (c : Count) (b : UInt8) (text : Bytes) :
    c.run (b :: text) = (c.step b).run text := rfl

@[simp] theorem run_append (c : Count) (first second : Bytes) :
    c.run (first ++ second) = (c.run first).run second := List.foldl_append

/-- Whether a byte is neither a bracket nor a quotation mark. -/
def isNeutral (b : UInt8) : Bool :=
  b != Ascii.quote && b != Ascii.openBrace && b != Ascii.openSquare && b != Ascii.closeBrace &&
    b != Ascii.closeSquare

variable {c : Count}

/-- Neutral bytes outside of string literals. -/
theorem run_neutral (hc : c.region = .outside) {text : Bytes} (h : text.all isNeutral = true) :
    c.run text = c := by
  induction text with
  | nil => rfl
  | cons b text ih =>
      obtain ⟨hb, htext⟩ := Bool.and_eq_true_iff.1 h
      have hstep : c.step b = c := by
        simp only [isNeutral, Bool.and_eq_true, bne_iff_ne] at hb
        obtain ⟨⟨⟨⟨hquote, hopenBrace⟩, hopenSquare⟩, hcloseBrace⟩, hcloseSquare⟩ := hb
        simp [step, hc, outer, hquote, hopenBrace, hopenSquare, hcloseBrace, hcloseSquare]
      rw [run_cons, hstep]
      exact ih htext

theorem isNeutral_of_isSpace {b : UInt8} (h : Ascii.isSpace b = true) : isNeutral b = true := by
  simp only [Ascii.isSpace, Bool.or_eq_true, beq_iff_eq] at h
  rcases h with ((rfl | rfl) | rfl) | rfl <;> rfl

theorem isNeutral_of_isDigit {b : UInt8} (h : Ascii.isDigit b = true) : isNeutral b = true := by
  have hne (other : UInt8) (hother : Ascii.isDigit other = false) : (b != other) = true := by
    refine bne_iff_ne.2 ?_
    rintro rfl
    rw [h] at hother
    cases hother
  simp only [isNeutral, Bool.and_eq_true]
  exact ⟨⟨⟨⟨hne _ rfl, hne _ rfl⟩, hne _ rfl⟩, hne _ rfl⟩, hne _ rfl⟩

theorem run_spaces (hc : c.region = .outside) (gap : Spaces) : c.run gap.bytes = c := by
  refine run_neutral hc (List.all_eq_true.2 ?_)
  intro b hb
  exact isNeutral_of_isSpace (gap.isSpace_of_mem b hb)

theorem run_number (hc : c.region = .outside) (n : Grammar.Number) : c.run n.bytes = c := by
  refine run_neutral hc (List.all_eq_true.2 ?_)
  intro b hb
  rcases n.class_of_mem_bytes hb with hdigit | hother
  · exact isNeutral_of_isDigit hdigit
  · exact List.all_eq_true.1 rfl b hother

theorem run_word (hc : c.region = .outside) (word : Scanner.Word) : c.run word.letters = c := by
  refine run_neutral hc ?_
  cases word <;> rfl

/-- Within a string literal no bracket counts. -/
theorem run_letter (hc : c.region = .literal) (letter : Letter) : c.run letter.bytes = c := by
  obtain ⟨region, level, peak⟩ := c
  cases hc
  cases letter with
  | plain byte ok => simp [Letter.bytes, step, ok.2.1, ok.2.2]
  | escape letter ok => rfl
  | unit a b c d ok =>
      have hstep (digit : UInt8) (h : digit ∈ [a, b, c, d]) :
          step ⟨.literal, level, peak⟩ digit = ⟨.literal, level, peak⟩ := by
        have hhex := ok digit h
        have hquote : digit ≠ Ascii.quote := by
          rintro rfl
          cases hhex
        have hbackslash : digit ≠ Ascii.backslash := by
          rintro rfl
          cases hhex
        simp [step, hquote, hbackslash]
      have hdigits : run ⟨.literal, level, peak⟩ [a, b, c, d] = ⟨.literal, level, peak⟩ := by
        simp only [run_cons, run_nil]
        rw [hstep a (by simp), hstep b (by simp), hstep c (by simp), hstep d (by simp)]
      exact hdigits

theorem run_letters (hc : c.region = .literal) (letters : Letters) :
    c.run letters.bytes = c := by
  induction letters with
  | nil => rfl
  | cons letter letters ih => rw [Letters.bytes_cons, run_append, run_letter hc, ih]

theorem run_quoted (hc : c.region = .outside) (letters : Letters) :
    c.run letters.quoted = c := by
  obtain ⟨region, level, peak⟩ := c
  cases hc
  have hletters := run_letters (c := ⟨.literal, level, peak⟩) rfl letters
  have hopening : run ⟨.outside, level, peak⟩ letters.raw =
      run ⟨.literal, level, peak⟩ letters.bytes := rfl
  rw [Letters.quoted, run_append, hopening, hletters]
  rfl

theorem run_key (hc : c.region = .outside) (before : Spaces) (key : Letters)
    (gap lead : Spaces) : c.run (Grammar.keyBytes before key gap lead) = c := by
  have hcolon : c.run [Ascii.colon] = c := run_neutral hc rfl
  rw [Grammar.keyBytes, run_append, run_spaces hc, run_append, run_quoted hc, run_append,
    run_spaces hc, ← List.singleton_append, run_append, hcolon, run_spaces hc]

/-! ### Trees -/

/-- The brackets after a text in which at most `depth` more are open at a time, and none at its
end. -/
def deepened (c : Count) (depth : Nat) : Count := { c with peak := max c.peak (c.level + depth) }

theorem deepened_zero (hle : c.level ≤ c.peak) : c.deepened 0 = c := by
  rw [deepened, Nat.add_zero, Nat.max_eq_left hle]

theorem deepened_deepened (first second : Nat) :
    (c.deepened first).deepened second = c.deepened (max first second) := by
  simp only [deepened, mk.injEq, true_and]
  omega

/-- A comma between two texts. -/
theorem run_comma (hc : c.region = .outside) (text : Bytes) :
    c.run (Ascii.comma :: text) = c.run text := by
  have hcomma : c.run [Ascii.comma] = c := run_neutral hc rfl
  rw [← List.singleton_append, run_append, hcomma]

/-- Brackets around a text. -/
theorem run_brackets (hc : c.region = .outside) (kind : Bracket) {text : Bytes} {depth : Nat}
    (h : ∀ c : Count, c.region = .outside → c.level ≤ c.peak → c.run text = c.deepened depth) :
    c.run (kind.opening :: (text ++ [kind.closing])) = c.deepened (depth + 1) := by
  obtain ⟨region, level, peak⟩ := c
  cases hc
  have hinner := h ⟨.outside, level + 1, max peak (level + 1)⟩ rfl (Nat.le_max_right ..)
  have hopening : step ⟨.outside, level, peak⟩ kind.opening =
      ⟨.outside, level + 1, max peak (level + 1)⟩ := by cases kind <;> rfl
  have hclosing (found : Count) (hfound : found.region = .outside) :
      found.run [kind.closing] = { found with level := found.level - 1 } := by
    obtain ⟨_, level, peak⟩ := found
    cases hfound
    cases kind <;> rfl
  rw [run_cons, hopening, run_append, hinner, hclosing _ rfl]
  simp only [deepened, mk.injEq, true_and, Nat.add_sub_cancel]
  omega

mutual

/-- **The brackets of the text of a tree.** -/
theorem run_node (n : Node) {c : Count} (hc : c.region = .outside)
    (hle : c.level ≤ c.peak) :
    c.run n.bytes = c.deepened n.depth := by
  cases n with
  | word word => rw [Node.bytes, run_word hc, Node.depth, deepened_zero hle]
  | number number => rw [Node.bytes, run_number hc, Node.depth, deepened_zero hle]
  | string letters => rw [Node.bytes, run_quoted hc, Node.depth, deepened_zero hle]
  | empty kind gap =>
      refine run_brackets hc kind ?_
      intro c hc hle
      rw [run_spaces hc, deepened_zero hle]
  | array items => exact run_brackets hc .square fun c hc hle => run_items items hc hle
  | object members => exact run_brackets hc .brace fun c hc hle => run_members members hc hle

theorem run_items (items : Items) {c : Count} (hc : c.region = .outside)
    (hle : c.level ≤ c.peak) :
    c.run items.bytes = c.deepened items.depth := by
  cases items with
  | last before value after =>
      rw [Items.bytes, run_append, run_spaces hc, run_append, run_node value hc hle]
      have hafter : (c.deepened value.depth).region = .outside := hc
      exact run_spaces hafter after
  | more before value after rest =>
      have hafter : (c.deepened value.depth).region = .outside := hc
      have hdeepened : (c.deepened value.depth).level ≤ (c.deepened value.depth).peak :=
        Nat.le_trans hle (Nat.le_max_left ..)
      rw [Items.bytes, run_append, run_spaces hc, run_append, run_node value hc hle, run_append,
        run_spaces hafter, run_comma hafter, run_items rest hafter hdeepened, deepened_deepened]
      rfl

theorem run_members (members : Members) {c : Count} (hc : c.region = .outside)
    (hle : c.level ≤ c.peak) :
    c.run members.bytes = c.deepened members.depth := by
  cases members with
  | last before key gap lead value after =>
      rw [Members.bytes, run_append, run_key hc, run_append, run_node value hc hle]
      have hafter : (c.deepened value.depth).region = .outside := hc
      exact run_spaces hafter after
  | more before key gap lead value after rest =>
      have hafter : (c.deepened value.depth).region = .outside := hc
      have hdeepened : (c.deepened value.depth).level ≤ (c.deepened value.depth).peak :=
        Nat.le_trans hle (Nat.le_max_left ..)
      rw [Members.bytes, run_append, run_key hc, run_append, run_node value hc hle, run_append,
        run_spaces hafter, run_comma hafter, run_members rest hafter hdeepened, deepened_deepened]
      rfl

end

end Count

/-- **The brackets of the text of a tree** are open as deeply as it nests. -/
theorem peak_bytes (n : Node) : peak n.bytes = n.depth := by
  have hstart : ({} : Count).region = .outside := rfl
  rw [peak, Count.run_node n hstart (Nat.le_refl 0)]
  exact (Nat.zero_max _).trans (Nat.zero_add _)

end Brackets

/-! ### What is written -/

/-- As long as nothing is left out, a text has as many brackets open at a time as it nests. -/
theorem peak_toJson {root : Container} (h : root.levels ≤ nestingLimit) :
    Brackets.peak root.toJson = root.nesting := by
  have hlevels : 0 + root.toValue.levels ≤ nestingLimit := by rwa [Nat.zero_add]
  obtain ⟨n, hbytes, -, hdepth, -⟩ := renders_valueText root.toValue hlevels
  rw [toJson_eq_valueText, ← hbytes, Brackets.peak_bytes, hdepth]
  rfl

/-- **Which texts without elisions are decoded again.**  If no more documents and arrays are nested
than are allowed, nothing is left out of the text; it has as many brackets open at a time as the
container nests, which may be two more than there are documents and arrays; and it is decoded
again if and only if these are not too many. -/
theorem decode_toJson_iff_of_levels (root : Container) (h : root.levels ≤ nestingLimit) :
    Brackets.peak root.toJson = root.nesting ∧ root.nesting ≤ root.levels + 2 ∧
      (Brackets.peak root.toJson ≤ nestingLimit → decode root.toJson = .ok root.normal) ∧
      (nestingLimit < Brackets.peak root.toJson → decode root.toJson = .error .nestingTooDeep) := by
  have hpeak := peak_toJson h
  refine ⟨hpeak, root.toValue.nesting_bounds.2, ?_, ?_⟩
  · intro hle
    exact decode_toJson_of_le (hpeak ▸ hle)
  · intro hlt
    exact decode_toJson_of_lt (hpeak ▸ hlt)

/-- A timestamp in an array. -/
theorem decode_toJson_iff_of_levels_timestamp :
    Brackets.peak (Container.array [.scalar (.timestamp 1 2)]).toJson = 3 ∧
      decode (Container.array [.scalar (.timestamp 1 2)]).toJson =
        .ok (Container.array [.scalar (.timestamp 1 2)]).normal := by
  obtain ⟨hpeak, -, hdecode, -⟩ :=
    decode_toJson_iff_of_levels (.array [.scalar (.timestamp 1 2)]) (by decide)
  have hthree : Brackets.peak (Container.array [.scalar (.timestamp 1 2)]).toJson = 3 := hpeak
  exact ⟨hthree, hdecode (by rw [hthree]; decide)⟩

/-! ### The deepest containers -/

/-- A value within so many arrays that hold nothing else. -/
def Value.chained (value : Value) : Nat → Value
  | 0 => value
  | count + 1 => .array [value.chained count]

theorem Value.levels_chained (value : Value) (count : Nat) :
    (value.chained count).levels = value.levels + count := by
  induction count with
  | zero => rfl
  | succ count ih =>
      simp only [chained, levels, levelsOfItems, ih]
      omega

theorem Value.nesting_chained (value : Value) (count : Nat) :
    (value.chained count).nesting = value.nesting + count := by
  induction count with
  | zero => rfl
  | succ count ih =>
      simp only [chained, nesting, nestingOfItems, ih]
      omega

/-- As many arrays as are allowed, with the least of all keys in the innermost one. -/
def deepest : Container := .array [Value.chained (.scalar .minKey) 1023]

/-- **A text without an elision that is refused**: all arrays are written, and the braces around the
innermost scalar are one pair too many. -/
theorem decode_toJson_deepest :
    deepest.levels = nestingLimit ∧ Brackets.peak deepest.toJson = nestingLimit + 1 ∧
      decode deepest.toJson = .error .nestingTooDeep := by
  have hlevels : deepest.levels = nestingLimit :=
    Value.levels_chained (.scalar .minKey) (1023 + 1)
  have hnesting : deepest.nesting = nestingLimit + 1 :=
    Value.nesting_chained (.scalar .minKey) (1023 + 1)
  refine ⟨hlevels, ?_, ?_⟩
  · rw [peak_toJson (Nat.le_of_eq hlevels), hnesting]
  · exact decode_toJson_of_lt (by rw [hnesting]; exact Nat.lt_succ_self _)

end DocCodec
