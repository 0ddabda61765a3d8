/-
**Writing a document one turn at a time.**

The writer keeps the containers that it is in as a stack of levels, the innermost first, each with
the entries that are still to be written.  So the depth of a document costs no recursion, and the
writer can be stopped between any two entries.  A turn writes one entry of the innermost level, or
closes it if no entry is left.  An entry whose value is a container that holds something only
opens it: the container becomes the new innermost level.

Containers that nest too deeply are not descended into; a mark stands in their place.

Main definitions:

* `DocCodec.Encoder.Level` — a container that is being written;
* `DocCodec.Encoder.turn` — **one turn**: the text it writes, and the levels afterwards;
* `DocCodec.Encoder.pending` — how many turns are left at most, which decreases with every turn.
-/

import DocCodec.Encoder.Scalar
import DocCodec.Event

set_option relaxedAutoImplicit false
set_option autoImplicit false

namespace DocCodec.Encoder

/-! ### Brackets -/

/-- What a container that holds something starts with. -/
def opening (kind : Bracket) : Bytes := [kind.opening, Ascii.space]

/-- What a container that holds something ends with. -/
def closing (kind : Bracket) : Bytes := [Ascii.space, kind.closing]

/-- A container that holds nothing. -/
def empty (kind : Bracket) : Bytes := [kind.opening, Ascii.space, kind.closing]

/-- What stands in the place of a container that is nested too deeply. -/
def elision : Bytes := Utf8.encode "\x7b ... \x7d"

/-! ### Levels -/

/-- A value with its key, if it is written with one. -/
abbrev Entry := Option String × Value

/-- A container that is being written. -/
structure Level where
  /-- What is still to be written. -/
  entries : List Entry
  kind : Bracket
  /-- Whether nothing has been written yet. -/
  fresh : Bool := true
  deriving Repr

namespace Level

/-- The level of a document.  Without its keys it is written like an array. -/
def ofDocument (document : Document) (withKeys : Bool) : Level :=
  if withKeys then ⟨document.map fun (key, value) => (some key, value), .brace, true⟩
  else ⟨document.map fun (_, value) => (none, value), .square, true⟩

/-- The level of an array. -/
def ofArray (items : List Value) : Level := ⟨items.map fun value => (none, value), .square, true⟩

end Level

/-! ### How much is left -/

mutual

/-- How many turns a value takes: one for itself, and for a container one more for its end. -/
def turns : Value → Nat
  | .scalar _ => 1
  | .codeWithScope _ _ => 1
  | .document entries => 2 + turnsOfEntries entries
  | .array items => 2 + turnsOfItems items

/-- How many turns the entries of a document take. -/
def turnsOfEntries : List (String × Value) → Nat
  | [] => 0
  | (_, value) :: rest => turns value + turnsOfEntries rest

/-- How many turns the items of an array take. -/
def turnsOfItems : List Value → Nat
  | [] => 0
  | value :: rest => turns value + turnsOfItems rest

end

/-- How many turns the entries of a level take. -/
def turnsLeft : List Entry → Nat
  | [] => 0
  | (_, value) :: rest => turns value + turnsLeft rest

/-- How many turns some levels take at most, their ends included. -/
def pending : List Level → Nat
  | [] => 0
  | level :: outer => turnsLeft level.entries + 1 + pending outer

theorem pending_append (inner outer : List Level) :
    pending (inner ++ outer) = pending inner + pending outer := by
  induction inner with
  | nil => simp [pending]
  | cons level inner ih => simp [pending, ih, Nat.add_assoc]

theorem turnsLeft_ofDocument (document : Document) (withKeys : Bool) :
    turnsLeft (Level.ofDocument document withKeys).entries = turnsOfEntries document := by
  cases withKeys <;>
  · simp only [Level.ofDocument]
    induction document with
    | nil => rfl
    | cons entry document ih =>
      simp_all [turnsLeft, turnsOfEntries]

theorem turnsLeft_ofArray (items : List Value) :
    turnsLeft (Level.ofArray items).entries = turnsOfItems items := by
  simp only [Level.ofArray]
  induction items with
  | nil => rfl
  | cons item items ih => simp [turnsLeft, turnsOfItems, ih]

/-! ### One turn -/

/-- The text before the value of an entry: a separator unless it is the first, and its key. -/
def lead (level : Level) (key : Option String) : Bytes :=
  (if level.fresh then [] else separator) ++
    match key with
    | some key => quotedText key ++ keyMark
    | none => []

/-- What a turn does with a container that is met at the given depth: the text it writes, and the
level that it adds, if any. -/
def visit (nested : Level) (depth : Nat) : Bytes × List Level :=
  if nestingLimit ≤ depth then (elision, [])
  else if nested.entries.isEmpty then (empty nested.kind, [])
  else (opening nested.kind, [nested])

/-- What a turn does with a value. -/
def visitValue (depth : Nat) : Value → Bytes × List Level
  | .scalar content => (scalarText content, [])
  | .codeWithScope content _ => (Literal.quoted content, [])
  | .document entries => visit (.ofDocument entries true) depth
  | .array items => visit (.ofArray items) depth

/-- **One turn** at the innermost level: the text it writes, and the levels afterwards.  A container
that is met here is as deep as there are levels, the root being at depth zero. -/
def turn (level : Level) (outer : List Level) : Bytes × List Level :=
  match level.entries with
  | [] => (closing level.kind, outer)
  | (key, value) :: entries =>
    let (text, added) := visitValue (outer.length + 1) value
    (lead level key ++ text, added ++ { level with entries := entries, fresh := false } :: outer)

/-! ### Every turn brings the end nearer -/

/-- What a container adds to the levels takes as many turns as its entries and its end. -/
theorem pending_visit_le (nested : Level) (depth : Nat) :
    pending (visit nested depth).2 ≤ turnsLeft nested.entries + 1 := by
  unfold visit
  split
  · simp [pending]
  · split <;> simp [pending]

/-- What a value adds to the levels takes fewer turns than the value. -/
theorem pending_visitValue_lt (depth : Nat) (value : Value) :
    pending (visitValue depth value).2 < turns value := by
  cases value with
  | scalar content => simp [visitValue, pending, turns]
  | codeWithScope content scope => simp [visitValue, pending, turns]
  | document entries =>
    have := pending_visit_le (.ofDocument entries true) depth
    rw [turnsLeft_ofDocument] at this
    simp only [visitValue, turns]
    omega
  | array items =>
    have := pending_visit_le (.ofArray items) depth
    rw [turnsLeft_ofArray] at this
    simp only [visitValue, turns]
    omega

/-- **Every turn brings the end nearer.** -/
theorem pending_turn_lt (level : Level) (outer : List Level) :
    pending (turn level outer).2 < pending (level :: outer) := by
  unfold turn
  split
  · next h => simp [pending, h, turnsLeft]
  · next key value entries h =>
    have := pending_visitValue_lt (outer.length + 1) value
    simp only [pending_append, pending, h, turnsLeft]
    omega

end DocCodec.Encoder
