/-
**The text of a document by recursion.**

The writer goes through a document turn by turn and keeps the containers that it is in as levels.
What it writes is given here once more, by recursion on values: a container is the texts of its
parts in its brackets, and a container that is nested too deeply is its elision.  The brackets, commas
and colons are spelled out, and what the writer has for them is found to be the same.

The two agree because of what the levels owe: at any moment the text that is still to be written is
a function of the levels, the innermost level's part first.  A turn writes a first part of the text
that is owed, and the levels after the turn owe the rest.

Main definitions:

* `DocCodec.Encoder.valueText` — **the text of a value at a given depth**;
* `DocCodec.Encoder.documentText`, `DocCodec.Encoder.arrayText` — the text of a root;
* `DocCodec.Encoder.owed` — the text that levels still owe;
* `DocCodec.Encoder.Reached` — the levels that turns lead to.

Main results:

* `DocCodec.Encoder.turn_owed` — a turn writes a first part of what is owed;
* `DocCodec.Encoder.length_le_of_reached` — no more levels are open than are allowed;
* `DocCodec.encode_eq_rendering` — **what is written is the text by recursion**.
-/

import DocCodec.Encoder

set_option relaxedAutoImplicit false
set_option autoImplicit false

namespace DocCodec

namespace Encoder

/-! ### The text by recursion -/

/-- The texts of the parts of a container in its brackets, with a comma between any two. -/
def bracketed (kind : Bracket) (texts : List Bytes) : Bytes :=
  match kind with
  | .brace =>
    if texts.isEmpty then Utf8.encode "\x7b \x7d"
    else Utf8.encode "\x7b " ++ (Utf8.encode ", ").intercalate texts ++ Utf8.encode " \x7d"
  | .square =>
    if texts.isEmpty then Utf8.encode "[ ]"
    else Utf8.encode "[ " ++ (Utf8.encode ", ").intercalate texts ++ Utf8.encode " ]"

mutual

/-- **The text of a value** that `depth` containers are around. -/
def valueText (depth : Nat) : Value → Bytes
  | .scalar content => scalarText content
  | .codeWithScope content _ => Literal.quoted content
  | .document entries =>
    if nestingLimit ≤ depth then Utf8.encode "\x7b ... \x7d"
    else bracketed .brace (memberTexts (depth + 1) entries)
  | .array items =>
    if nestingLimit ≤ depth then Utf8.encode "\x7b ... \x7d"
    else bracketed .square (itemTexts (depth + 1) items)

/-- The texts of the entries of a document, with their keys. -/
def memberTexts (depth : Nat) : List (String × Value) → List Bytes
  | [] => []
  | (key, value) :: rest =>
    (Literal.quoted (Utf8.encode key) ++ Utf8.encode " : " ++ valueText depth value) ::
      memberTexts depth rest

/-- The texts of the items of an array. -/
def itemTexts (depth : Nat) : List Value → List Bytes
  | [] => []
  | value :: rest => valueText depth value :: itemTexts depth rest

end

/-- **The text of a document as a root**, without its own keys if they are not wanted. -/
def documentText (document : Document) (withKeys : Bool) : Bytes :=
  if withKeys then bracketed .brace (memberTexts 1 document)
  else bracketed .square (itemTexts 1 (document.map Prod.snd))

/-- **The text of an array as a root.** -/
def arrayText (items : List Value) : Bytes := bracketed .square (itemTexts 1 items)

/-- The brackets and commas are what the writer starts and ends a container with and separates its
parts by. -/
theorem bracketed_eq (kind : Bracket) (texts : List Bytes) :
    bracketed kind texts =
      if texts.isEmpty then empty kind
      else opening kind ++ separator.intercalate texts ++ closing kind := by
  cases kind <;> rfl

/-- An entry is what the writer writes of one. -/
theorem memberTexts_cons (depth : Nat) (key : String) (value : Value) (rest : Document) :
    memberTexts depth ((key, value) :: rest) =
      member key (valueText depth value) :: memberTexts depth rest := rfl

/-! ### What is owed -/

/-- The text of an entry, with its key if it is written with one. -/
def entryText (depth : Nat) : Entry → Bytes
  | (some key, value) => member key (valueText depth value)
  | (none, value) => valueText depth value

/-- The text that the entries of a level owe: a separator stands before each but the first one. -/
def owedByEntries (depth : Nat) (fresh : Bool) (entries : List Entry) : Bytes :=
  if fresh then separator.intercalate (entries.map (entryText depth))
  else entries.flatMap fun entry => separator ++ entryText depth entry

/-- **The text that levels still owe**, the innermost first. -/
def owed : List Level → Bytes
  | [] => []
  | level :: outer =>
    owedByEntries (outer.length + 1) level.fresh level.entries ++ closing level.kind ++ owed outer

theorem intercalate_cons (separator text : Bytes) (texts : List Bytes) :
    separator.intercalate (text :: texts) =
      text ++ texts.flatMap fun text => separator ++ text := by
  induction texts generalizing text with
  | nil => simp
  | cons next texts ih => simp [List.intercalate_cons_cons, ih]

/-- An entry is owed before those after it. -/
theorem owedByEntries_cons (depth : Nat) (level : Level) (key : Option String) (value : Value)
    (entries : List Entry) :
    owedByEntries depth level.fresh ((key, value) :: entries) =
      lead level key ++ valueText depth value ++ owedByEntries depth false entries := by
  cases hfresh : level.fresh with
  | true =>
      cases key <;>
        simp [owedByEntries, lead, hfresh, intercalate_cons, entryText, member, List.flatMap_map]
  | false =>
      cases key <;> simp [owedByEntries, lead, hfresh, entryText, member]

theorem map_entryText_ofDocument (depth : Nat) (document : Document) :
    (Level.ofDocument document true).entries.map (entryText depth) =
      memberTexts depth document := by
  simp only [Level.ofDocument]
  induction document with
  | nil => rfl
  | cons entry document ih =>
      obtain ⟨key, value⟩ := entry
      simp_all [memberTexts_cons, entryText]

theorem map_entryText_ofArray (depth : Nat) (items : List Value) :
    (Level.ofArray items).entries.map (entryText depth) = itemTexts depth items := by
  simp only [Level.ofArray]
  induction items with
  | nil => rfl
  | cons item items ih => simp_all [itemTexts, entryText]

/-- A level of which nothing has been written. -/
theorem bracketed_eq_owed {level : Level} (hfresh : level.fresh = true)
    (hentries : level.entries.isEmpty = false) (depth : Nat) :
    bracketed level.kind (level.entries.map (entryText depth)) =
      opening level.kind ++ owedByEntries depth level.fresh level.entries ++
        closing level.kind := by
  simp [bracketed_eq, owedByEntries, hfresh, hentries]

/-- What a turn does with a container: it writes the container's text, or a first part of it and
owes the rest. -/
theorem visit_owed (nested : Level) (hfresh : nested.fresh = true) (outer : List Level) :
    (visit nested outer.length).1 ++ owed ((visit nested outer.length).2 ++ outer) =
      (if nestingLimit ≤ outer.length then elision
        else bracketed nested.kind (nested.entries.map (entryText (outer.length + 1)))) ++
          owed outer := by
  unfold visit
  split
  · rfl
  · cases hentries : nested.entries.isEmpty with
    | true => simp [bracketed_eq, hentries]
    | false =>
        rw [bracketed_eq_owed hfresh hentries]
        simp [owed]

/-- What a turn does with a value. -/
theorem visitValue_owed (value : Value) (outer : List Level) :
    (visitValue outer.length value).1 ++ owed ((visitValue outer.length value).2 ++ outer) =
      valueText outer.length value ++ owed outer := by
  cases value with
  | scalar content => rfl
  | codeWithScope content scope => rfl
  | document entries =>
      have h := visit_owed (.ofDocument entries true) rfl outer
      rw [map_entryText_ofDocument] at h
      exact h
  | array items =>
      have h := visit_owed (.ofArray items) rfl outer
      rw [map_entryText_ofArray] at h
      exact h

/-- **A turn writes a first part of what is owed**, and the levels after it owe the rest. -/
theorem turn_owed (level : Level) (outer : List Level) :
    (turn level outer).1 ++ owed (turn level outer).2 = owed (level :: outer) := by
  unfold turn
  split
  · next hentries =>
      simp only [owed, hentries]
      cases level.fresh <;> rfl
  · next key value entries hentries =>
      have hvalue := visitValue_owed value ({ level with entries, fresh := false } :: outer)
      simp only [List.length_cons] at hvalue
      simp only [owed, hentries, owedByEntries_cons]
      rw [List.append_assoc, hvalue]
      simp [owed]

/-! ### How many levels are open -/

/-- **The levels that turns lead to** from a root. -/
inductive Reached (root : Level) : List Level → Prop
  | start : Reached root [root]
  | turn (level : Level) (outer : List Level) (h : Reached root (level :: outer)) :
      Reached root (turn level outer).2

theorem length_visitValue_le (depth : Nat) (value : Value) :
    (visitValue depth value).2.length ≤ 1 ∧
      ((visitValue depth value).2 ≠ [] → depth < nestingLimit) := by
  have hvisit (nested : Level) : (visit nested depth).2.length ≤ 1 ∧
      ((visit nested depth).2 ≠ [] → depth < nestingLimit) := by
    unfold visit
    split
    · simp
    · next h =>
        refine ⟨?_, fun _ => Nat.lt_of_not_le h⟩
        split <;> simp
  cases value with
  | scalar content => simp [visitValue]
  | codeWithScope content scope => simp [visitValue]
  | document entries => exact hvisit _
  | array items => exact hvisit _

/-- A turn opens a level only as long as there are fewer than are allowed. -/
theorem length_turn_le (level : Level) (outer : List Level)
    (h : (level :: outer).length ≤ nestingLimit) : (turn level outer).2.length ≤ nestingLimit := by
  unfold turn
  split
  · exact Nat.le_of_succ_le h
  · next key value entries hentries =>
      obtain ⟨hone, hdepth⟩ := length_visitValue_le (outer.length + 1) value
      simp only [List.length_append, List.length_cons] at h ⊢
      by_cases hnil : (visitValue (outer.length + 1) value).2 = []
      · simpa [hnil] using h
      · have := hdepth hnil
        omega

/-- **No more levels are open than are allowed**, at no moment. -/
theorem length_le_of_reached {root : Level} {levels : List Level} (h : Reached root levels) :
    levels.length ≤ nestingLimit := by
  induction h with
  | start => exact Nat.le_of_ble_eq_true rfl
  | turn level outer h ih => exact length_turn_le level outer ih

/-! ### The whole text -/

/-- Whether a sink takes a text without failing. -/
def Takes (sink : Sink) (text : Bytes) : Prop :=
  ∀ limit ∈ sink.limit, sink.held.size + text.length ≤ limit

theorem write_of_takes {sink : Sink} {text : Bytes} (h : Takes sink text) :
    sink.write text = ({ sink with held := sink.held ++ text }, none) := by
  cases hlimit : sink.limit with
  | none => simp [Sink.write, hlimit]
  | some limit =>
      have := h limit hlimit
      simp only [Sink.write, hlimit]
      rw [if_pos (by omega)]

theorem takes_append {sink : Sink} {first second : Bytes} (h : Takes sink (first ++ second)) :
    Takes sink first ∧ Takes { sink with held := sink.held ++ first } second := by
  constructor
  · intro limit hlimit
    have := h limit hlimit
    simp only [List.length_append] at this
    omega
  · intro limit hlimit
    have := h limit hlimit
    simp only [List.length_append, Bytes.size_append] at this ⊢
    omega

/-- **The turns that are left write what is owed.** -/
theorem run_eq_owed {signal : Signal} (hsignal : ∀ n, signal n = false) (polls : Nat)
    (levels : List Level) (sink : Sink) (hsink : Takes sink (owed levels)) :
    run signal polls levels sink = ({ sink with held := sink.held ++ owed levels }, none) := by
  fun_induction run signal polls levels sink with
  | case1 polls levels sink h =>
      rw [hsignal] at h
      cases h
  | case2 polls sink h => simp [owed]
  | case3 polls sink h level outer text levels hturn sink' hwrite ih =>
      have howed := turn_owed level outer
      rw [hturn] at howed
      rw [← howed] at hsink ⊢
      obtain ⟨hfirst, hrest⟩ := takes_append hsink
      rw [write_of_takes hfirst] at hwrite
      cases hwrite
      rw [ih hrest, Bytes.append_append]
  | case4 polls sink h level outer text levels hturn sink' error hwrite =>
      have howed := turn_owed level outer
      rw [hturn] at howed
      rw [← howed] at hsink
      rw [write_of_takes (takes_append hsink).1] at hwrite
      cases hwrite

/-- The text of a level as a root. -/
def rootText (root : Level) : Bytes := bracketed root.kind (root.entries.map (entryText 1))

/-- A sink that was told the type of the content and then given a text. -/
def filled (sink : Sink) (text : Bytes) : Sink :=
  { sink with announced := sink.announced ++ [contentType], held := sink.held ++ text }

/-- **What is written of a root is its text.** -/
theorem writeRoot_eq_rootText {signal : Signal} (hsignal : ∀ n, signal n = false) {root : Level}
    (hfresh : root.fresh = true) {sink : Sink} (htype : sink.refusesType = false)
    (hsink : Takes sink (rootText root)) :
    writeRoot signal root sink = (filled sink (rootText root), none) := by
  obtain ⟨told, htold⟩ :
      ∃ told : Sink, told = { sink with announced := sink.announced ++ [contentType] } := ⟨_, rfl⟩
  have hannounce : sink.announce contentType = (told, none) := by
    simp [Sink.announce, htype, htold]
  have hfilled (text : Bytes) : filled sink text = { told with held := told.held ++ text } := by
    rw [htold, filled]
  have htakes : Takes told (rootText root) := by rw [htold]; exact hsink
  simp only [writeRoot, hannounce, hfilled]
  cases hentries : root.entries.isEmpty with
  | true =>
      have htext : rootText root = empty root.kind := by simp [rootText, bracketed_eq, hentries]
      rw [htext] at htakes ⊢
      simp only [write_of_takes htakes]
      rfl
  | false =>
      have htext : rootText root = opening root.kind ++ owed [root] := by
        rw [rootText, bracketed_eq_owed hfresh hentries]
        simp [owed]
      rw [htext] at htakes ⊢
      obtain ⟨hopening, howed⟩ := takes_append htakes
      simp only [write_of_takes hopening]
      have hrun := run_eq_owed hsignal 0 [root] _ howed
      simpa [Bytes.append_append] using hrun

theorem rootText_ofDocument (document : Document) (withKeys : Bool) :
    rootText (.ofDocument document withKeys) = documentText document withKeys := by
  cases withKeys with
  | true => rw [rootText, map_entryText_ofDocument]; rfl
  | false =>
      have h := map_entryText_ofArray 1 (document.map Prod.snd)
      simp only [Level.ofArray, List.map_map] at h
      rw [documentText, ← h]
      simp [rootText, Level.ofDocument, Function.comp_def]

theorem rootText_ofArray (items : List Value) : rootText (.ofArray items) = arrayText items := by
  rw [rootText, map_entryText_ofArray]
  rfl

theorem fresh_ofDocument (document : Document) (withKeys : Bool) :
    (Level.ofDocument document withKeys).fresh = true := by
  cases withKeys <;> rfl

/-- Without its keys a document is written like the array of its values. -/
theorem ofDocument_false (document : Document) :
    Level.ofDocument document false = .ofArray (document.map Prod.snd) := by
  simp [Level.ofDocument, Level.ofArray, Function.comp_def]

/-- The text of a container as a root. -/
def containerText : Container → Bytes
  | .document document => documentText document true
  | .array items => arrayText items

/-- The text that a container is written as. -/
theorem toJson_eq_containerText (root : Container) : root.toJson = containerText root := by
  have hnever : ∀ n, Signal.never n = false := fun _ => rfl
  have htype : ({} : Sink).refusesType = false := rfl
  have htakes (text : Bytes) : Takes {} text := nofun
  unfold Container.toJson encode
  cases root with
  | document document =>
      have h := writeRoot_eq_rootText hnever (fresh_ofDocument document true) htype (htakes _)
      rw [rootText_ofDocument] at h
      simp [encodeDocument, h, filled, Sink.bytes, containerText]
  | array items =>
      have hfresh : (Level.ofArray items).fresh = true := rfl
      have h := writeRoot_eq_rootText hnever hfresh htype (htakes _)
      rw [rootText_ofArray] at h
      simp [encodeArray, h, filled, Sink.bytes, containerText]

end Encoder

/-- **What the writer writes turn by turn is the text by recursion.**  With a signal that never
says stop and a sink that takes the text, a document with or without its keys and an array are
written as their texts; a document without its keys is written like the array of its values; and
at no moment are more levels open than are allowed. -/
theorem encode_eq_rendering {signal : Signal} (hsignal : ∀ n, signal n = false) {sink : Sink}
    (htype : sink.refusesType = false) :
    (∀ (document : Document) (withKeys : Bool),
      Encoder.Takes sink (Encoder.documentText document withKeys) →
        encodeDocument signal document withKeys sink =
          (Encoder.filled sink (Encoder.documentText document withKeys), none)) ∧
    (∀ items : List Value, Encoder.Takes sink (Encoder.arrayText items) →
        encodeArray signal items sink = (Encoder.filled sink (Encoder.arrayText items), none)) ∧
    (∀ document : Document, encodeDocument signal document false sink =
      encodeArray signal (document.map Prod.snd) sink) ∧
    ∀ (root : Encoder.Level) (levels : List Encoder.Level), Encoder.Reached root levels →
      levels.length ≤ nestingLimit := by
  refine ⟨?_, ?_, ?_, fun root levels => Encoder.length_le_of_reached⟩
  · intro document withKeys hsink
    rw [← Encoder.rootText_ofDocument] at hsink ⊢
    exact Encoder.writeRoot_eq_rootText hsignal (Encoder.fresh_ofDocument document withKeys) htype
      hsink
  · intro items hsink
    rw [← Encoder.rootText_ofArray] at hsink ⊢
    exact Encoder.writeRoot_eq_rootText hsignal rfl htype hsink
  · intro document
    rw [encodeDocument, encodeArray, Encoder.ofDocument_false]

/-- A document within an array, into a sink that has just enough room for them. -/
theorem encode_eq_rendering_nested :
    encodeArray .never [.array [], .document []] { limit := some 12 } =
        (Encoder.filled { limit := some 12 } (Encoder.arrayText [.array [], .document []]), none) ∧
      [Encoder.Level.ofArray []].length ≤ nestingLimit := by
  have hnever : ∀ n, Signal.never n = false := fun _ => rfl
  have htype : ({ limit := some 12 } : Sink).refusesType = false := rfl
  have h := encode_eq_rendering hnever htype
  refine ⟨h.2.1 _ ?_, h.2.2.2 _ _ .start⟩
  rintro limit ⟨⟩
  decide

end DocCodec
