/-
**What the scanner accepts.**

Where a value is expected, a text that is accepted begins with the text of a tree; and likewise
for the items of an array and the members of an object.  The proof follows the text: the first byte
decides which construct it is, and what the verdict on the tree leaves of the text is shorter.  As
the constructs are nested in each other, the three statements are proved together for all texts up
to a given length.

A trailing comma is not accepted because the comma is still pending when the bracket comes.

Main results:

* `DocCodec.Scanner.treesBelow` — **a text that is accepted begins with a tree**, and likewise for
  items and members;
* `DocCodec.Scanner.exists_text_of_ok` — **the whole texts that are accepted** are those of trees.
-/

import DocCodec.Proofs.Scanner.Tree

set_option relaxedAutoImplicit false
set_option autoImplicit false

namespace DocCodec.Scanner

open Grammar (Letters Node Items Members Spaces)

variable {σ ε : Type} (listen : Listener σ ε)

/-! ### One byte -/

section

variable {s : Scanner} {state : σ} {x : Bytes} {r : Nat × σ}

/-- Within a container the text does not end. -/
theorem exists_cons_of_head?_ok {kind : Bracket} (hstack : kind ∈ s.stack.head?)
    (h : verdict listen s state x = .ok r) : ∃ b y, x = b :: y := by
  cases x with
  | nil =>
      obtain ⟨hnil, -⟩ := ended_of_ok listen h
      rw [hnil] at hstack
      cases hstack
  | cons b y => exact ⟨b, y, rfl⟩

/-- A closing bracket where a value is expected is only accepted at the start of an array. -/
theorem expectsValue_head (hs : s.ExpectsValue) {b : UInt8}
    (h : verdict listen s state (b :: x) = .ok r) :
    (s.phase = .arrayItem ∧ s.pendingComma = none ∧ b = Ascii.closeSquare) ∨
      (b ≠ Ascii.closeSquare ∧ b ≠ Ascii.closeBrace) := by
  by_cases hb : b = Ascii.closeSquare ∨ b = Ascii.closeBrace
  · refine .inl ?_
    rcases hs with hs | ⟨hs | hs, -⟩
    · cases hpending : s.pendingComma with
      | some position =>
          have hstep : s.step b = s.failAtComma position := by
            rw [step, hs]
            rcases hb with rfl | rfl <;> simp only [beforeItem, hpending] <;> rfl
          exact absurd h (ne_ok_of_reject listen hstep)
      | none =>
          rcases hb with rfl | rfl
          · exact ⟨hs, rfl, rfl⟩
          · have hstep : s.step Ascii.closeBrace = s.fail .expectedArrayItem Ascii.closeBrace := by
              rw [step, hs]
              simp only [beforeItem, hpending]
              rfl
            exact absurd h (ne_ok_of_reject listen hstep)
    · have hstep : s.step b = s.fail .invalidRoot b := by
        rw [step, hs]
        rcases hb with rfl | rfl <;> rfl
      exact absurd h (ne_ok_of_reject listen hstep)
    · have hstep : s.step b = s.fail .expectedObjectValue b := by
        rw [step, hs]
        rcases hb with rfl | rfl <;> rfl
      exact absurd h (ne_ok_of_reject listen hstep)
  · exact .inr ⟨fun h => hb (.inl h), fun h => hb (.inr h)⟩

/-- Where only a value is expected, no text that begins with a closing bracket is accepted. -/
theorem head_of_expectsValue (hs : s.ExpectsValue) (hphase : s.phase ≠ .arrayItem)
    (h : verdict listen s state x = .ok r) (hx : ∀ b ∈ x.head?, Ascii.isSpace b = false) :
    ∀ b ∈ x.head?, Ascii.isSpace b = false ∧ b ≠ Ascii.closeSquare ∧ b ≠ Ascii.closeBrace := by
  intro b hb
  cases x with
  | nil => cases hb
  | cons c x =>
      cases hb
      rcases expectsValue_head listen hs h with ⟨harray, -⟩ | hclose
      · exact absurd harray hphase
      · exact ⟨hx b rfl, hclose⟩

theorem letters_of_start? {b : UInt8} {word : Word} (h : Word.start? b = some word) :
    word.letters = b :: word.tail := by
  unfold Word.start? at h
  split at h
  · next hb => cases h; rw [hb]; rfl
  split at h
  · next hb => cases h; rw [hb]; rfl
  split at h
  · next hb => cases h; rw [hb]; rfl
  · cases h

/-- After a value within a container, a comma or its closing bracket is accepted. -/
theorem past_head {kind : Bracket} (hstack : kind ∈ s.stack.head?) {length : Nat}
    {left : Array UInt8} {b : UInt8} (hb : Ascii.isSpace b = false)
    (h : verdict listen (s.past length left) state (b :: x) = .ok r) :
    b = Ascii.comma ∨ b = kind.closing := by
  cases hs : s.stack with
  | nil => rw [hs] at hstack; cases hstack
  | cons top outer =>
      rw [hs] at hstack
      cases hstack
      by_cases hcomma : b = Ascii.comma
      · exact .inl hcomma
      by_cases hclosing : b = kind.closing
      · exact .inr hclosing
      cases kind with
      | brace =>
          have hstep : (s.past length left).step b =
              (s.past length left).fail .expectedCommaOrEnd b := by
            have hphase : (s.past length left).phase = .objectRest := by rw [past, hs]; rfl
            rw [step, hphase]
            simp only [hb, hcomma, show ¬ b = Ascii.closeBrace from hclosing]
            rfl
          exact absurd h (ne_ok_of_reject listen hstep)
      | square =>
          have hstep : (s.past length left).step b =
              (s.past length left).fail .expectedArrayItem b := by
            have hphase : (s.past length left).phase = .arrayRest := by rw [past, hs]; rfl
            rw [step, hphase]
            simp only [hb, hcomma, show ¬ b = Ascii.closeSquare from hclosing]
            rfl
          exact absurd h (ne_ok_of_reject listen hstep)

/-- Before a key, a quotation mark is accepted, and at the start of an object a closing brace. -/
theorem objectKey_head (hs : s.phase = .objectKey) {b : UInt8} (hb : Ascii.isSpace b = false)
    (h : verdict listen s state (b :: x) = .ok r) :
    (s.pendingComma = none ∧ b = Ascii.closeBrace) ∨ b = Ascii.quote := by
  by_cases hquote : b = Ascii.quote
  · exact .inr hquote
  refine .inl ?_
  have hstep : s.step b = s.beforeKey b := by rw [step, hs]
  simp only [beforeKey, hb, hquote] at hstep
  by_cases hbrace : b = Ascii.closeBrace
  · refine ⟨?_, hbrace⟩
    cases hpending : s.pendingComma with
    | none => rfl
    | some position =>
        simp only [hbrace, hpending] at hstep h
        exact absurd h (ne_ok_of_reject listen hstep)
  · simp only [hbrace] at hstep
    exact absurd h (ne_ok_of_reject listen hstep)

/-- After a key, a colon is accepted. -/
theorem objectColon_head (hs : s.phase = .objectColon) {b : UInt8} (hb : Ascii.isSpace b = false)
    (h : verdict listen s state (b :: x) = .ok r) : b = Ascii.colon := by
  by_cases hcolon : b = Ascii.colon
  · exact hcolon
  · have hstep : s.step b = s.fail .expectedColon b := by
      rw [step, hs]
      simp only [hb, hcolon]
      rfl
    exact absurd h (ne_ok_of_reject listen hstep)

end

/-! ### Trees -/

/-- Texts shorter than `n` that are accepted where a value is expected begin with one. -/
def NodesBelow (n : Nat) : Prop :=
  ∀ (s : Scanner) (state : σ) (x : Bytes) (r : Nat × σ), x.length < n → s.ExpectsValue →
    (∀ b ∈ x.head?, Ascii.isSpace b = false ∧ b ≠ Ascii.closeSquare ∧ b ≠ Ascii.closeBrace) →
    verdict listen s state x = .ok r →
    ∃ (node : Node) (rest : Bytes), x = node.bytes ++ rest ∧ node.Ends s.stack rest

/-- Texts shorter than `n` that are accepted where an item is expected are items up to a closing
bracket, or nothing up to it if no comma is pending. -/
def ItemsBelow (n : Nat) : Prop :=
  ∀ (s : Scanner) (state : σ) (x : Bytes) (r : Nat × σ), x.length < n → s.phase = .arrayItem →
    .square ∈ s.stack.head? → verdict listen s state x = .ok r →
    (s.pendingComma = none ∧ ∃ (gap : Spaces) (rest : Bytes),
        x = gap.bytes ++ Ascii.closeSquare :: rest) ∨
      ∃ (items : Items) (rest : Bytes), x = items.bytes ++ Ascii.closeSquare :: rest

/-- Texts shorter than `n` that are accepted where a key is expected are members up to a closing
brace, or nothing up to it if no comma is pending. -/
def MembersBelow (n : Nat) : Prop :=
  ∀ (s : Scanner) (state : σ) (x : Bytes) (r : Nat × σ), x.length < n → s.phase = .objectKey →
    .brace ∈ s.stack.head? → verdict listen s state x = .ok r →
    (s.pendingComma = none ∧ ∃ (gap : Spaces) (rest : Bytes),
        x = gap.bytes ++ Ascii.closeBrace :: rest) ∨
      ∃ (members : Members) (rest : Bytes), x = members.bytes ++ Ascii.closeBrace :: rest

section

variable {listen} {n : Nat}

/-- The first byte decides which value it is. -/
theorem nodesBelow_succ (hitems : ItemsBelow listen n) (hmembers : MembersBelow listen n) :
    NodesBelow listen (n + 1) := by
  intro s state x r hlength hs hhead h
  cases x with
  | nil =>
      obtain ⟨-, hphase⟩ := ended_of_ok listen h
      rcases hs with hs | ⟨hs | hs, -⟩ <;> rw [hs] at hphase <;>
        rcases hphase with hphase | ⟨p, hphase, -⟩ <;> cases hphase
  | cons b y =>
      obtain ⟨hspace, hclose⟩ := hhead b rfl
      have hy : y.length < n := by simpa using hlength
      -- The first byte tells which kind of value the text begins with.
      by_cases hsquare : b = Ascii.openSquare
      · subst hsquare
        have hbody := (verdict_opening listen hs .square state y).symm.trans h
        obtain ⟨state, -, hbody⟩ := exists_of_bind_ok hbody
        rcases hitems _ _ _ _ hy rfl rfl hbody with ⟨-, gap, rest, rfl⟩ | ⟨items, rest, rfl⟩
        · exact ⟨.empty .square gap, rest, by simp [Node.bytes]; exact ⟨rfl, rfl⟩, trivial⟩
        · exact ⟨.array items, rest, by simp [Node.bytes], trivial⟩
      by_cases hbrace : b = Ascii.openBrace
      · subst hbrace
        have hbody := (verdict_opening listen hs .brace state y).symm.trans h
        obtain ⟨state, -, hbody⟩ := exists_of_bind_ok hbody
        rcases hmembers _ _ _ _ hy rfl rfl hbody with ⟨-, gap, rest, rfl⟩ | ⟨members, rest, rfl⟩
        · exact ⟨.empty .brace gap, rest, by simp [Node.bytes]; exact ⟨rfl, rfl⟩, trivial⟩
        · exact ⟨.object members, rest, by simp [Node.bytes], trivial⟩
      by_cases hquote : b = Ascii.quote
      · subst hquote
        rw [verdict_of_accept listen (step_quote hs)] at h
        obtain ⟨letters, rest, rfl⟩ := exists_letters_of_ok listen (by rfl) h
        exact ⟨.string letters, rest, by simp [Node.bytes, Letters.quoted, Letters.raw], trivial⟩
      obtain ⟨fault, hstep⟩ := step_value hs b hspace hclose
      rw [beginValue, if_neg hsquare, if_neg hbrace, if_neg hquote] at hstep
      cases hword : Word.start? b with
      | some word =>
          rw [hword] at hstep
          rw [verdict_of_accept listen hstep] at h
          obtain ⟨rest, rfl⟩ := exists_word_of_ok listen (by rfl) h
          refine ⟨.word word, rest, ?_, trivial⟩
          rw [Node.bytes, letters_of_start? hword, List.cons_append]
      | none =>
          cases hnumber : NumberPlace.start? b with
          | some p =>
              rw [verdict_of_accept listen (step_number_start hs hnumber)] at h
              obtain ⟨text, rest, rfl, htext, hrest⟩ :=
                exists_lang_of_ok listen (by rfl) h
              obtain ⟨number, hnumber⟩ :=
                (NumberPlace.exists_number_iff b text).1 ⟨p, hnumber, htext⟩
              refine ⟨.number number, rest, ?_, hrest⟩
              rw [Node.bytes, hnumber, List.cons_append]
          | none =>
              rw [hword, hnumber] at hstep
              exact absurd h (ne_ok_of_reject listen hstep)

/-- What follows the items read so far: white space and then a comma or the closing bracket. -/
theorem exists_after_of_ok {s : Scanner} {kind : Bracket} (hstack : kind ∈ s.stack.head?)
    {length : Nat} {left : Array UInt8} {state : σ} {x : Bytes} {r : Nat × σ}
    (h : verdict listen (s.past length left) state x = .ok r) :
    ∃ after : Spaces,
      (∃ rest, x = after.bytes ++ kind.closing :: rest) ∨
        ∃ rest, x = after.bytes ++ Ascii.comma :: rest ∧ verdict listen
          (s.separated kind (length + after.bytes.length + 1) left) state rest = .ok r := by
  obtain ⟨after, y, rfl, hhead⟩ := exists_spaces x
  rw [verdict_after] at h
  obtain ⟨b, rest, rfl⟩ := exists_cons_of_head?_ok listen (s := s.past _ left) hstack h
  refine ⟨after, ?_⟩
  rcases past_head listen hstack (hhead b rfl) h with rfl | rfl
  · rw [verdict_comma listen hstack] at h
    exact .inr ⟨rest, rfl, h⟩
  · exact .inl ⟨rest, rfl⟩

theorem itemsBelow_succ (hnodes : NodesBelow listen (n + 1)) (hitems : ItemsBelow listen n) :
    ItemsBelow listen (n + 1) := by
  intro s state x r hlength hs hstack h
  have hskips : s.phase.skips = true := by rw [hs]; rfl
  obtain ⟨before, y, rfl, hhead⟩ := exists_spaces x
  rw [verdict_spaces listen hskips] at h
  obtain ⟨b, z, rfl⟩ := exists_cons_of_head?_ok listen (s := s.skip _) hstack h
  have hexpects : (s.skip before.bytes.length).ExpectsValue := .inl hs
  -- A closing bracket may stand here only if no comma is pending before it.
  rcases expectsValue_head listen hexpects h with ⟨-, hcomma, rfl⟩ | hclose
  · exact .inl ⟨hcomma, before, z, rfl⟩
  · refine .inr ?_
    have hb : ∀ c ∈ (b :: z).head?,
        Ascii.isSpace c = false ∧ c ≠ Ascii.closeSquare ∧ c ≠ Ascii.closeBrace := by
      rintro c ⟨⟩
      exact ⟨hhead b rfl, hclose⟩
    simp only [List.length_append] at hlength
    obtain ⟨value, rest, hrest, hends⟩ := hnodes _ _ _ _ (by omega) hexpects hb h
    rw [hrest] at h hlength ⊢
    obtain ⟨left, hnode⟩ := verdict_node listen value hexpects hends
    rw [hnode] at h
    obtain ⟨state, -, h⟩ := exists_of_bind_ok h
    rw [skip_past] at h
    obtain ⟨after, ⟨rest, rfl⟩ | ⟨rest, rfl, hmore⟩⟩ := exists_after_of_ok hstack h
    · exact ⟨.last before value after, rest, by simp [Items.bytes]; rfl⟩
    · simp only [List.length_append, List.length_cons] at hlength
      rcases hitems (s.separated ..) _ _ _ (by omega) rfl hstack hmore with
        ⟨hcomma, -⟩ | ⟨items, rest, rfl⟩
      · cases hcomma
      · exact ⟨.more before value after items, rest, by simp [Items.bytes]⟩

/-- A text that is accepted after a quotation mark where a key is expected is a key with its
colon. -/
theorem exists_key_of_ok {s : Scanner} (hs : s.phase = .objectKey) {before : Spaces} {state : σ}
    {x : Bytes} {r : Nat × σ}
    (h : verdict listen s state (before.bytes ++ Ascii.quote :: x) = .ok r) :
    ∃ (key : Letters) (gap lead : Spaces) (rest : Bytes),
      before.bytes ++ Ascii.quote :: x = Grammar.keyBytes before key gap lead ++ rest ∧
        ∀ b ∈ rest.head?, Ascii.isSpace b = false := by
  have hskips : s.phase.skips = true := by rw [hs]; rfl
  have hquote : (s.skip before.bytes.length).step Ascii.quote =
      .accept ((s.skip before.bytes.length).settle.begin (.text .key .plain) Ascii.quote) := by
    rw [step, phase_skip, hs]
    rfl
  rw [verdict_spaces listen hskips, verdict_of_accept listen hquote] at h
  obtain ⟨key, y, rfl⟩ := exists_letters_of_ok listen (by rfl) h
  rw [verdict_letters listen (by rfl), verdict_of_raise listen (step_quote_key (by rfl))] at h
  obtain ⟨state, -, h⟩ := exists_of_bind_ok h
  obtain ⟨gap, z, rfl, hhead⟩ := exists_spaces y
  rw [verdict_spaces listen (by rfl)] at h
  cases z with
  | nil =>
      obtain ⟨-, hphase | ⟨p, hphase, -⟩⟩ := ended_of_ok listen h <;> cases hphase
  | cons b z =>
      cases objectColon_head listen (by rfl) (hhead b rfl) h
      obtain ⟨lead, rest, rfl, hrest⟩ := exists_spaces z
      exact ⟨key, gap, lead, rest, by simp [Grammar.keyBytes, Letters.quoted, Letters.raw], hrest⟩

theorem membersBelow_succ (hnodes : NodesBelow listen (n + 1)) (hmembers : MembersBelow listen n) :
    MembersBelow listen (n + 1) := by
  intro s state x r hlength hs hstack h
  have hskips : s.phase.skips = true := by rw [hs]; rfl
  obtain ⟨before, y, rfl, hhead⟩ := exists_spaces x
  have hskipped := h
  rw [verdict_spaces listen hskips] at hskipped
  obtain ⟨b, z, rfl⟩ := exists_cons_of_head?_ok listen (s := s.skip _) hstack hskipped
  -- A closing brace may stand here only if no comma is pending before it.
  rcases objectKey_head listen (s := s.skip before.bytes.length) hs (hhead b rfl) hskipped with
    ⟨hcomma, rfl⟩ | rfl
  · exact .inl ⟨hcomma, before, z, rfl⟩
  · refine .inr ?_
    obtain ⟨key, gap, lead, rest, hbytes, hrest⟩ := exists_key_of_ok hs h
    rw [hbytes] at h hlength ⊢
    rw [verdict_key listen hs] at h
    obtain ⟨state, -, h⟩ := exists_of_bind_ok h
    have hexpects : (s.keyed (Grammar.keyBytes before key gap lead).length
        key.raw.toArray).ExpectsValue := .inr ⟨.inr rfl, rfl⟩
    have hb := head_of_expectsValue listen hexpects nofun h hrest
    simp only [List.length_append] at hlength
    obtain ⟨value, rest, rfl, hends⟩ := hnodes _ _ _ _ (by omega) hexpects hb h
    obtain ⟨left, hnode⟩ := verdict_node listen value hexpects hends
    rw [hnode] at h
    obtain ⟨state, -, h⟩ := exists_of_bind_ok h
    rw [keyed_past] at h
    obtain ⟨after, ⟨rest, rfl⟩ | ⟨rest, rfl, hmore⟩⟩ := exists_after_of_ok hstack h
    · exact ⟨.last before key gap lead value after, rest, by simp [Members.bytes]; rfl⟩
    · simp only [List.length_append, List.length_cons] at hlength
      rcases hmembers (s.separated ..) _ _ _ (by omega) rfl hstack hmore with
        ⟨hcomma, -⟩ | ⟨members, rest, rfl⟩
      · cases hcomma
      · exact ⟨.more before key gap lead value after members, rest, by simp [Members.bytes]⟩

end

/-- **A text that is accepted begins with a tree**, and likewise for items and members. -/
theorem treesBelow (n : Nat) :
    NodesBelow listen n ∧ ItemsBelow listen n ∧ MembersBelow listen n := by
  induction n with
  | zero => exact ⟨nofun, nofun, nofun⟩
  | succ n ih =>
      -- What stands in brackets is shorter than the value, but an item may be all that is there.
      obtain ⟨-, hitems, hmembers⟩ := ih
      have hnodes := nodesBelow_succ hitems hmembers
      exact ⟨hnodes, itemsBelow_succ hnodes hitems, membersBelow_succ hnodes hmembers⟩

/-! ### Whole texts -/

theorem length_bytes_pos (n : Node) : 0 < n.bytes.length := by
  cases n with
  | word word => cases word <;> decide
  | number number =>
      obtain ⟨b, text, p, h, -, -⟩ := NumberPlace.exists_number_start number
      rw [Node.bytes, h]
      exact Nat.succ_pos _
  | string letters => simp [Node.bytes]
  | empty kind gap => exact Nat.succ_pos _
  | array items => exact Nat.succ_pos _
  | object members => exact Nat.succ_pos _

/-- After the root the text may end. -/
theorem verdict_finished (bound : Nat) {length : Nat} (hlength : 0 < length) (left : Array UInt8)
    (state : σ) : verdict listen (past { room := bound } length left) state [] =
      .ok (length, state) := by
  have hconsumed : (past { room := bound } length left).consumed = length := Nat.zero_add length
  have hfinish : (past { room := bound } length left).finish =
      .accept (past { room := bound } length left) := by
    simp only [finish, hconsumed, Nat.pos_iff_ne_zero.1 hlength]
    rfl
  rw [verdict_nil, hfinish]
  exact congrArg (fun n => Except.ok (n, state)) hconsumed

/-- **A tree under the scanner, as a whole text.** -/
theorem verdict_text (t : Grammar.Text) (bound : Nat) (state : σ) :
    verdict listen { room := bound } state t.bytes =
      perform listen state (t.root.script bound t.before.bytes.length) >>= fun state =>
        .ok (t.bytes.length, state) := by
  obtain ⟨before, root, after⟩ := t
  have hexpects : (skip { room := bound } before.bytes.length).ExpectsValue :=
    .inr ⟨.inl rfl, rfl⟩
  have hends : EndsNumber [] after.bytes := by
    have hnil : EndsNumber [] [] := rfl
    have h := endsNumber_spaces after hnil
    rwa [List.append_nil] at h
  obtain ⟨left, h⟩ := verdict_node listen root hexpects (Node.ends_of_endsNumber hends root)
  simp only [Grammar.Text.bytes]
  rw [verdict_spaces listen (by rfl), h]
  simp only [skip_past, consumed_skip, room_skip, Nat.zero_add]
  congr 1
  funext state
  have hafter := verdict_after listen { room := bound }
    (before.bytes.length + root.bytes.length) left after state []
  have hpos := length_bytes_pos root
  rw [List.append_nil] at hafter
  rw [hafter, verdict_finished listen bound (by omega)]
  simp [Nat.add_assoc]

/-- **The whole texts that are accepted** are the texts of trees. -/
theorem exists_text_of_ok {bound : Nat} {state : σ} {x : Bytes} {r : Nat × σ}
    (h : verdict listen { room := bound } state x = .ok r) :
    ∃ t : Grammar.Text, t.bytes = x := by
  obtain ⟨before, y, rfl, hhead⟩ := exists_spaces x
  rw [verdict_spaces listen (by rfl)] at h
  have hexpects : (skip { room := bound } before.bytes.length).ExpectsValue :=
    .inr ⟨.inl rfl, rfl⟩
  have hb := head_of_expectsValue listen hexpects nofun h hhead
  obtain ⟨root, rest, rfl, hends⟩ :=
    (treesBelow listen _).1 _ _ _ _ (Nat.lt_succ_self _) hexpects hb h
  obtain ⟨left, hroot⟩ := verdict_node listen root hexpects hends
  rw [hroot] at h
  obtain ⟨state, -, h⟩ := exists_of_bind_ok h
  rw [skip_past] at h
  obtain ⟨after, z, rfl, hz⟩ := exists_spaces rest
  rw [verdict_after] at h
  cases z with
  | nil => exact ⟨⟨before, root, after⟩, by simp [Grammar.Text.bytes]⟩
  -- Nothing but white space may follow the root.
  | cons b z =>
      have hstep : (past { room := bound }
          (before.bytes.length + root.bytes.length + after.bytes.length) left).step b =
            fail (past { room := bound }
              (before.bytes.length + root.bytes.length + after.bytes.length) left)
                .contentEnded b := by
        simp only [step, past, Phase.afterValue, hz b rfl]
        rfl
      exact absurd h (ne_ok_of_reject listen hstep)

end DocCodec.Scanner
