/-
**The language of the scanner and its traces.**

With a listener that refuses nothing, the scanner accepts a text if and only if it is the text of a
tree with no more containers open at a time than are allowed.  What the listener then hears is the
trace of the tree, and every event of it lies in the text where its offset says: a bracket at its
own place, a key or a string at its closing quotation mark, a word at its last letter, and a number
just before its offset.

Main definitions:

* `DocCodec.Scanner.noting` — a listener that refuses nothing;
* `DocCodec.Scanner.logging` — one that keeps a log of what it hears;
* `DocCodec.Grammar.Located` — an event that lies in a text at an offset.

Main results:

* `DocCodec.Grammar.Text.located_trace` — the events of a trace lie where their offsets say;
* `DocCodec.Scanner.scan_language_and_trace` — **the scanner accepts exactly the texts of trees
  and reports their traces**;
* `DocCodec.Scanner.exists_logs_of_cut` — the log of a text that is fed in two parts is its trace.
-/

import DocCodec.Proofs.Scanner.Accepted

set_option relaxedAutoImplicit false
set_option autoImplicit false

namespace DocCodec

/-! ### Events in their text -/

namespace Grammar

/-- An event that lies in a text at an offset. -/
def Located (text : Bytes) (offset : Nat) : Event → Prop
  | .enter kind => ∃ before after,
      text = before ++ kind.opening :: after ∧ offset = before.length
  | .leave kind => ∃ before after,
      text = before ++ kind.closing :: after ∧ offset = before.length
  | .key raw => Quoted raw
  | .scalar token raw =>
    match token with
    | .string => Quoted raw
    | .integer => Plain raw ∧
        ¬(Ascii.point ∈ raw ∨ Ascii.byte 'e' ∈ raw ∨ Ascii.byte 'E' ∈ raw)
    | .float => Plain raw ∧ (Ascii.point ∈ raw ∨ Ascii.byte 'e' ∈ raw ∨ Ascii.byte 'E' ∈ raw)
    | .boolean _ | .null => ∃ before after,
        text = before ++ (raw ++ after) ∧ offset + 1 = (before ++ raw).length
where
  /-- The raw text of a literal, with the quotation mark that opens it, ends at the offset, where
  the closing one stands. -/
  Quoted (raw : Bytes) : Prop := ∃ before after,
    text = before ++ (raw ++ Ascii.quote :: after) ∧ offset = (before ++ raw).length ∧
      raw.head? = some Ascii.quote
  /-- The raw text of a number ends at the offset. -/
  Plain (raw : Bytes) : Prop := ∃ before after,
    text = before ++ (raw ++ after) ∧ offset = (before ++ raw).length

theorem located_letters (before after : Bytes) (letters : Letters) :
    Located.Quoted (before ++ (letters.quoted ++ after)) (before.length + letters.raw.length)
      letters.raw :=
  ⟨before, after, by simp [Letters.quoted], by simp, rfl⟩

theorem located_number (before after : Bytes) (n : Number) :
    Located (before ++ (n.bytes ++ after)) (before.length + n.bytes.length)
      (.scalar n.token n.bytes) := by
  have hplain : Located.Plain (before ++ (n.bytes ++ after)) (before.length + n.bytes.length)
      n.bytes := ⟨before, after, rfl, by simp⟩
  unfold Number.token
  by_cases h : Ascii.point ∈ n.bytes ∨ Ascii.byte 'e' ∈ n.bytes ∨ Ascii.byte 'E' ∈ n.bytes
  · rw [if_pos h]
    exact ⟨hplain, h⟩
  · rw [if_neg h]
    exact ⟨hplain, h⟩

theorem located_word (before after : Bytes) (word : Scanner.Word) :
    Located (before ++ (word.letters ++ after)) (before.length + word.tail.length)
      (.scalar word.token word.letters) := by
  cases word <;> exact ⟨before, after, rfl, by simp [Scanner.Word.letters, Nat.add_assoc]⟩

/-- The brackets of a container lie where their offsets say. -/
theorem located_brackets (kind : Bracket) (before body after : Bytes) :
    Located (before ++ (kind.opening :: (body ++ kind.closing :: after))) before.length
        (.enter kind) ∧
      Located (before ++ (kind.opening :: (body ++ kind.closing :: after)))
        (before.length + 1 + body.length) (.leave kind) :=
  ⟨⟨before, _, rfl, rfl⟩,
    ⟨before ++ kind.opening :: body, after, by simp, by simp; omega⟩⟩

mutual

/-- **The events of a value lie where their offsets say**, whatever stands around its text. -/
theorem Node.located_trace (n : Node) (before after : Bytes) :
    ∀ p ∈ n.trace before.length, Located (before ++ (n.bytes ++ after)) p.2 p.1 := by
  cases n with
  | word word =>
      rintro p (_ | ⟨_, ⟨⟩⟩)
      exact located_word before after word
  | number number =>
      rintro p (_ | ⟨_, ⟨⟩⟩)
      exact located_number before after number
  | string letters =>
      rintro p (_ | ⟨_, ⟨⟩⟩)
      exact located_letters before after letters
  | empty kind gap =>
      obtain ⟨hopening, hclosing⟩ := located_brackets kind before gap.bytes after
      simp only [Node.trace, Node.bytes, List.cons_append, List.append_assoc, List.nil_append,
        List.mem_cons, List.not_mem_nil, or_false]
      rintro p (rfl | rfl)
      · exact hopening
      · exact hclosing
  | array items =>
      obtain ⟨hopening, hclosing⟩ := located_brackets .square before items.bytes after
      have hitems := items.located_trace (before ++ [Ascii.openSquare]) (Ascii.closeSquare :: after)
      simp only [Node.trace, Node.bytes, List.cons_append, List.append_assoc, List.nil_append,
        List.mem_cons, List.mem_append, List.not_mem_nil, or_false, List.length_append,
        List.length_cons, List.length_nil] at hitems ⊢
      rintro p (rfl | hp | rfl)
      · exact hopening
      · exact hitems p hp
      · exact hclosing
  | object members =>
      obtain ⟨hopening, hclosing⟩ := located_brackets .brace before members.bytes after
      have hmembers :=
        members.located_trace (before ++ [Ascii.openBrace]) (Ascii.closeBrace :: after)
      simp only [Node.trace, Node.bytes, List.cons_append, List.append_assoc, List.nil_append,
        List.mem_cons, List.mem_append, List.not_mem_nil, or_false, List.length_append,
        List.length_cons, List.length_nil] at hmembers ⊢
      rintro p (rfl | hp | rfl)
      · exact hopening
      · exact hmembers p hp
      · exact hclosing

theorem Items.located_trace (items : Items) (before after : Bytes) :
    ∀ p ∈ items.trace before.length, Located (before ++ (items.bytes ++ after)) p.2 p.1 := by
  cases items with
  | last lead value gap =>
      have hvalue := value.located_trace (before ++ lead.bytes) (gap.bytes ++ after)
      simpa [Items.trace, Items.bytes] using hvalue
  | more lead value gap rest =>
      have hvalue := value.located_trace (before ++ lead.bytes)
        (gap.bytes ++ Ascii.comma :: (rest.bytes ++ after))
      have hrest := rest.located_trace
        (before ++ lead.bytes ++ value.bytes ++ gap.bytes ++ [Ascii.comma]) after
      simp only [Items.trace, Items.bytes, List.append_assoc, List.cons_append, List.nil_append,
        List.length_append, List.length_cons, List.length_nil, Nat.zero_add, ← Nat.add_assoc,
        List.mem_append] at hvalue hrest ⊢
      rintro p (hp | hp)
      · exact hvalue p hp
      · exact hrest p hp

theorem Members.located_trace (members : Members) (before after : Bytes) :
    ∀ p ∈ members.trace before.length, Located (before ++ (members.bytes ++ after)) p.2 p.1 := by
  cases members with
  | last lead key gap lead' value gap' =>
      have hkey := located_letters (before ++ lead.bytes)
        (gap.bytes ++ Ascii.colon :: (lead'.bytes ++ (value.bytes ++ (gap'.bytes ++ after)))) key
      have hvalue := value.located_trace (before ++ keyBytes lead key gap lead')
        (gap'.bytes ++ after)
      simp only [Members.trace, Members.bytes, List.append_assoc, List.length_append,
        List.mem_cons] at hkey hvalue ⊢
      rintro p (rfl | hp)
      · simpa [keyBytes, Located] using hkey
      · exact hvalue p hp
  | more lead key gap lead' value gap' rest =>
      have hkey := located_letters (before ++ lead.bytes)
        (gap.bytes ++ Ascii.colon :: (lead'.bytes ++ (value.bytes ++
          (gap'.bytes ++ Ascii.comma :: (rest.bytes ++ after))))) key
      have hvalue := value.located_trace (before ++ keyBytes lead key gap lead')
        (gap'.bytes ++ Ascii.comma :: (rest.bytes ++ after))
      have hrest := rest.located_trace
        (before ++ keyBytes lead key gap lead' ++ value.bytes ++ gap'.bytes ++ [Ascii.comma]) after
      simp only [Members.trace, Members.bytes, List.append_assoc, List.cons_append, List.nil_append,
        List.length_append, List.length_cons, List.length_nil, Nat.zero_add, ← Nat.add_assoc,
        List.mem_cons, List.mem_append] at hkey hvalue hrest ⊢
      rintro p (rfl | hp | hp)
      · simpa [keyBytes, Located] using hkey
      · exact hvalue p hp
      · exact hrest p hp

end

/-- **The events of a text lie where their offsets say.** -/
theorem Text.located_trace (t : Text) : ∀ p ∈ t.trace, Located t.bytes p.2 p.1 := by
  have h := t.root.located_trace t.before.bytes t.after.bytes
  exact h

end Grammar

namespace Scanner

variable {σ ε : Type}

/-! ### Listeners that refuse nothing -/

/-- A listener that takes note of every event and refuses none. -/
def noting (note : σ → Event → Nat → σ) : Listener σ ε :=
  fun state event offset => (note state event offset, none)

/-- Events alone are carried out to the end, one note after another. -/
theorem perform_noting (note : σ → Event → Nat → σ) (state : σ) (trace : Grammar.Trace) :
    perform (noting note : Listener σ ε) state (trace.map Grammar.cueOf) =
      .ok (trace.foldl (fun state p => note state p.1 p.2) state) := by
  induction trace generalizing state with
  | nil => rfl
  | cons p trace ih => exact ih (note state p.1 p.2)

/-- A scan that comes to something did not stop. -/
theorem eq_of_outcome_map_eq_ok {progress : Progress σ ε} {consumed : Nat} {state : σ}
    (h : .ok (consumed, state) = progress.outcome.map fun p => (p.1.consumed, p.2)) :
    progress.stop = none ∧ progress.listener = state ∧ progress.scanner.consumed = consumed := by
  rcases progress with ⟨after, state, _ | stop⟩
  · cases h
    exact ⟨rfl, rfl, rfl⟩
  · cases h

theorem eq_of_outcome_eq_ok {progress : Progress σ ε} {after : Scanner} {state : σ}
    (h : progress.outcome = .ok (after, state)) : progress = ⟨after, state, none⟩ := by
  rcases progress with ⟨after, state, _ | stop⟩
  · cases h
    rfl
  · cases h

theorem outcome_eq_ok {progress : Progress σ ε} (h : progress.stop = none) :
    progress.outcome = .ok (progress.scanner, progress.listener) := by
  rcases progress with ⟨after, state, _ | stop⟩
  · rfl
  · cases h

/-- **The scanner accepts exactly the texts of trees with no more containers open at a time than
are allowed, and reports their traces.**  All of the text is then consumed, and every event lies in
the text where its offset says. -/
theorem scan_language_and_trace (ε : Type) (note : σ → Event → Nat → σ) (bound : Nat) (state : σ)
    (x : Bytes) :
    ((scan (noting note : Listener σ ε) bound state x).stop = none ↔
      ∃ t : Grammar.Text, t.bytes = x ∧ t.depth ≤ bound) ∧
    ∀ t : Grammar.Text, t.bytes = x → t.depth ≤ bound →
      (scan (noting note : Listener σ ε) bound state x).listener =
          t.trace.foldl (fun state p => note state p.1 p.2) state ∧
        (scan (noting note : Listener σ ε) bound state x).scanner.consumed = x.length ∧
        ∀ p ∈ t.trace, Grammar.Located x p.2 p.1 := by
  have hverdict := verdict_scan (noting note : Listener σ ε) bound state x
  have htext (t : Grammar.Text) (hbytes : t.bytes = x) (hdepth : t.depth ≤ bound) :
      verdict (noting note : Listener σ ε) { room := bound } state x =
        .ok (x.length, t.trace.foldl (fun state p => note state p.1 p.2) state) := by
    rw [← hbytes, verdict_text, t.root.script_eq_trace hdepth, perform_noting]
    rfl
  refine ⟨⟨?_, ?_⟩, ?_⟩
  · intro hstop
    rw [outcome_eq_ok hstop] at hverdict
    obtain ⟨t, rfl⟩ := exists_text_of_ok _ hverdict
    rw [verdict_text] at hverdict
    obtain ⟨after, hperform, -⟩ := exists_of_bind_ok hverdict
    exact ⟨t, rfl, t.root.depth_le_of_isEvent (isEvent_of_perform_ok _ hperform)⟩
  · rintro ⟨t, hbytes, hdepth⟩
    rw [htext t hbytes hdepth] at hverdict
    exact (eq_of_outcome_map_eq_ok hverdict).1
  · intro t hbytes hdepth
    rw [htext t hbytes hdepth] at hverdict
    obtain ⟨-, hlistener, hconsumed⟩ := eq_of_outcome_map_eq_ok hverdict
    refine ⟨hlistener, hconsumed, ?_⟩
    rw [← hbytes]
    exact t.located_trace

/-! ### The log of a scan -/

/-- A listener that refuses nothing and keeps a log of what it hears. -/
def logging : Listener Grammar.Trace Empty :=
  noting fun heard event offset => heard ++ [(event, offset)]

theorem run_logging (r : Reaction) (offset : Nat) (heard : Grammar.Trace) :
    r.run logging offset heard =
      ⟨(r.run logging offset []).scanner, heard ++ (r.run logging offset []).listener,
        (r.run logging offset []).stop⟩ := by
  induction r generalizing heard with
  | accept after => simp [Reaction.run]
  | reject error left => simp [Reaction.run]
  | raise event refused next ih =>
      have hcons := ih (heard ++ [(event, offset)])
      have hnil := ih ([] ++ [(event, offset)])
      change next.run logging offset (heard ++ [(event, offset)]) = ⟨_, _, _⟩
      change _ = Progress.mk
        (next.run logging offset ([] ++ [(event, offset)])).scanner
        (heard ++ (next.run logging offset ([] ++ [(event, offset)])).listener)
        (next.run logging offset ([] ++ [(event, offset)])).stop
      rw [hcons, hnil]
      simp

/-- What was heard before makes no difference to a scan that is logged. -/
theorem feed_logging (s : Scanner) (heard : Grammar.Trace) (x : Bytes) :
    feed logging s heard x =
      ⟨(feed logging s [] x).scanner, heard ++ (feed logging s [] x).listener,
        (feed logging s [] x).stop⟩ := by
  induction x generalizing s heard with
  | nil => simp [feed]
  | cons b x ih =>
      simp only [feed]
      rw [run_logging]
      rcases (s.step b).run logging s.consumed [] with ⟨after, log, _ | stop⟩
      · simp only
        rw [ih after.advance (heard ++ log), ih after.advance log]
        simp
      · rfl

/-- The log of a text that is fed in two parts. -/
theorem feed_logging_append {s : Scanner} {x : Bytes} (y : Bytes)
    (hx : (feed logging s [] x).stop = none) :
    feed logging s [] (x ++ y) =
      ⟨(feed logging (feed logging s [] x).scanner [] y).scanner,
        (feed logging s [] x).listener ++
          (feed logging (feed logging s [] x).scanner [] y).listener,
        (feed logging (feed logging s [] x).scanner [] y).stop⟩ := by
  rw [feed_append]
  rcases hfeed : feed logging s [] x with ⟨after, log, _ | stop⟩
  · exact feed_logging after log y
  · rw [hfeed] at hx
    cases hx

/-- A log of events is kept in their order. -/
theorem foldl_logging (trace heard : Grammar.Trace) :
    trace.foldl (fun heard p => heard ++ [(p.1, p.2)]) heard = heard ++ trace := by
  induction trace generalizing heard with
  | nil => exact (List.append_nil heard).symm
  | cons p trace ih =>
      rw [List.foldl_cons, ih, List.append_assoc]
      rfl

/-- **The log of a text is its trace**, wherever the text is cut in two: what is heard up to the cut,
what is heard behind it, and what is heard at the end. -/
theorem exists_logs_of_cut {t : Grammar.Text} {bound : Nat} (hdepth : t.depth ≤ bound)
    {first second : Bytes} (hcut : t.bytes = first ++ second) :
    ∃ (s after closed : Scanner) (log more last : Grammar.Trace),
      feed logging { room := bound } [] first = ⟨s, log, none⟩ ∧
      feed logging s [] second = ⟨after, more, none⟩ ∧
      close logging after [] = ⟨closed, last, none⟩ ∧ t.trace = log ++ (more ++ last) := by
  have hverdict : verdict logging { room := bound } [] t.bytes = .ok (t.bytes.length, t.trace) := by
    rw [verdict_text, t.root.script_eq_trace hdepth, logging, perform_noting, foldl_logging]
    rfl
  rw [hcut] at hverdict
  obtain ⟨⟨after, heard⟩, hfeed, hverdict⟩ := exists_of_bind_ok hverdict
  obtain ⟨⟨closed, trace⟩, hclose, hverdict⟩ := exists_of_bind_ok hverdict
  obtain ⟨-, htrace⟩ := Prod.mk.inj (Except.ok.inj hverdict)
  replace hfeed := eq_of_outcome_eq_ok hfeed
  replace hclose := eq_of_outcome_eq_ok hclose
  obtain ⟨s, log, hfirst, hsecond⟩ := exists_of_feed_append hfeed
  rw [feed_logging] at hsecond
  rcases hmore : feed logging s [] second with ⟨reached, more, stop⟩
  rw [hmore] at hsecond
  cases hsecond
  rw [close, run_logging] at hclose
  rcases hlast : reached.finish.run logging reached.consumed [] with ⟨ended, last, stop⟩
  rw [hlast] at hclose
  cases hclose
  refine ⟨s, reached, ended, log, more, last, hfirst, hmore, hlast, ?_⟩
  rw [← htrace, List.append_assoc]

end Scanner

end DocCodec
