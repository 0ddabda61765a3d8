/-
**Request by request or turn by turn.**

Each part of the writer gives the sink a text, in some pieces and in the order of the text, whatever
the sink answers.  So a string, a scalar and a whole turn are worth one write of their text, and the
writer that makes its requests one by one does to the sink what the writer does that hands over the
text of a turn at once.

This is also why none of the mishaps happens: the digits of 48 bytes fill the buffer of a block at
most, the formatter fails only if the sink does, and no container gets where scalars are written.

Main definitions:

* `DocCodec.Writing.Gives` — a part of the writer gives the sink a text, in some pieces.

Main results:

* `DocCodec.Writing.gives_string`, `DocCodec.Writing.gives_base64`,
  `DocCodec.Writing.gives_formatted`, `DocCodec.Writing.gives_scalar` — what the parts give;
* `DocCodec.Writing.gives_turn` — **a turn gives its text**;
* `DocCodec.encodeRequests_eq_encodeContainer` — **request by request or turn by turn**, the sink
  holds the same afterwards.
-/

import DocCodec.Proofs.Encoder.Base64

set_option relaxedAutoImplicit false
set_option autoImplicit false

namespace DocCodec

namespace Writing

/-- A part of the writer gives the sink a text, in some pieces. -/
def Gives (program : Writing Unit) (text : Bytes) : Prop :=
  ∃ pieces : List Bytes, pieces.flatten = text ∧ program = perform (pieces.map .write)

/-! ### Simple parts -/

theorem gives_nothing : Gives (pure ()) [] := ⟨[], rfl, rfl⟩

theorem gives_pieces (pieces : List Bytes) : Gives (pieces.forM write) pieces.flatten := by
  refine ⟨pieces, rfl, ?_⟩
  rw [perform, List.forM_eq_forM, List.forM_eq_forM, List.forM_map]
  rfl

theorem gives_write (bytes : Bytes) : Gives (write bytes) bytes := by
  have h := gives_pieces [bytes]
  simpa using h

/-- One part after another gives one text after the other. -/
theorem Gives.andThen {first second : Writing Unit} {text rest : Bytes} (hfirst : Gives first text)
    (hsecond : Gives second rest) : Gives (do first; second) (text ++ rest) := by
  obtain ⟨pieces, rfl, rfl⟩ := hfirst
  obtain ⟨others, rfl, rfl⟩ := hsecond
  refine ⟨pieces ++ others, List.flatten_append, ?_⟩
  rw [List.map_append, perform_append]

/-! ### Strings -/

/-- **A string gives its literal.** -/
theorem gives_string (content : Bytes) : Gives (string content) (Literal.quoted content) := by
  have h := (gives_write [Ascii.quote]).andThen
    ((gives_pieces ((Literal.fragments content).toList.map
      (Literal.Fragment.bytes content.toArray))).andThen (gives_write [Ascii.quote]))
  rwa [← List.flatMap_def] at h

theorem gives_text (content : String) : Gives (text content) (Encoder.quotedText content) :=
  gives_string _

/-! ### Base64 -/

/-- **Bytes give their base64 digits.** -/
theorem gives_base64 (content : Bytes) :
    Gives (base64 content) (Base64.blocks content).flatten :=
  ⟨Base64.blocks content, rfl, base64By_eq_perform Base64.standard_encodeInto content⟩

/-! ### Formatted text -/

/-- The adapter lets pieces through as if they were written one by one. -/
theorem takeAll_eq_perform (pieces : List Bytes) (session : Session) :
    (match ({ session : Adapter }).takeAll pieces with
      | (adapter, true) => ((.ok (), adapter.session) : Except EncodeError Unit × Session)
      | (adapter, false) =>
        match adapter.failure with
        | some failure => (.error (.sink failure), adapter.session)
        | none => (.error (.unexpectedState .formatterFailed), adapter.session)) =
      perform (pieces.map .write) session := by
  induction pieces generalizing session with
  | nil => rfl
  | cons piece rest ih =>
      rw [List.map_cons]
      rcases hwrite : session.write piece with ⟨later, failure⟩
      cases failure with
      | none =>
          have hperform : (Request.write piece).perform session = (.ok (), later) := by
            simp [Request.perform, write, ofSink, hwrite]
          rw [perform_cons, andThen_of_ok hperform, ← ih]
          simp [Adapter.takeAll, Adapter.take, hwrite]
      | some failure =>
          have hperform : (Request.write piece).perform session =
              (.error (.sink failure), later) := by
            simp [Request.perform, write, ofSink, hwrite]
          rw [perform_cons, andThen_of_error hperform]
          simp [Adapter.takeAll, Adapter.take, hwrite]

/-- **Formatted text is given whole**, however the formatter divides it. -/
theorem gives_formatted (formatter : Formatter) (text : Bytes) :
    Gives (formatted formatter text) text :=
  ⟨formatter.pieces text, formatter.flatten_pieces text,
    funext fun session => takeAll_eq_perform _ session⟩

/-! ### Scalars -/

/-- One entry in braces. -/
theorem object_one (key : String) (value : Bytes) :
    Encoder.object [Encoder.member key value] = head key ++ (value ++ tail) := by
  simp [Encoder.object, Encoder.member, head, tail]

/-- Two entries in braces. -/
theorem object_two (first second : String) (value other : Bytes) :
    Encoder.object [Encoder.member first value, Encoder.member second other] =
      head first ++ (value ++ (next second ++ (other ++ tail))) := by
  simp [Encoder.object, Encoder.member, head, next, tail, List.intercalate_cons_cons]

theorem gives_pointerId (id : Option ObjectId) :
    Gives (pointerId id) (id.elim [] fun id => next "$id" ++ Encoder.quotedDigits id.toHex) := by
  cases id with
  | none => exact gives_nothing
  | some id =>
      have h := (gives_write (next "$id" ++ [Ascii.quote])).andThen
        ((gives_write id.toHex).andThen (gives_write [Ascii.quote]))
      rwa [List.append_assoc] at h

/-- **A scalar gives its text.** -/
theorem gives_scalar (formatter : Formatter) (content : Scalar) :
    Gives (scalar formatter content) (Encoder.scalarText content) := by
  cases content with
  | double number =>
      simp only [scalar, Encoder.scalarText, Encoder.doubleText]
      split
      · exact gives_formatted formatter _
      · exact gives_write _
  | string content => exact gives_string content
  | code content => exact gives_string content
  | symbol content => exact gives_string content
  | binary subtype content =>
      have h := (gives_formatted formatter (head "$type" ++
        Encoder.quotedDigits (Hex.pair subtype) ++ next "$binary" ++ [Ascii.quote])).andThen
          ((gives_base64 content).andThen (gives_write (Ascii.quote :: tail)))
      simpa [scalar, Encoder.scalarText, Encoder.binaryText, object_two, Encoder.quotedDigits]
        using h
  | objectId id =>
      have h := (gives_write (head "$oid" ++ [Ascii.quote])).andThen
        ((gives_write id.toHex).andThen (gives_write (Ascii.quote :: tail)))
      simpa [scalar, Encoder.scalarText, object_one, Encoder.quotedDigits] using h
  | regex pattern options =>
      have h := (gives_write (head "$regex")).andThen ((gives_text pattern).andThen
        ((gives_write (next "$options")).andThen
          ((gives_text options).andThen (gives_write tail))))
      rwa [← object_two] at h
  | dbPointer collection id =>
      have h := (gives_write (head "$ref")).andThen ((gives_text collection).andThen
        ((gives_pointerId id).andThen (gives_write tail)))
      have htext : head "$ref" ++ (Encoder.quotedText collection ++
          ((id.elim [] fun id => next "$id" ++ Encoder.quotedDigits id.toHex) ++ tail)) =
            Encoder.dbPointerText collection id := by
        cases id <;> simp [Encoder.dbPointerText, object_one, object_two]
      rwa [htext] at h
  | date milliseconds => exact gives_formatted formatter _
  | timestamp seconds ordinal => exact gives_formatted formatter _
  | int32 number => exact gives_formatted formatter _
  | int64 number => exact gives_formatted formatter _
  | boolean truth => exact gives_write _
  | null => exact gives_write _
  | undefined => exact gives_write _
  | minKey => exact gives_write _
  | maxKey => exact gives_write _

/-! ### Turns -/

theorem gives_separated (level : Encoder.Level) :
    Gives (separated level) (if level.fresh then [] else Encoder.separator) := by
  unfold separated
  split
  · exact gives_nothing
  · exact gives_write _

theorem gives_value (formatter : Formatter) (depth : Nat) (content : Value) :
    Gives (value formatter depth content) (Encoder.visitValue depth content).1 := by
  cases content with
  | scalar content => exact gives_scalar formatter content
  | codeWithScope content scope => exact gives_string content
  | document entries => exact gives_write _
  | array items => exact gives_write _

/-- **A turn gives its text.** -/
theorem gives_turn (formatter : Formatter) (level : Encoder.Level) (outer : List Encoder.Level) :
    Gives (turn formatter level outer) (Encoder.turn level outer).1 := by
  cases hentries : level.entries with
  | nil =>
      simp only [turn, Encoder.turn, hentries]
      exact gives_write _
  | cons entry entries =>
      obtain ⟨name, content⟩ := entry
      have hvalue := gives_value formatter (outer.length + 1) content
      simp only [turn, Encoder.turn, hentries, Encoder.lead, List.append_assoc]
      refine (gives_separated level).andThen (Gives.andThen ?_ hvalue)
      cases name with
      | none => exact gives_nothing
      | some name => exact (gives_text name).andThen (gives_write _)

/-! ### Request by request or turn by turn -/

/-- **A part that gives a text** is worth one write of it. -/
theorem Gives.outcome {program : Writing Unit} {text : Bytes} (h : Gives program text)
    (session : Session) :
    ∃ later, program session =
        ((session.sink.write text).2.elim (.ok ()) (.error <| .sink ·), later) ∧
      later.sink = (session.sink.write text).1 ∧
      (session.sink.Accepts text →
        later.signal = session.signal ∧ later.polls = session.polls) := by
  obtain ⟨pieces, rfl, rfl⟩ := h
  obtain ⟨later, hlater, hsink⟩ := perform_pieces pieces session
  refine ⟨later, hlater, hsink, fun haccepts => ?_⟩
  obtain ⟨other, hother, -, hpolls, hsignal⟩ | ⟨error, other, -, -, -, hother, -⟩ :=
    journal_perform (pieces.map .write) session
  · obtain rfl : later = other := (Prod.mk.inj (hlater.symm.trans hother)).2
    rw [Request.polls_pieces] at hpolls
    exact ⟨hsignal, hpolls⟩
  · rw [hlater, haccepts] at hother
    cases hother

theorem run_nil (formatter : Formatter) : run formatter [] = (do poll; pure ()) := by
  rw [run]

theorem run_cons (formatter : Formatter) (level : Encoder.Level) (outer : List Encoder.Level) :
    run formatter (level :: outer) =
      (do poll; turn formatter level outer; run formatter (Encoder.turn level outer).2) := by
  rw [run]

theorem poll_of_stop {session : Session} (h : session.signal (session.polls + 1) = true) :
    ∃ later, poll session = (.error .aborted, later) ∧ Request.poll.Leaves session later := by
  have hpoll := Request.poll.perform_eq session
  rwa [Request.failure?_poll_of_stop h] at hpoll

theorem poll_of_go {session : Session} (h : ¬ session.signal (session.polls + 1) = true) :
    ∃ later, poll session = (.ok (), later) ∧ Request.poll.Leaves session later := by
  have hpoll := Request.poll.perform_eq session
  rwa [Request.failure?_poll_of_go (Bool.eq_false_iff.mpr h)] at hpoll

/-- **Turns that are taken request by request** do to the sink what turns do whose text is handed
over at once. -/
theorem run_outcome (formatter : Formatter) {signal : Signal} {polls : Nat}
    {levels : List Encoder.Level} {sink : Sink} {session : Session}
    (hsignal : session.signal = signal) (hpolls : session.polls = polls)
    (hsink : session.sink = sink) :
    ∃ later, run formatter levels session =
        ((Encoder.run signal polls levels sink).2.elim (.ok ()) .error, later) ∧
      later.sink = (Encoder.run signal polls levels sink).1 := by
  fun_induction Encoder.run signal polls levels sink generalizing session with
  | case1 polls levels sink hstop =>
      subst hsignal hpolls hsink
      obtain ⟨later, hpoll, hleaves⟩ := poll_of_stop hstop
      refine ⟨later, ?_, hleaves.sink⟩
      cases levels with
      | nil => exact run_nil formatter ▸ andThen_of_error hpoll _
      | cons level outer => exact run_cons formatter level outer ▸ andThen_of_error hpoll _
  | case2 polls sink hgo =>
      subst hsignal hpolls hsink
      obtain ⟨later, hpoll, hleaves⟩ := poll_of_go hgo
      exact ⟨later, run_nil formatter ▸ andThen_of_ok hpoll _, hleaves.sink⟩
  | case3 polls sink hgo level outer text levels hturn later hwrite ih =>
      subst hsignal hpolls hsink
      obtain ⟨asked, hpoll, hleaves⟩ := poll_of_go hgo
      have hheld : asked.sink = session.sink := hleaves.sink
      obtain ⟨next, hnext, hgiven, hkept⟩ := (gives_turn formatter level outer).outcome asked
      have haccepts : asked.sink.Accepts (Encoder.turn level outer).1 := by
        rw [Sink.Accepts, hheld, hturn, hwrite]
      obtain ⟨hsignal, hpolls⟩ := hkept haccepts
      rw [hheld, hturn, hwrite] at hnext hgiven
      rw [run_cons, andThen_of_ok hpoll, andThen_of_ok hnext, hturn]
      exact ih (hsignal.trans hleaves.signal) (hpolls.trans hleaves.polls) hgiven
  | case4 polls sink hgo level outer text levels hturn later failure hwrite =>
      subst hsignal hpolls hsink
      obtain ⟨asked, hpoll, hleaves⟩ := poll_of_go hgo
      have hheld : asked.sink = session.sink := hleaves.sink
      obtain ⟨next, hnext, hgiven, hkept⟩ := (gives_turn formatter level outer).outcome asked
      rw [hheld, hturn, hwrite] at hnext hgiven
      refine ⟨next, ?_, hgiven⟩
      rw [run_cons, andThen_of_ok hpoll, andThen_of_error hnext]
      rfl

theorem announce_of_refused (session : Session) (h : session.sink.refusesType = true)
    (contentType : String) :
    ∃ later, announce contentType session = (.error (.sink .refused), later) ∧
      (Request.announce contentType).Leaves session later := by
  have hannounce := (Request.announce contentType).perform_eq session
  rwa [Request.failure?, if_pos h] at hannounce

theorem announce_of_welcome (session : Session) (h : session.sink.refusesType = false)
    (contentType : String) :
    ∃ later, announce contentType session = (.ok (), later) ∧
      (Request.announce contentType).Leaves session later := by
  have hannounce := (Request.announce contentType).perform_eq session
  rwa [Request.failure?, if_neg (h ▸ Bool.false_ne_true)] at hannounce

/-- **A root that is written request by request** becomes what it becomes turn by turn. -/
theorem root_outcome (formatter : Formatter) (level : Encoder.Level) (session : Session)
    (hpolls : session.polls = 0) :
    ∃ later, root formatter level session =
        ((Encoder.writeRoot session.signal level session.sink).2.elim (.ok ()) .error, later) ∧
      later.sink = (Encoder.writeRoot session.signal level session.sink).1 := by
  cases htype : session.sink.refusesType with
  | true =>
      have hrefused : session.sink.announce contentType =
          ((session.sink.announce contentType).1, some .refused) := by
        simp [Sink.announce, htype]
      obtain ⟨later, hlater, hleaves⟩ := announce_of_refused session htype contentType
      rw [root, andThen_of_error hlater, Encoder.writeRoot, hrefused]
      exact ⟨later, rfl, hleaves.sink⟩
  | false =>
      have hwelcome : session.sink.announce contentType =
          ((session.sink.announce contentType).1, none) := by
        simp [Sink.announce, htype]
      obtain ⟨told, htold, hleaves⟩ := announce_of_welcome session htype contentType
      have hheld : told.sink = (session.sink.announce contentType).1 := hleaves.sink
      rw [root, andThen_of_ok htold, Encoder.writeRoot, hwelcome]
      simp only [← hheld]
      cases hentries : level.entries.isEmpty with
      | true =>
          obtain ⟨later, hlater, hgiven, -⟩ := (gives_write (Encoder.empty level.kind)).outcome told
          rw [if_pos rfl, if_pos rfl, hlater]
          refine ⟨later, ?_⟩
          rw [hgiven]
          rcases told.sink.write (Encoder.empty level.kind) with ⟨sink, _ | failure⟩
          · exact ⟨rfl, rfl⟩
          · exact ⟨rfl, rfl⟩
      | false =>
          obtain ⟨opened, hopened, hgiven, hkept⟩ :=
            (gives_write (Encoder.opening level.kind)).outcome told
          rw [if_neg Bool.false_ne_true]
          rcases hwrite : told.sink.write (Encoder.opening level.kind) with ⟨sink, _ | failure⟩
          · rw [hwrite] at hopened hgiven
            obtain ⟨hsignal, hasked⟩ := hkept (by rw [Sink.Accepts, hwrite])
            rw [andThen_of_ok hopened]
            exact run_outcome formatter (hsignal.trans hleaves.signal)
              (hasked.trans (hleaves.polls.trans hpolls)) hgiven
          · rw [hwrite] at hopened hgiven
            rw [andThen_of_error hopened]
            exact ⟨opened, rfl, hgiven⟩

end Writing

/-- **Request by request or turn by turn**, a sink holds the same afterwards, and the writing ends
in the same way. -/
theorem encodeRequests_eq_encodeContainer (formatter : Formatter) (signal : Signal)
    (root : Container) (withKeys : Bool) (sink : Sink) :
    ((encodeRequests formatter signal root withKeys sink).1.sink,
      (encodeRequests formatter signal root withKeys sink).2) =
        encodeContainer signal root withKeys sink := by
  have hroot : encodeContainer signal root withKeys sink =
      Encoder.writeRoot signal (.ofContainer root withKeys) sink := by
    cases root <;> rfl
  obtain ⟨later, hlater, hsink⟩ := Writing.root_outcome formatter (.ofContainer root withKeys)
    { sink, signal } rfl
  rw [hroot, encodeRequests, Writing.outcome, hlater]
  rcases hwritten : Encoder.writeRoot signal (.ofContainer root withKeys) sink with
    ⟨held, _ | error⟩
  · rw [hwritten] at hsink
    exact Prod.ext hsink rfl
  · rw [hwritten] at hsink
    exact Prod.ext hsink rfl

end DocCodec
