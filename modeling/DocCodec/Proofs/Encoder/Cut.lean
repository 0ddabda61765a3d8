/-
**A limit and a stop signal only cut the text.**

The writer's requests depend on the document alone.  Neither the sink's answers nor the signal's
change them; they only end the writing early.  So what a run leaves behind that is short of room, or
that is stopped, is a first part of what the run with neither writes: up to the question at which
the signal says stop, if the sink takes all that is written before it, and else as much as the sink
has room for.

The signal is asked once before each entry, once before each end of a container and once more when
no level is left.  How often that is can be said by recursion on the document: once for each entry
of the containers that are written, once for each of these containers that holds something, and
once more.

Main definitions:

* `DocCodec.Encoder.sizes` — how many entries each container has that is written of a value;
* `DocCodec.Container.questions` — how often the signal is asked while a container is written;
* `DocCodec.Encoder.questionsOwed` — how often it is still asked while levels are open;
* `DocCodec.CutOf`, `DocCodec.Orderly` — what a run has to do with the run that nothing hinders.

Main results:

* `DocCodec.Encoder.questionsOwed_turn` — each turn is one question;
* `DocCodec.Writing.exists_requests_root` — the requests of a root;
* `DocCodec.encodeRequests_cut` — **a limit and a stop signal only cut the text**.
-/

import DocCodec.Proofs.Encoder.Parts
import Mathlib.Algebra.GroupWithZero.Nat

set_option relaxedAutoImplicit false
set_option autoImplicit false

namespace DocCodec

/-! ### How often the signal is asked -/

namespace Encoder

mutual

/-- How many entries each container has that is written of a value with `depth` containers around
it, in the order of the text.  The containers that are nested too deeply are not written. -/
def sizes (depth : Nat) : Value → List Nat
  | .scalar _ => []
  | .codeWithScope _ _ => []
  | .document entries =>
    if nestingLimit ≤ depth then [] else entries.length :: sizesOfEntries (depth + 1) entries
  | .array items =>
    if nestingLimit ≤ depth then [] else items.length :: sizesOfItems (depth + 1) items

/-- How many entries each container has that is written of the entries of a document. -/
def sizesOfEntries (depth : Nat) : List (String × Value) → List Nat
  | [] => []
  | (_, value) :: rest => sizes depth value ++ sizesOfEntries depth rest

/-- How many entries each container has that is written of the items of an array. -/
def sizesOfItems (depth : Nat) : List Value → List Nat
  | [] => []
  | value :: rest => sizes depth value ++ sizesOfItems depth rest

end

/-- How many turns containers of the given sizes take: one for each entry, and one for the end of
each container that holds something. -/
def turnCount (sizes : List Nat) : Nat := sizes.sum + sizes.countP (· != 0)

@[simp] theorem turnCount_nil : turnCount [] = 0 := rfl

@[simp] theorem turnCount_append (first second : List Nat) :
    turnCount (first ++ second) = turnCount first + turnCount second := by
  simp only [turnCount, List.sum_append, List.countP_append]
  omega

theorem turnCount_cons (size : Nat) (rest : List Nat) :
    turnCount (size :: rest) = size + (if size = 0 then 0 else 1) + turnCount rest := by
  simp only [turnCount, List.sum_cons, List.countP_cons, bne_iff_ne, ne_eq, ite_not]
  omega

theorem sizesOfEntries_eq (depth : Nat) (entries : List (String × Value)) :
    sizesOfEntries depth entries = sizesOfItems depth (entries.map Prod.snd) := by
  induction entries with
  | nil => rfl
  | cons entry entries ih => rw [List.map_cons, sizesOfEntries, sizesOfItems, ih]

/-- How many turns entries take, whether they have keys or not. -/
def entryTurns (depth : Nat) (entries : List Entry) : Nat :=
  entries.length + turnCount (sizesOfItems depth (entries.map Prod.snd))

/-- **How often the signal is still asked** while levels are open. -/
def questionsOwed : List Level → Nat
  | [] => 1
  | level :: outer => entryTurns (outer.length + 1) level.entries + 1 + questionsOwed outer

theorem entryTurns_ofDocument (depth : Nat) (document : Document) (withKeys : Bool) :
    entryTurns depth (Level.ofDocument document withKeys).entries =
      document.length + turnCount (sizesOfEntries depth document) := by
  rw [entryTurns, sizesOfEntries_eq]
  cases withKeys <;> simp [Level.ofDocument, Function.comp_def]

theorem entryTurns_ofArray (depth : Nat) (items : List Value) :
    entryTurns depth (Level.ofArray items).entries =
      items.length + turnCount (sizesOfItems depth items) := by
  simp [entryTurns, Level.ofArray, Function.comp_def]

/-- A container is worth a turn for each entry, and one more if it is opened. -/
theorem questionsOwed_visit (nested : Level) (levels : List Level) :
    questionsOwed ((visit nested levels.length).2 ++ levels) =
      (if nestingLimit ≤ levels.length then 0
        else entryTurns (levels.length + 1) nested.entries +
          if nested.entries.length = 0 then 0 else 1) + questionsOwed levels := by
  unfold visit
  split
  · simp
  · cases hentries : nested.entries with
    | nil => simp [entryTurns, sizesOfItems]
    | cons entry entries => simp [questionsOwed, hentries]

/-- What a value adds to the levels is asked for as often as the sizes of its containers say. -/
theorem questionsOwed_visitValue (value : Value) (levels : List Level) :
    questionsOwed ((visitValue levels.length value).2 ++ levels) =
      turnCount (sizes levels.length value) + questionsOwed levels := by
  cases value with
  | scalar content => simp [visitValue, sizes]
  | codeWithScope content scope => simp [visitValue, sizes]
  | document entries =>
      simp only [visitValue, sizes]
      rw [questionsOwed_visit, entryTurns_ofDocument]
      split
      · rfl
      · rw [turnCount_cons]
        simp only [Level.ofDocument, if_true, List.length_map]
        omega
  | array items =>
      simp only [visitValue, sizes]
      rw [questionsOwed_visit, entryTurns_ofArray]
      split
      · rfl
      · rw [turnCount_cons]
        simp only [Level.ofArray, List.length_map]
        omega

/-- **Each turn is one question.** -/
theorem questionsOwed_turn (level : Level) (outer : List Level) :
    questionsOwed (level :: outer) = questionsOwed (turn level outer).2 + 1 := by
  cases hentries : level.entries with
  | nil =>
      simp only [turn, hentries, questionsOwed, entryTurns, List.length_nil, List.map_nil,
        sizesOfItems, turnCount_nil]
      omega
  | cons entry entries =>
      obtain ⟨key, value⟩ := entry
      have hvalue :=
        questionsOwed_visitValue value ({ level with entries, fresh := false } :: outer)
      simp only [turn, hentries]
      rw [List.length_cons] at hvalue
      rw [hvalue]
      simp only [questionsOwed, entryTurns, hentries, List.length_cons, List.map_cons, sizesOfItems,
        turnCount_append]
      omega

end Encoder

/-- How many entries or items a container has. -/
def Container.size : Container → Nat
  | .document entries => entries.length
  | .array items => items.length

/-- **How often the signal is asked** while a container is written: never if it holds nothing, else
once for each entry of the containers that are written, once for each of these that holds something,
and once more. -/
def Container.questions (root : Container) : Nat :=
  if root.size = 0 then 0
  else
    let sizes := Encoder.sizes 0 root.toValue
    sizes.sum + sizes.countP (· != 0) + 1

/-- What is owed at the start of a root is what is asked while it is written. -/
theorem questionsOwed_ofContainer (root : Container) (withKeys : Bool) (hroot : root.size ≠ 0) :
    Encoder.questionsOwed [.ofContainer root withKeys] = root.questions := by
  have hdepth : ¬ nestingLimit ≤ 0 := Nat.not_le_of_lt (Nat.lt_of_sub_eq_succ rfl)
  rw [Container.questions, if_neg hroot]
  show _ = Encoder.turnCount (Encoder.sizes 0 root.toValue) + 1
  cases root with
  | document document =>
      have hroot : document.length ≠ 0 := hroot
      simp only [Encoder.questionsOwed, Encoder.Level.ofContainer, Encoder.entryTurns_ofDocument,
        Container.toValue, Encoder.sizes, if_neg hdepth, Encoder.turnCount_cons, if_neg hroot,
        List.length_nil]
      omega
  | array items =>
      have hroot : items.length ≠ 0 := hroot
      simp only [Encoder.questionsOwed, Encoder.Level.ofContainer, Encoder.entryTurns_ofArray,
        Container.toValue, Encoder.sizes, if_neg hdepth, Encoder.turnCount_cons, if_neg hroot,
        List.length_nil]
      omega

/-! ### The requests of a document -/

namespace Writing

/-- What a part of the writer asks for: some requests, of which none is to tell the content type,
and so many are questions. -/
def Asks (program : Writing Unit) (questions : Nat) : Prop :=
  ∃ requests, program = perform requests ∧
    (∀ contentType, .announce contentType ∉ requests) ∧ Request.polls requests = questions

theorem asks_poll : Asks poll 1 := by
  refine ⟨[.poll], ?_, by simp, rfl⟩
  simp [perform, Request.perform]

theorem asks_nothing : Asks (pure ()) 0 := ⟨[], rfl, by simp, rfl⟩

theorem Gives.asks {program : Writing Unit} {text : Bytes} (h : Gives program text) :
    Asks program 0 := by
  obtain ⟨pieces, -, rfl⟩ := h
  exact ⟨_, rfl, by simp, Request.polls_pieces pieces⟩

theorem Asks.andThen {first second : Writing Unit} {questions more : Nat}
    (hfirst : Asks first questions) (hsecond : Asks second more) :
    Asks (do first; second) (questions + more) := by
  obtain ⟨requests, rfl, hrequests, rfl⟩ := hfirst
  obtain ⟨others, rfl, hothers, rfl⟩ := hsecond
  refine ⟨requests ++ others, (perform_append requests others).symm, ?_, List.count_append⟩
  intro contentType h
  rcases List.mem_append.mp h with h | h
  · exact hrequests contentType h
  · exact hothers contentType h

/-- **Turns ask the signal** as often as their levels owe it. -/
theorem asks_run (formatter : Formatter) (levels : List Encoder.Level) :
    Asks (run formatter levels) (Encoder.questionsOwed levels) := by
  induction levels using run.induct with
  | case1 levels ih =>
      cases levels with
      | nil =>
          rw [run_nil]
          exact asks_poll.andThen asks_nothing
      | cons level outer =>
          have h := asks_poll.andThen ((gives_turn formatter level outer).asks.andThen ih)
          rw [← run_cons] at h
          rwa [Nat.zero_add, Nat.add_comm, ← Encoder.questionsOwed_turn] at h

theorem isEmpty_ofContainer {root : Container} {withKeys : Bool} :
    (Encoder.Level.ofContainer root withKeys).entries.isEmpty = true ↔ root.size = 0 := by
  rw [List.isEmpty_iff_length_eq_zero]
  cases root with
  | document document =>
      cases withKeys <;> simp [Encoder.Level.ofContainer, Encoder.Level.ofDocument, Container.size]
  | array items => simp [Encoder.Level.ofContainer, Encoder.Level.ofArray, Container.size]

/-- **The requests of a root**: to tell the content type, and then others, of which so many are
questions. -/
theorem exists_requests_root (formatter : Formatter) (root : Container) (withKeys : Bool) :
    ∃ requests, Writing.root formatter (.ofContainer root withKeys) =
        perform (.announce contentType :: requests) ∧
      (∀ contentType, .announce contentType ∉ requests) ∧
      Request.polls requests = root.questions := by
  have hrest : Asks (if (Encoder.Level.ofContainer root withKeys).entries.isEmpty then
        write (Encoder.empty (Encoder.Level.ofContainer root withKeys).kind)
      else do
        write (Encoder.opening (Encoder.Level.ofContainer root withKeys).kind)
        run formatter [.ofContainer root withKeys]) root.questions := by
    by_cases hroot : root.size = 0
    · rw [if_pos (isEmpty_ofContainer.mpr hroot), Container.questions, if_pos hroot]
      exact (gives_write _).asks
    · rw [if_neg (mt isEmpty_ofContainer.mp hroot), ← questionsOwed_ofContainer root withKeys hroot]
      have h := (gives_write (Encoder.opening
        (Encoder.Level.ofContainer root withKeys).kind)).asks.andThen
          (asks_run formatter [.ofContainer root withKeys])
      rwa [Nat.zero_add] at h
  obtain ⟨requests, hrequests, hannounce, hpolls⟩ := hrest
  refine ⟨requests, ?_, hannounce, hpolls⟩
  rw [perform_cons, ← hrequests]
  rfl

end Writing

/-! ### Where a run is cut -/

namespace Session

/-- What has been asked for, in order. -/
def requests (session : Session) : List Request := session.journal.map Prod.fst

/-- What has been written before the signal was asked for the `n`-th time. -/
def writtenBefore (session : Session) (n : Nat) : Bytes := Request.writtenBefore n session.requests

end Session

/-- Whether a text is within a limit, if there is one. -/
def WithinLimit (limit : Option Nat) (text : Bytes) : Prop := ∀ room ∈ limit, text.length ≤ room

/-- Whether a run is not stopped whose sink has a limit, where `full` is left by the run that
nothing hinders: where the signal first says stop, the latter asks no more, or what it has written
before is not within the limit. -/
def Unstopped (full : Session) (limit : Option Nat) (signal : Signal) : Prop :=
  ∀ n, signal.StopsAt 0 n → n ≤ full.polls → ¬ WithinLimit limit (full.writtenBefore n)

/-- **How a run ends** whose sink has a limit and whose signal may say stop, where `full` is left by
the run with neither. -/
structure CutOf (full : Session) (limit : Option Nat) (signal : Signal)
    (run : Session × Option EncodeError) : Prop where
  /-- If the signal first says stop when it is asked for the `n`-th time, and it is asked as often
  in the run with neither, and what is written before is within the limit, then that is what is
  left. -/
  stopped : ∀ n, signal.StopsAt 0 n → n ≤ full.polls → WithinLimit limit (full.writtenBefore n) →
    run.2 = some .aborted ∧ run.1.sink.bytes = full.writtenBefore n
  /-- Otherwise a text that is too long is left as far as there is room. -/
  overfull : Unstopped full limit signal → ∀ room ∈ limit, room < full.sink.bytes.length →
    run.2 = some (.sink .full) ∧ run.1.sink.bytes = full.sink.bytes.take room
  /-- Otherwise the whole text is left. -/
  complete : Unstopped full limit signal → WithinLimit limit full.sink.bytes →
    run.2 = none ∧ run.1.sink.bytes = full.sink.bytes

/-- **What every run keeps to**, whatever its signal and its sink are, where `full` is left by the
run with no limit and no signal to stop. -/
structure Orderly (full : Session) (sink : Sink) (run : Session × Option EncodeError) : Prop where
  /-- There are no mishaps. -/
  possible : ∀ mishap, run.2 ≠ some (.unexpectedState mishap)
  /-- The sink is told the type of the content first, and never again. -/
  announced : ∃ rest, run.1.requests = .announce contentType :: rest ∧
    ∀ contentType, .announce contentType ∉ rest
  told : run.1.sink.announced = sink.announced ++ [contentType]
  /-- Nothing is asked for that the other run does not ask for, in the same order. -/
  ordered : run.1.requests <+: full.requests
  /-- Nothing follows a request that does not go well. -/
  final : ∀ before request after, run.1.journal = before ++ (request, false) :: after → after = []
  /-- If the sink refuses the type of the content, nothing is written, and nothing is asked. -/
  refused : sink.refusesType = true → run.2 = some (.sink .refused) ∧
    run.1.requests = [.announce contentType] ∧ run.1.sink.held = sink.held ∧ run.1.polls = 0

/-- What comes of requests that begin with the announcement, if the sink welcomes the type. -/
theorem exists_told (requests : List Request) (signal : Signal) (sink : Sink)
    (htype : sink.refusesType = false) :
    ∃ told : Session, perform (.announce contentType :: requests) { sink, signal } =
        perform requests told ∧
      told.sink = (sink.announce contentType).1 ∧ told.polls = 0 ∧ told.signal = signal := by
  obtain ⟨told, htold, hleaves⟩ :=
    Writing.announce_of_welcome { sink, signal } htype contentType
  exact ⟨told, Writing.andThen_of_ok htold _, hleaves.sink, hleaves.polls, hleaves.signal⟩

/-- **What requests leave** that nothing hinders. -/
theorem exists_full {requests : List Request}
    (hrequests : ∀ contentType, .announce contentType ∉ requests) :
    ∃ full, perform (.announce contentType :: requests) { sink := {}, signal := .never } =
        (.ok (), full) ∧
      full.sink.bytes = Request.written requests ∧
      full.requests = .announce contentType :: requests ∧
      full.polls = Request.polls requests := by
  obtain ⟨told, htold, hsink, hpolls, hsignal⟩ := exists_told requests .never {} rfl
  obtain ⟨full, hfull, hheld⟩ := perform_unstopped hrequests told fun n hstops => by
    have hnever : Signal.never n = true := hsignal ▸ hstops.2.1
    cases hnever
  have haccepts : told.sink.Accepts (Request.written requests) := by
    rw [hsink]
    refine Sink.accepts_iff.mpr ?_
    rintro room ⟨⟩
  rw [haccepts] at hfull
  rw [Sink.write_of_accepts haccepts, hsink] at hheld
  obtain ⟨later, hlater, hjournal, hasked, -⟩ | ⟨error, later, -, -, -, hlater, -⟩ :=
    journal_perform (.announce contentType :: requests) { sink := {}, signal := .never }
  · obtain rfl : full = later :=
      (Prod.mk.inj ((htold.trans hfull).symm.trans hlater)).2
    refine ⟨full, hlater, ?_, ?_, ?_⟩
    · simp [hheld, Sink.bytes, Sink.announce]
    · simp [Session.requests, hjournal, Function.comp_def]
    · rwa [Request.polls_announce, Nat.zero_add] at hasked
  · rw [htold, hfull] at hlater
    cases hlater

/-- **Requests are cut** by a limit and by a signal. -/
theorem cutOf_perform {requests : List Request}
    (hrequests : ∀ contentType, .announce contentType ∉ requests) {full : Session}
    (htext : full.sink.bytes = Request.written requests)
    (hfull : full.requests = .announce contentType :: requests)
    (hpolls : full.polls = Request.polls requests) (limit : Option Nat) (signal : Signal) :
    CutOf full limit signal ((perform (.announce contentType :: requests)).outcome
      { sink := { limit }, signal }) := by
  obtain ⟨told, htold, hsink, hasked, hsignal⟩ :=
    exists_told requests signal { limit } rfl
  have hbefore (n : Nat) : full.writtenBefore n = Request.writtenBefore n requests := by
    rw [Session.writtenBefore, hfull]
    rfl
  have haccepts (text : Bytes) : told.sink.Accepts text ↔ WithinLimit limit text := by
    rw [hsink]
    exact Sink.accepts_iff
  have hheld {text : Bytes} (h : WithinLimit limit text) :
      (told.sink.write text).1.bytes = text := by
    rw [Sink.write_of_accepts ((haccepts text).mpr h), hsink]
    simp [Sink.bytes, Sink.announce]
  -- A run that is not stopped gives the sink the whole text.
  have hunstopped (h : Unstopped full limit signal) :
      ∃ later, perform requests told = ((told.sink.write full.sink.bytes).2.elim (.ok ())
          (.error <| .sink ·), later) ∧
        later.sink = (told.sink.write full.sink.bytes).1 := by
    rw [htext]
    refine perform_unstopped hrequests told fun n hstops hn => ?_
    rw [hasked, hsignal] at hstops
    rw [hasked, Nat.zero_add, ← hpolls] at hn
    rw [hasked, haccepts, Nat.sub_zero, ← hbefore]
    exact h n hstops hn
  refine ⟨?_, ?_, ?_⟩
  · intro n hstops hn hfits
    rw [hbefore] at hfits ⊢
    have haccepted : told.sink.Accepts (Request.writtenBefore (n - told.polls) requests) := by
      rwa [hasked, haccepts]
    obtain ⟨later, hlater, hkept⟩ := perform_stopped hrequests told
      (by rwa [hsignal, hasked]) (by rw [hasked, ← hpolls]; omega) haccepted
    rw [Writing.outcome, htold, hlater]
    refine ⟨rfl, ?_⟩
    rw [hkept, hasked]
    exact hheld hfits
  · intro h room hroom hlt
    obtain ⟨later, hlater, hkept⟩ := hunstopped h
    have hwrite : told.sink.write full.sink.bytes =
        ({ told.sink with held := (#[] : Array UInt8) ++ full.sink.bytes.take room },
          some .full) := by
      rw [hsink]
      exact Sink.write_of_lt hroom hlt
    rw [hwrite] at hlater hkept
    rw [Writing.outcome, htold, hlater]
    exact ⟨rfl, by simp [hkept, Sink.bytes]⟩
  · intro h hfits
    obtain ⟨later, hlater, hkept⟩ := hunstopped h
    rw [(haccepts _).mpr hfits] at hlater
    rw [Writing.outcome, htold, hlater]
    refine ⟨rfl, ?_⟩
    show later.sink.bytes = full.sink.bytes
    rw [hkept]
    exact hheld hfits

/-- Where all requests go well, none is noted otherwise. -/
theorem ne_of_noted (done : List Request) (before after : List (Request × Bool))
    (request : Request) : done.map (·, true) ≠ before ++ (request, false) :: after := by
  intro h
  have hmem : (request, false) ∈ done.map (·, true) := by
    rw [h]
    exact List.mem_append_right _ List.mem_cons_self
  simp at hmem

/-- Where all requests go well but the last, nothing follows one that does not. -/
theorem eq_nil_of_noted {done : List Request} {last request : Request}
    {before after : List (Request × Bool)}
    (h : done.map (·, true) ++ [(last, false)] = before ++ (request, false) :: after) :
    after = [] := by
  obtain rfl | ⟨earlier, entry, rfl⟩ := List.eq_nil_or_concat after
  · rfl
  · rw [List.concat_eq_append, ← List.cons_append, ← List.append_assoc] at h
    exact absurd (List.append_inj' h rfl).1 (ne_of_noted done before earlier request)

/-- What begins with the announcement holds no other one. -/
theorem exists_rest {requests asked : List Request}
    (hrequests : ∀ contentType, .announce contentType ∉ requests) (hne : asked ≠ [])
    (hasked : asked <+: .announce contentType :: requests) :
    ∃ rest, asked = .announce contentType :: rest ∧
      ∀ contentType, .announce contentType ∉ rest := by
  obtain rfl | ⟨rest, rfl, hrest⟩ := List.prefix_cons_iff.mp hasked
  · exact absurd rfl hne
  · exact ⟨rest, rfl, fun contentType h => hrequests contentType (hrest.subset h)⟩

/-- What comes of requests that begin with the announcement, if the sink refuses the type. -/
theorem perform_refused (requests : List Request) (signal : Signal) (sink : Sink)
    (htype : sink.refusesType = true) :
    ∃ later, perform (.announce contentType :: requests) { sink, signal } =
        (.error (.sink .refused), later) ∧
      later.sink = (sink.announce contentType).1 ∧
      later.requests = [.announce contentType] ∧ later.polls = 0 := by
  obtain ⟨later, hlater, hleaves⟩ :=
    Writing.announce_of_refused { sink, signal } htype contentType
  refine ⟨later, Writing.andThen_of_error hlater _, hleaves.sink, ?_, hleaves.polls⟩
  rw [Session.requests, hleaves.journal]
  rfl

/-- Whether the sink refuses the type or not, it has been told. -/
theorem told_of_perform {requests : List Request}
    (hrequests : ∀ contentType, .announce contentType ∉ requests) {signal : Signal} {sink : Sink}
    {result : Except EncodeError Unit} {later : Session}
    (h : perform (.announce contentType :: requests) { sink, signal } = (result, later)) :
    later.sink.announced = sink.announced ++ [contentType] := by
  cases htype : sink.refusesType with
  | true =>
      obtain ⟨other, hother, hsink, -⟩ := perform_refused requests signal sink htype
      rw [(Prod.mk.inj (h.symm.trans hother)).2, hsink]
      rfl
  | false =>
      obtain ⟨told, htold, hsink, -⟩ := exists_told requests signal sink htype
      rw [announced_perform hrequests (htold.symm.trans h), hsink]
      rfl

/-- **Requests are kept in order**, whatever the sink and the signal answer. -/
theorem orderly_perform {requests : List Request}
    (hrequests : ∀ contentType, .announce contentType ∉ requests) {full : Session}
    (hfull : full.requests = .announce contentType :: requests) (signal : Signal) (sink : Sink) :
    Orderly full sink ((perform (.announce contentType :: requests)).outcome { sink, signal }) := by
  obtain ⟨run, hrun⟩ : ∃ run,
      (perform (.announce contentType :: requests)).outcome { sink, signal } = run := ⟨_, rfl⟩
  rw [hrun]
  have hrefused (htype : sink.refusesType = true) : run.2 = some (.sink .refused) ∧
      run.1.requests = [.announce contentType] ∧ run.1.sink.held = sink.held ∧
      run.1.polls = 0 := by
    obtain ⟨later, hlater, hsink, hrest, hpolls⟩ := perform_refused requests signal sink htype
    obtain rfl : run = (later, some (.sink .refused)) := by rw [← hrun, Writing.outcome, hlater]
    refine ⟨rfl, hrest, ?_, hpolls⟩
    show later.sink.held = sink.held
    rw [hsink]
    rfl
  obtain ⟨later, hlater, hjournal, -, -⟩ |
    ⟨error, later, before, request, after, hlater, hsplit, hjournal, hmishap⟩ :=
    journal_perform (.announce contentType :: requests) { sink, signal }
  · have hall : later.requests = .announce contentType :: requests := by
      simp [Session.requests, hjournal, Function.comp_def]
    obtain rfl : run = (later, none) := by rw [← hrun, Writing.outcome, hlater]
    refine ⟨?_, ⟨requests, hall, hrequests⟩, told_of_perform hrequests hlater, ?_, ?_, hrefused⟩
    · intro mishap h
      cases h
    · exact ⟨[], (List.append_nil _).trans (hall.trans hfull.symm)⟩
    · intro before request after h
      rw [hjournal, List.nil_append] at h
      exact absurd h (ne_of_noted _ before after request)
  · have hall : later.requests = before ++ [request] := by
      simp [Session.requests, hjournal, Function.comp_def]
    have hfirst : later.requests <+: .announce contentType :: requests :=
      ⟨after, by rw [hall, hsplit, List.append_assoc, List.singleton_append]⟩
    have hne : later.requests ≠ [] := by simp [hall]
    obtain rfl : run = (later, some error) := by rw [← hrun, Writing.outcome, hlater]
    refine ⟨?_, exists_rest hrequests hne hfirst, told_of_perform hrequests hlater, ?_, ?_,
      hrefused⟩
    · intro mishap h
      exact hmishap mishap (Option.some.inj h)
    · rw [hfull]
      exact hfirst
    · intro earlier other rest h
      rw [hjournal, List.nil_append] at h
      exact eq_nil_of_noted h

/-- **A limit and a stop signal only cut the text.**  The run that nothing hinders comes to its end
and asks the signal as often as the document says.  Any other run, whatever the limit of its sink
and whenever its signal first says stop, is cut where `CutOf` says; it keeps to the requests of the
run that nothing hinders, up to the first that does not go well, without any mishap; and it leaves
the sink as the writer does that hands over the text of a turn at once. -/
theorem encodeRequests_cut (formatter : Formatter) (root : Container) (withKeys : Bool) :
    ∃ full, encodeRequests formatter .never root withKeys {} = (full, none) ∧
      full.polls = root.questions ∧
      (∀ limit signal,
        CutOf full limit signal (encodeRequests formatter signal root withKeys { limit })) ∧
      ∀ signal sink, Orderly full sink (encodeRequests formatter signal root withKeys sink) ∧
        encodeContainer signal root withKeys sink =
          ((encodeRequests formatter signal root withKeys sink).1.sink,
            (encodeRequests formatter signal root withKeys sink).2) := by
  obtain ⟨requests, hroot, hrequests, hquestions⟩ :=
    Writing.exists_requests_root formatter root withKeys
  obtain ⟨full, hrun, htext, hfull, hpolls⟩ := exists_full hrequests
  refine ⟨full, ?_, hpolls.trans hquestions, ?_, ?_⟩
  · rw [encodeRequests, hroot, Writing.outcome, hrun]
  · intro limit signal
    rw [encodeRequests, hroot]
    exact cutOf_perform hrequests htext hfull hpolls limit signal
  · intro signal sink
    refine ⟨?_, (encodeRequests_eq_encodeContainer formatter signal root withKeys sink).symm⟩
    rw [encodeRequests, hroot]
    exact orderly_perform hrequests hfull signal sink

theorem stopsAt_fromPoll {n m : Nat} (hn : 0 < n) : (Signal.fromPoll n).StopsAt 0 m ↔ m = n := by
  simp only [Signal.StopsAt, Signal.fromPoll, decide_eq_true_eq, decide_eq_false_iff_not]
  constructor
  · rintro ⟨-, hle, hbefore⟩
    exact Nat.le_antisymm (Nat.le_of_not_lt fun hlt => hbefore n hn hlt (Nat.le_refl n)) hle
  · rintro rfl
    exact ⟨hn, Nat.le_refl m, fun k _ hk => Nat.not_le_of_lt hk⟩

/-- The signal is asked three times while an array of one item is written: before the item, before
the end and after it. -/
theorem encodeRequests_cut_null :
    (encodeRequests .whole (.fromPoll 3) (.array [.scalar .null]) true {}).2 = some .aborted ∧
      (encodeRequests .whole (.fromPoll 4) (.array [.scalar .null]) true {}).2 = none := by
  obtain ⟨full, -, hpolls, hcut, -⟩ := encodeRequests_cut .whole (.array [.scalar .null]) true
  have hthree : full.polls = 3 := hpolls.trans (by decide)
  constructor
  · refine ((hcut none (.fromPoll 3)).stopped 3 ?_ (Nat.le_of_eq hthree.symm) ?_).1
    · exact (stopsAt_fromPoll (by decide)).mpr rfl
    · rintro room ⟨⟩
  · refine ((hcut none (.fromPoll 4)).complete ?_ ?_).1
    · intro n hstops hn
      rw [stopsAt_fromPoll (by decide)] at hstops
      omega
    · rintro room ⟨⟩

end DocCodec
