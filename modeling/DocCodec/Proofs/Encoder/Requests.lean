/-
**What comes of a list of requests.**

A list of requests, performed one by one up to the first that does not go well, can only end in
three ways.  If the signal says stop at a question that is among them, and the sink has taken all
that is written before it, the writing is aborted there.  Otherwise the requests are worth one write
of their whole text: the sink takes it, or it keeps what it has room for and fails.

So a limit and a stop signal can only cut a text, and where they cut it depends on the list alone.

Main definitions:

* `DocCodec.perform` — performs requests, up to the first that does not go well;
* `DocCodec.Request.failure?`, `DocCodec.Request.Leaves` — why a request does not go well, and what
  it leaves;
* `DocCodec.Request.written`, `DocCodec.Request.polls`, `DocCodec.Request.writtenBefore` — the whole
  text of some requests, their questions, and the text before a question;
* `DocCodec.Signal.StopsAt` — the question at which a signal first says stop.

Main results:

* `DocCodec.Sink.write_append` — a sink may be given a text in two parts;
* `DocCodec.Request.perform_eq` — **what a request does**;
* `DocCodec.perform_stopped`, `DocCodec.perform_unstopped` — **where a limit and a signal cut**;
* `DocCodec.perform_pieces` — the pieces of a text are worth one write of it;
* `DocCodec.journal_perform` — the journal ends with the first request that does not go well.
-/

import DocCodec.Encoder.Requests

set_option relaxedAutoImplicit false
set_option autoImplicit false

namespace DocCodec

/-! ### A text in parts -/

namespace Sink

theorem write_nil (sink : Sink) : sink.write [] = (sink, none) := by
  obtain ⟨limit, refusesType, announced, held⟩ := sink
  cases limit <;> simp [write]

/-- Whether a sink takes the whole of a text. -/
def Accepts (sink : Sink) (text : Bytes) : Prop := (sink.write text).2 = none

theorem accepts_iff {sink : Sink} {text : Bytes} :
    sink.Accepts text ↔ ∀ limit ∈ sink.limit, text.length ≤ limit - sink.held.size := by
  cases hlimit : sink.limit with
  | none => simp [Accepts, write, hlimit]
  | some limit =>
      by_cases hfits : text.length ≤ limit - sink.held.size <;>
        simp [Accepts, write, hlimit, hfits]

/-- A sink keeps a text that it takes. -/
theorem write_of_accepts {sink : Sink} {text : Bytes} (h : sink.Accepts text) :
    sink.write text = ({ sink with held := sink.held ++ text }, none) := by
  have hroom := accepts_iff.mp h
  cases hlimit : sink.limit with
  | none => simp [write, hlimit]
  | some limit => simp [write, hlimit, hroom limit hlimit]

/-- A sink that does not take a text keeps as much of it as there is room for. -/
theorem write_of_lt {sink : Sink} {text : Bytes} {limit : Nat} (hlimit : sink.limit = some limit)
    (h : limit - sink.held.size < text.length) :
    sink.write text =
      ({ sink with held := sink.held ++ text.take (limit - sink.held.size) }, some .full) := by
  simp [write, hlimit, Nat.not_le_of_lt h]

theorem announced_write (sink : Sink) (text : Bytes) :
    (sink.write text).1.announced = sink.announced := by
  cases hlimit : sink.limit with
  | none => simp [write, hlimit]
  | some limit =>
      by_cases hfits : text.length ≤ limit - sink.held.size <;> simp [write, hlimit, hfits]

/-- **A sink may be given a text in two parts**, if it takes the first. -/
theorem write_append {sink : Sink} {first : Bytes} (h : sink.Accepts first) (second : Bytes) :
    sink.write (first ++ second) = (sink.write first).1.write second := by
  have hroom := accepts_iff.mp h
  cases hlimit : sink.limit with
  | none => simp [write, hlimit, Bytes.append_append]
  | some limit =>
      have hfirst := hroom limit hlimit
      have hrest : limit - (sink.held.size + first.length) =
          limit - sink.held.size - first.length := by omega
      by_cases hsecond : second.length ≤ limit - sink.held.size - first.length
      · have hboth : first.length + second.length ≤ limit - sink.held.size := by omega
        simp [write, hlimit, hfirst, hsecond, hboth, hrest, Bytes.append_append]
      · have hboth : ¬ first.length + second.length ≤ limit - sink.held.size := by omega
        simp [write, hlimit, hfirst, hsecond, hboth, hrest, Bytes.append_append,
          List.take_append, List.take_of_length_le hfirst]

/-- A sink that fails on the first part of a text fails on the whole in the same way. -/
theorem write_append_of_not_accepts {sink : Sink} {first : Bytes} (h : ¬ sink.Accepts first)
    (second : Bytes) : sink.write (first ++ second) = sink.write first := by
  rw [accepts_iff] at h
  cases hlimit : sink.limit with
  | none => exact absurd (by simp [hlimit]) h
  | some limit =>
      have hfirst : ¬ first.length ≤ limit - sink.held.size := by simpa [hlimit] using h
      have hboth : ¬ first.length + second.length ≤ limit - sink.held.size := by omega
      have hrest : limit - sink.held.size - first.length = 0 := by omega
      simp [write, hlimit, hfirst, hboth, List.take_append, hrest]

theorem accepts_append {sink : Sink} {first second : Bytes} :
    sink.Accepts (first ++ second) ↔
      sink.Accepts first ∧ (sink.write first).1.Accepts second := by
  by_cases h : sink.Accepts first
  · unfold Accepts at h ⊢
    rw [write_append h]
    exact (and_iff_right h).symm
  · unfold Accepts at h ⊢
    rw [write_append_of_not_accepts h]
    simp [h]

theorem accepts_nil (sink : Sink) : sink.Accepts [] := by
  rw [Accepts, write_nil]

end Sink

/-! ### Lists of requests -/

namespace Request

/-- Performs a request. -/
def perform : Request → Writing Unit
  | announce contentType => Writing.announce contentType
  | write bytes => Writing.write bytes
  | poll => Writing.poll

/-- The bytes that a request gives the sink. -/
def text : Request → Bytes
  | write bytes => bytes
  | _ => []

/-- The whole text that some requests give the sink. -/
def written (requests : List Request) : Bytes := requests.flatMap text

/-- How often some requests ask the signal. -/
def polls (requests : List Request) : Nat := requests.count poll

/-- The text that some requests give the sink before they ask the signal for the `n`-th time, `n`
from one. -/
def writtenBefore (n : Nat) : List Request → Bytes
  | [] => []
  | poll :: rest => if n ≤ 1 then [] else writtenBefore (n - 1) rest
  | request :: rest => request.text ++ writtenBefore n rest

theorem written_write (bytes : Bytes) (rest : List Request) :
    written (write bytes :: rest) = bytes ++ written rest := rfl

theorem polls_write (bytes : Bytes) (rest : List Request) :
    polls (write bytes :: rest) = polls rest := List.count_cons_of_ne (by simp)

theorem polls_announce (contentType : String) (rest : List Request) :
    polls (announce contentType :: rest) = polls rest := List.count_cons_of_ne (by simp)

theorem polls_poll (rest : List Request) : polls (poll :: rest) = polls rest + 1 :=
  List.count_cons_self

theorem writtenBefore_poll {n : Nat} (h : 1 < n) (rest : List Request) :
    writtenBefore n (poll :: rest) = writtenBefore (n - 1) rest :=
  if_neg (Nat.not_le_of_lt h)

/-- The pieces of a text, one after another. -/
theorem written_pieces (pieces : List Bytes) : written (pieces.map write) = pieces.flatten := by
  rw [written, List.flatMap_map]
  exact congrArg List.flatten (List.map_id pieces)

theorem polls_pieces (pieces : List Bytes) : polls (pieces.map write) = 0 := by
  induction pieces with
  | nil => rfl
  | cons piece rest ih => rw [List.map_cons, polls_write, ih]

end Request

/-- Performs requests, up to the first that does not go well. -/
def perform (requests : List Request) : Writing Unit := requests.forM Request.perform

theorem perform_append (first second : List Request) :
    perform (first ++ second) = (do perform first; perform second) := by
  simp [perform]

theorem perform_nil (session : Session) : perform [] session = (.ok (), session) := rfl

theorem perform_cons (request : Request) (rest : List Request) :
    perform (request :: rest) = (do request.perform; perform rest) := rfl

namespace Writing

/-- What comes of a part of the writer that goes well, followed by another. -/
theorem andThen_of_ok {first : Writing Unit} {session later : Session}
    (h : first session = (.ok (), later)) (second : Writing Unit) :
    (do first; second : Writing Unit) session = second later := by
  simp only [bind, ExceptT.bind, ExceptT.mk, StateT.bind, h, ExceptT.bindCont]

/-- A part of the writer that fails is the last one. -/
theorem andThen_of_error {first : Writing Unit} {session later : Session} {error : EncodeError}
    (h : first session = (.error error, later)) (second : Writing Unit) :
    (do first; second : Writing Unit) session = (.error error, later) := by
  simp only [bind, ExceptT.bind, ExceptT.mk, StateT.bind, h, ExceptT.bindCont]
  rfl

end Writing

/-! ### One request -/

namespace Request

/-- Why a request does not go well, if it does not. -/
def failure? (session : Session) : Request → Option EncodeError
  | announce _ => if session.sink.refusesType then some (.sink .refused) else none
  | write bytes => (session.sink.write bytes).2.map .sink
  | poll => if session.signal (session.polls + 1) then some .aborted else none

/-- What a request makes of a sink. -/
def given (sink : Sink) : Request → Sink
  | announce contentType => (sink.announce contentType).1
  | write bytes => (sink.write bytes).1
  | poll => sink

/-- What a request leaves of a session: it is noted, with whether it has gone well. -/
structure Leaves (request : Request) (session later : Session) : Prop where
  sink : later.sink = request.given session.sink
  signal : later.signal = session.signal
  polls : later.polls = session.polls + Request.polls [request]
  journal : later.journal = session.journal ++ [(request, (request.failure? session).isNone)]

/-- **What a request does.** -/
theorem perform_eq (request : Request) (session : Session) :
    ∃ later, request.perform session =
        ((request.failure? session).elim (.ok ()) .error, later) ∧
      request.Leaves session later := by
  cases request with
  | announce contentType =>
      refine ⟨Session.note { session with sink := (session.sink.announce contentType).1 }
        (.announce contentType) (!session.sink.refusesType), ?_, rfl, rfl, rfl, ?_⟩
      · cases htype : session.sink.refusesType <;>
          simp [perform, Writing.announce, Writing.ofSink, Session.announce, Sink.announce,
            failure?, htype]
      · cases htype : session.sink.refusesType <;> simp [Session.note, failure?, htype]
  | write bytes =>
      rcases hwrite : session.sink.write bytes with ⟨sink, failure⟩
      refine ⟨Session.note { session with sink } (.write bytes) failure.isNone, ?_, ?_, rfl, rfl,
        ?_⟩
      · cases failure <;>
          simp [perform, Writing.write, Writing.ofSink, Session.write, failure?, hwrite]
      · simp [Session.note, given, hwrite]
      · simp [Session.note, failure?, hwrite]
  | poll =>
      refine ⟨Session.note { session with polls := session.polls + 1 } .poll
        (!session.signal (session.polls + 1)), ?_, rfl, rfl, rfl, ?_⟩
      · cases hstop : session.signal (session.polls + 1) <;>
          simp [perform, Writing.poll, Session.poll, failure?, hstop]
      · cases hstop : session.signal (session.polls + 1) <;> simp [Session.note, failure?, hstop]

/-- A request fails for the sink's sake or at the caller's will; that is no mishap. -/
theorem failure?_ne_mishap (request : Request) (session : Session) (mishap : Mishap) :
    request.failure? session ≠ some (.unexpectedState mishap) := by
  cases request with
  | announce contentType => cases htype : session.sink.refusesType <;> simp [failure?, htype]
  | write bytes => simp [failure?]
  | poll => cases hstop : session.signal (session.polls + 1) <;> simp [failure?, hstop]

theorem failure?_write_eq_none {session : Session} {bytes : Bytes} :
    (write bytes).failure? session = none ↔ session.sink.Accepts bytes :=
  Option.map_eq_none_iff

theorem failure?_poll_of_stop {session : Session} (h : session.signal (session.polls + 1) = true) :
    poll.failure? session = some .aborted := if_pos h

theorem failure?_poll_of_go {session : Session} (h : session.signal (session.polls + 1) = false) :
    poll.failure? session = none := if_neg (h ▸ Bool.false_ne_true)

end Request

/-- A request that goes well is followed by the others. -/
theorem perform_cons_of_none {request : Request} {session : Session}
    (h : request.failure? session = none) (rest : List Request) :
    ∃ later, perform (request :: rest) session = perform rest later ∧
      request.Leaves session later := by
  obtain ⟨later, hlater, hleaves⟩ := request.perform_eq session
  rw [h] at hlater
  exact ⟨later, Writing.andThen_of_ok hlater _, hleaves⟩

/-- A request that does not go well is the last one. -/
theorem perform_cons_of_some {request : Request} {session : Session} {error : EncodeError}
    (h : request.failure? session = some error) (rest : List Request) :
    ∃ later, perform (request :: rest) session = (.error error, later) ∧
      request.Leaves session later := by
  obtain ⟨later, hlater, hleaves⟩ := request.perform_eq session
  rw [h] at hlater
  exact ⟨later, Writing.andThen_of_error hlater _, hleaves⟩

/-- Only an announcement tells the sink the type of the content. -/
theorem announced_perform {requests : List Request}
    (hrequests : ∀ contentType, .announce contentType ∉ requests) {session later : Session}
    {result : Except EncodeError Unit} (h : perform requests session = (result, later)) :
    later.sink.announced = session.sink.announced := by
  induction requests generalizing session with
  | nil =>
      rw [perform_nil] at h
      cases h
      rfl
  | cons request rest ih =>
      have hgiven : (request.given session.sink).announced = session.sink.announced := by
        cases request with
        | announce contentType => exact absurd List.mem_cons_self (hrequests contentType)
        | write bytes => exact session.sink.announced_write bytes
        | poll => rfl
      cases hfailure : request.failure? session with
      | none =>
          obtain ⟨next, hnext, hleaves⟩ := perform_cons_of_none hfailure rest
          rw [hnext] at h
          have hrest := ih (fun contentType hmem => hrequests contentType (.tail _ hmem)) h
          rw [hrest, hleaves.sink, hgiven]
      | some error =>
          obtain ⟨other, hother, hleaves⟩ := perform_cons_of_some hfailure rest
          rw [hother] at h
          cases h
          rw [hleaves.sink, hgiven]

/-! ### The journal -/

/-- **What is noted of requests.**  If all go well, all are noted so; if not, the journal ends with
the first that does not, and the error is no mishap. -/
theorem journal_perform (requests : List Request) (session : Session) :
    (∃ later, perform requests session = (.ok (), later) ∧
      later.journal = session.journal ++ requests.map (·, true) ∧
      later.polls = session.polls + Request.polls requests ∧ later.signal = session.signal) ∨
    ∃ error later before request after, perform requests session = (.error error, later) ∧
      requests = before ++ request :: after ∧
      later.journal = session.journal ++ before.map (·, true) ++ [(request, false)] ∧
      ∀ mishap, error ≠ .unexpectedState mishap := by
  induction requests generalizing session with
  | nil => exact .inl ⟨session, rfl, by simp, rfl, rfl⟩
  | cons request rest ih =>
      cases hfailure : request.failure? session with
      | none =>
          obtain ⟨next, hnext, hleaves⟩ := perform_cons_of_none hfailure rest
          have hjournal := hleaves.journal
          rw [hfailure, Option.isNone_none] at hjournal
          rw [hnext]
          obtain ⟨later, hlater, hrest, hpolls, hsignal⟩ |
            ⟨error, later, before, last, after, hlater, hsplit, hrest, hmishap⟩ := ih next
          · refine .inl ⟨later, hlater, by simp [hrest, hjournal], ?_, hsignal.trans hleaves.signal⟩
            rw [hpolls, hleaves.polls, Nat.add_assoc]
            simp only [Request.polls, ← List.count_append, List.singleton_append]
          · refine .inr ⟨error, later, request :: before, last, after, hlater, ?_, ?_, hmishap⟩
            · rw [hsplit, List.cons_append]
            · simp [hrest, hjournal]
      | some error =>
          obtain ⟨later, hlater, hleaves⟩ := perform_cons_of_some hfailure rest
          have hjournal := hleaves.journal
          rw [hfailure, Option.isNone_some] at hjournal
          refine .inr ⟨error, later, [], request, rest, hlater, rfl, by simp [hjournal], ?_⟩
          intro mishap h
          exact request.failure?_ne_mishap session mishap (h ▸ hfailure)

/-! ### Where a limit and a signal cut -/

/-- Whether a signal that has been asked so many times says stop for the first time when it is asked
for the `n`-th time. -/
def Signal.StopsAt (signal : Signal) (asked n : Nat) : Prop :=
  asked < n ∧ signal n = true ∧ ∀ m, asked < m → m < n → signal m = false

theorem Signal.StopsAt.next {signal : Signal} {asked n : Nat} (h : signal.StopsAt asked n)
    (hn : asked + 1 < n) : signal (asked + 1) = false ∧ signal.StopsAt (asked + 1) n := by
  obtain ⟨-, hstop, hbefore⟩ := h
  exact ⟨hbefore _ (Nat.lt_succ_self _) hn, hn, hstop, fun m hm =>
    hbefore m (Nat.lt_of_succ_lt hm)⟩

theorem Signal.StopsAt.of_next {signal : Signal} {asked n : Nat}
    (hnext : signal (asked + 1) = false) (h : signal.StopsAt (asked + 1) n) :
    signal.StopsAt asked n := by
  obtain ⟨hn, hstop, hbefore⟩ := h
  refine ⟨Nat.lt_of_succ_lt hn, hstop, fun m hm hmn => ?_⟩
  obtain hm | rfl := Nat.lt_or_eq_of_le (Nat.succ_le_of_lt hm)
  · exact hbefore m hm hmn
  · exact hnext

theorem Signal.stopsAt_next {signal : Signal} {asked : Nat} (h : signal (asked + 1) = true) :
    signal.StopsAt asked (asked + 1) :=
  ⟨Nat.lt_succ_self _, h, fun _ hm hn => absurd hn (Nat.not_lt_of_le hm)⟩

/-- **A run that is stopped.**  The signal says stop at a question that is asked, and the sink takes
what is written before it. -/
theorem perform_stopped {requests : List Request}
    (hrequests : ∀ contentType, .announce contentType ∉ requests) (session : Session) {n : Nat}
    (hstops : session.signal.StopsAt session.polls n)
    (hn : n ≤ session.polls + Request.polls requests)
    (hsink : session.sink.Accepts (Request.writtenBefore (n - session.polls) requests)) :
    ∃ later, perform requests session = (.error .aborted, later) ∧
      later.sink = (session.sink.write (Request.writtenBefore (n - session.polls) requests)).1 := by
  induction requests generalizing session with
  | nil => exact absurd hstops.1 (Nat.not_lt_of_le hn)
  | cons request rest ih =>
      have hrest : ∀ contentType, .announce contentType ∉ rest :=
        fun contentType h => hrequests contentType (List.mem_cons_of_mem _ h)
      cases request with
      | announce contentType => exact absurd List.mem_cons_self (hrequests contentType)
      | write bytes =>
          obtain ⟨hbytes, hsink⟩ := Sink.accepts_append.mp hsink
          obtain ⟨next, hnext, hleaves⟩ :=
            perform_cons_of_none (Request.failure?_write_eq_none.mpr hbytes) rest
          have hpolls : next.polls = session.polls := hleaves.polls
          rw [Request.polls_write, ← hpolls] at hn
          rw [← hpolls, ← hleaves.signal] at hstops
          rw [← hpolls] at hsink ⊢
          obtain ⟨later, hlater, hheld⟩ := ih hrest next hstops hn (hleaves.sink ▸ hsink)
          refine ⟨later, hnext.trans hlater, ?_⟩
          rw [hheld, hleaves.sink]
          exact congrArg Prod.fst (Sink.write_append hbytes _).symm
      | poll =>
          by_cases hnow : n = session.polls + 1
          · subst hnow
            obtain ⟨later, hlater, hleaves⟩ :=
              perform_cons_of_some (Request.failure?_poll_of_stop hstops.2.1) rest
            refine ⟨later, hlater, ?_⟩
            rw [hleaves.sink, Nat.add_sub_cancel_left, Request.writtenBefore,
              if_pos (Nat.le_refl 1), Sink.write_nil]
            rfl
          · have hlt : session.polls + 1 < n := Nat.lt_of_le_of_ne hstops.1 (Ne.symm hnow)
            obtain ⟨hgo, hstops⟩ := hstops.next hlt
            obtain ⟨next, hnext, hleaves⟩ :=
              perform_cons_of_none (Request.failure?_poll_of_go hgo) rest
            have hpolls : next.polls = session.polls + 1 := hleaves.polls
            have hsame : next.sink = session.sink := hleaves.sink
            rw [Request.polls_poll] at hn
            rw [Request.writtenBefore_poll (by omega), Nat.sub_sub, ← hpolls, ← hsame] at hsink ⊢
            rw [← hpolls, ← hleaves.signal] at hstops
            obtain ⟨later, hlater, hheld⟩ := ih hrest next hstops (by omega) hsink
            exact ⟨later, hnext.trans hlater, hheld⟩

/-- **A run that is not stopped** is worth one write of its whole text: at no question that is asked
does the signal say stop, or the sink fails before. -/
theorem perform_unstopped {requests : List Request}
    (hrequests : ∀ contentType, .announce contentType ∉ requests) (session : Session)
    (hsignal : ∀ n, session.signal.StopsAt session.polls n →
      n ≤ session.polls + Request.polls requests →
        ¬ session.sink.Accepts (Request.writtenBefore (n - session.polls) requests)) :
    ∃ later, perform requests session =
        ((session.sink.write (Request.written requests)).2.elim (.ok ()) (.error <| .sink ·),
          later) ∧
      later.sink = (session.sink.write (Request.written requests)).1 := by
  induction requests generalizing session with
  | nil => exact ⟨session, by simp [Request.written, Sink.write_nil, perform_nil]⟩
  | cons request rest ih =>
      have hrest : ∀ contentType, .announce contentType ∉ rest :=
        fun contentType h => hrequests contentType (List.mem_cons_of_mem _ h)
      cases request with
      | announce contentType => exact absurd List.mem_cons_self (hrequests contentType)
      | write bytes =>
          rw [Request.written_write]
          by_cases hbytes : session.sink.Accepts bytes
          · obtain ⟨next, hnext, hleaves⟩ :=
              perform_cons_of_none (Request.failure?_write_eq_none.mpr hbytes) rest
            have hpolls : next.polls = session.polls := hleaves.polls
            have hsink : next.sink = (session.sink.write bytes).1 := hleaves.sink
            rw [hnext, Sink.write_append hbytes, ← hsink]
            refine ih hrest next fun n hstops hn haccepts => ?_
            rw [hleaves.signal, hpolls] at hstops
            rw [hpolls, ← Request.polls_write bytes] at hn
            rw [hpolls, hsink] at haccepts
            exact hsignal n hstops hn (Sink.accepts_append.mpr ⟨hbytes, haccepts⟩)
          · obtain ⟨failure, hfailure⟩ := Option.ne_none_iff_exists'.mp hbytes
            have herror : (Request.write bytes).failure? session = some (.sink failure) := by
              rw [Request.failure?, hfailure, Option.map_some]
            obtain ⟨later, hlater, hleaves⟩ := perform_cons_of_some herror rest
            rw [Sink.write_append_of_not_accepts hbytes, hfailure]
            exact ⟨later, hlater, hleaves.sink⟩
      | poll =>
          cases hstop : session.signal (session.polls + 1) with
          | true =>
              have hasked : session.polls + 1 ≤
                  session.polls + Request.polls (.poll :: rest) := by
                rw [Request.polls_poll]
                omega
              refine absurd ?_ (hsignal _ (Signal.stopsAt_next hstop) hasked)
              rw [Nat.add_sub_cancel_left]
              exact session.sink.accepts_nil
          | false =>
              obtain ⟨next, hnext, hleaves⟩ :=
                perform_cons_of_none (Request.failure?_poll_of_go hstop) rest
              have hpolls : next.polls = session.polls + 1 := hleaves.polls
              have hsink : next.sink = session.sink := hleaves.sink
              have hwritten : Request.written (.poll :: rest) = Request.written rest := rfl
              rw [hnext, hwritten, ← hsink]
              refine ih hrest next fun n hstops hn haccepts => ?_
              rw [hleaves.signal, hpolls] at hstops
              have hlt : session.polls + 1 < n := hstops.1
              refine hsignal n (.of_next hstop hstops) ?_ ?_
              · rw [Request.polls_poll]
                omega
              · rw [Request.writtenBefore_poll (by omega), Nat.sub_sub, ← hpolls, ← hsink]
                exact haccepts

/-- **The pieces of a text** are worth one write of it. -/
theorem perform_pieces (pieces : List Bytes) (session : Session) :
    ∃ later, perform (pieces.map .write) session =
        ((session.sink.write pieces.flatten).2.elim (.ok ()) (.error <| .sink ·), later) ∧
      later.sink = (session.sink.write pieces.flatten).1 := by
  have hrequests : ∀ contentType, .announce contentType ∉ pieces.map Request.write := by simp
  have h := perform_unstopped hrequests session fun n hn hle => by
    rw [Request.polls_pieces] at hle
    exact absurd hn.1 (Nat.not_lt_of_le hle)
  rwa [Request.written_pieces] at h

end DocCodec
