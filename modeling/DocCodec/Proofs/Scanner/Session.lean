/-
**Sessions with a scanner.**

A scanner may be used on whatever has happened.  Parts of the input are fed to it and it is told that
the input has ended, in any order, as often as one likes and after any error, and each time there may
be another listener, which may refuse any event.

Of a session there is a journal: the events that were raised, refused ones included, each with its
offset, and the bytes that were processed without an error.  The books are kept by what is in the
journal: the open containers are those that were entered and not left, only the innermost one is ever
left, and the count is that of the bytes, which is also the offset of the events of the next byte.

Main definitions:

* `DocCodec.Scanner.Mark`, `DocCodec.Scanner.Journal` — what happens in a session;
* `DocCodec.Scanner.Request`, `DocCodec.Scanner.Session` — what is asked of a scanner, and **a scanner
  with its listener and its journal**;
* `DocCodec.Scanner.Reaction.Always` — what holds however a reaction ends;
* `DocCodec.Scanner.Journal.nesting`, `DocCodec.Scanner.Journal.Timely` — the containers that the
  events of a journal leave open, and whether each has the offset of its byte;
* `DocCodec.Scanner.Keeps` — whether the books are kept.

Main results:

* `DocCodec.Scanner.Session.serve_eq_afterRequests` — keeping a journal changes nothing;
* `DocCodec.Scanner.Session.kept` — **what every byte keeps, every session keeps**;
* `DocCodec.Scanner.Session.books_are_kept` — **the books are kept** whatever is refused;
* `DocCodec.Scanner.Session.toNat_consumed` — a counter of 64 bits would do.
-/

import DocCodec.Proofs.Scanner.Handling

set_option relaxedAutoImplicit false
set_option autoImplicit false

namespace DocCodec.Scanner

variable {σ ε : Type}

/-! ### Journals -/

/-- What happens in a session. -/
inductive Mark
  /-- An event is raised, whether or not it is refused. -/
  | raised (event : Event) (offset : Nat)
  /-- A byte has been processed without an error. -/
  | taken (byte : UInt8)
  deriving DecidableEq, Repr

/-- What happened in a session, in order. -/
abbrev Journal := List Mark

/-- A listener that has every event entered in a journal before it is judged. -/
def journaling (listen : Listener σ ε) : Listener (σ × Journal) ε :=
  fun (state, journal) event offset =>
    (((listen state event offset).1, journal ++ [.raised event offset]),
      (listen state event offset).2)

/-- Scans a part of the input and has every event and every byte entered in the journal. -/
def feedJournaling (listen : Listener σ ε) (s : Scanner) (state : σ × Journal) :
    Bytes → Progress (σ × Journal) ε
  | [] => ⟨s, state, none⟩
  | b :: rest =>
    match (s.step b).run (journaling listen) s.consumed state with
    | ⟨after, (state, journal), none⟩ =>
      feedJournaling listen after.advance (state, journal ++ [.taken b]) rest
    | stopped => stopped

/-- A scan without its journal. -/
def Progress.forget (p : Progress (σ × Journal) ε) : Progress σ ε :=
  ⟨p.scanner, p.listener.1, p.stop⟩

theorem forget_run (listen : Listener σ ε) (offset : Nat) (r : Reaction) (state : σ × Journal) :
    (r.run (journaling listen) offset state).forget = r.run listen offset state.1 := by
  induction r generalizing state with
  | accept after => rfl
  | reject error left => rfl
  | raise event refused next ih =>
      obtain ⟨state, journal⟩ := state
      simp only [Reaction.run, journaling]
      rcases listen state event offset with ⟨heard, _ | reason⟩
      · exact ih _
      · rfl

/-- Keeping a journal changes nothing. -/
theorem forget_feed (listen : Listener σ ε) (s : Scanner) (state : σ × Journal) (x : Bytes) :
    (feedJournaling listen s state x).forget = feed listen s state.1 x := by
  induction x generalizing s state with
  | nil => rfl
  | cons b x ih =>
      have hrun := forget_run listen s.consumed (s.step b) state
      rw [feedJournaling, feed, ← hrun]
      rcases (s.step b).run (journaling listen) s.consumed state with ⟨after, heard, _ | stop⟩
      · exact ih _ _
      · rfl

/-! ### Sessions -/

/-- What is asked of a scanner, each time with a listener of its own. -/
inductive Request (σ ε : Type)
  /-- To scan a part of the input. -/
  | part (listen : Listener σ ε) (bytes : Bytes)
  /-- To take note that the input has ended. -/
  | ending (listen : Listener σ ε)

/-- What comes of a request. -/
def Request.progress (s : Scanner) (state : σ) : Request σ ε → Progress σ ε
  | .part listen bytes => feed listen s state bytes
  | .ending listen => close listen s state

/-- What comes of a request, with a journal. -/
def Request.journaled (s : Scanner) (state : σ × Journal) :
    Request σ ε → Progress (σ × Journal) ε
  | .part listen bytes => feedJournaling listen s state bytes
  | .ending listen => close (journaling listen) s state

theorem Request.forget_journaled (s : Scanner) (state : σ × Journal) (request : Request σ ε) :
    (request.journaled s state).forget = request.progress s state.1 := by
  cases request with
  | part listen bytes => exact forget_feed listen s state bytes
  | ending listen => exact forget_run listen s.consumed s.finish state

/-- The scanner and the state of its listener after requests one by one, whatever comes of each. -/
def afterRequests (s : Scanner) (state : σ) : List (Request σ ε) → Scanner × σ
  | [] => (s, state)
  | request :: requests =>
    let p := request.progress s state
    afterRequests p.scanner p.listener requests

/-- **A scanner with the state of its listener and the journal** of what was done with it. -/
structure Session (σ : Type) where
  scanner : Scanner
  state : σ
  journal : Journal := []

namespace Session

/-- A session with a fresh scanner. -/
def start (bound : Nat) (state : σ) : Session σ where
  scanner := { room := bound }
  state := state

/-- A session after requests one by one, whatever comes of each. -/
def serve (session : Session σ) : List (Request σ ε) → Session σ
  | [] => session
  | request :: requests =>
    let p := request.journaled session.scanner (session.state, session.journal)
    serve ⟨p.scanner, p.listener.1, p.listener.2⟩ requests

/-- A session has the scanner and the listener that there are without a journal. -/
theorem serve_eq_afterRequests (session : Session σ) (requests : List (Request σ ε)) :
    ((session.serve requests).scanner, (session.serve requests).state) =
      afterRequests session.scanner session.state requests := by
  induction requests generalizing session with
  | nil => rfl
  | cons request requests ih =>
      have hforget := request.forget_journaled session.scanner (session.state, session.journal)
      rw [serve, ih, afterRequests, ← hforget]
      rfl

end Session

/-! ### What every session keeps -/

/-- **What holds however a reaction ends**, of the scanner that is left and of the events that were
raised on the way, one that was refused included. -/
def Reaction.Always (claim : Scanner → List Event → Prop) : Reaction → Prop
  | .accept after => claim after []
  | .reject _ left => claim left []
  | .raise event refused next =>
    claim refused [event] ∧ next.Always fun after events => claim after (event :: events)

/-- The marks of events at an offset. -/
def marks (offset : Nat) (events : List Event) : Journal :=
  events.map fun event => .raised event offset

/-- However a reaction ends, its events are in the journal, and what is claimed of them holds. -/
theorem Reaction.Always.of_run {claim : Scanner → List Event → Prop} {r : Reaction}
    (h : r.Always claim) (listen : Listener σ ε) (offset : Nat) (state : σ) (journal : Journal) :
    ∃ events, (r.run (journaling listen) offset (state, journal)).listener.2 =
        journal ++ marks offset events ∧
      claim (r.run (journaling listen) offset (state, journal)).scanner events := by
  induction r generalizing claim state journal with
  | accept after => exact ⟨[], (List.append_nil journal).symm, h⟩
  | reject error left => exact ⟨[], (List.append_nil journal).symm, h⟩
  | raise event refused next ih =>
      obtain ⟨hrefused, hnext⟩ := h
      simp only [Reaction.run, journaling]
      rcases listen state event offset with ⟨heard, _ | reason⟩
      · obtain ⟨events, hjournal, hclaim⟩ := ih hnext heard (journal ++ [.raised event offset])
        exact ⟨event :: events, by rw [hjournal, List.append_assoc]; rfl, hclaim⟩
      · exact ⟨[event], rfl, hrefused⟩

section

variable {P : Scanner → Journal → Prop}
  (hbyte : ∀ s journal b r, P s journal → Handles s b r →
    r.Always fun after events => P after (journal ++ marks s.consumed events))
  (hadvance : ∀ s journal b, P s journal → P s.advance (journal ++ [.taken b]))

include hbyte

theorem kept_by_run {s : Scanner} {journal : Journal} (h : P s journal) {b : UInt8} {r : Reaction}
    (hr : Handles s b r) (listen : Listener σ ε) (state : σ) :
    P (r.run (journaling listen) s.consumed (state, journal)).scanner
      (r.run (journaling listen) s.consumed (state, journal)).listener.2 := by
  obtain ⟨events, hjournal, hclaim⟩ :=
    (hbyte s journal b r h hr).of_run listen s.consumed state journal
  rw [hjournal]
  exact hclaim

include hadvance

theorem kept_by_feedJournaling (listen : Listener σ ε) {s : Scanner} {state : σ × Journal}
    (h : P s state.2) (x : Bytes) :
    P (feedJournaling listen s state x).scanner (feedJournaling listen s state x).listener.2 := by
  induction x generalizing s state with
  | nil => exact h
  | cons b x ih =>
      obtain ⟨state, journal⟩ := state
      have hrun := kept_by_run hbyte h (handles_step s b) listen state
      rw [feedJournaling]
      rcases hnext : (s.step b).run (journaling listen) s.consumed (state, journal) with
        ⟨after, heard, _ | stop⟩
      · rw [hnext] at hrun
        exact ih (hadvance _ _ b hrun)
      · rw [hnext] at hrun
        exact hrun

/-- **What every byte keeps, every session keeps**, with the journal so far. -/
theorem Session.kept {session : Session σ} (h : P session.scanner session.journal)
    (requests : List (Request σ ε)) :
    P (session.serve requests).scanner (session.serve requests).journal := by
  induction requests generalizing session with
  | nil => exact h
  | cons request requests ih =>
      refine ih ?_
      cases request with
      | part listen bytes => exact kept_by_feedJournaling hbyte hadvance listen h bytes
      | ending listen => exact kept_by_run hbyte h (handles_finish session.scanner) listen _

end

/-! ### The books -/

/-- The open containers after an event, innermost first: a container may only be left if it is the
innermost one. -/
def nest (stack : List Bracket) : Event → Option (List Bracket)
  | .enter kind => some (kind :: stack)
  | .leave kind => if kind ∈ stack.head? then some stack.tail else none
  | .key _ | .scalar _ _ => some stack

namespace Mark

/-- The open containers after what happens. -/
def nest (stack : List Bracket) : Mark → Option (List Bracket)
  | .raised event _ => Scanner.nest stack event
  | .taken _ => some stack

/-- Whether a container is entered. -/
def isEnter : Mark → Bool
  | .raised (.enter _) _ => true
  | _ => false

/-- Whether a container is left. -/
def isLeave : Mark → Bool
  | .raised (.leave _) _ => true
  | _ => false

/-- Whether a byte has been processed. -/
def isTaken : Mark → Bool
  | .raised _ _ => false
  | .taken _ => true

end Mark

namespace Journal

/-- **The containers that the events of a journal leave open**, innermost first, or nothing if one is
left that is not the innermost one. -/
def nesting (journal : Journal) : Option (List Bracket) := journal.foldlM Mark.nest []

/-- How many bytes were processed. -/
def taken (journal : Journal) : Nat := journal.countP Mark.isTaken

/-- **Whether each event has the offset of its byte**: as many bytes as were processed before it. -/
def Timely (journal : Journal) : Prop :=
  ∀ before event offset after,
    journal = before ++ .raised event offset :: after → offset = taken before

theorem nesting_append (first second : Journal) :
    nesting (first ++ second) = (nesting first).bind fun stack => second.foldlM Mark.nest stack :=
  List.foldlM_append

theorem taken_append (first second : Journal) :
    taken (first ++ second) = taken first + taken second := List.countP_append

/-- Containers that were entered are open until they are left. -/
theorem count_of_nesting {journal : Journal} {outer stack : List Bracket}
    (h : journal.foldlM Mark.nest outer = some stack) :
    journal.countP Mark.isEnter + outer.length =
      journal.countP Mark.isLeave + stack.length := by
  induction journal generalizing outer with
  | nil =>
      cases h
      rfl
  | cons mark journal ih =>
      obtain ⟨inner, hinner, hrest⟩ := Option.bind_eq_some_iff.1 h
      have hcount := ih hrest
      rw [List.countP_cons, List.countP_cons]
      match mark, hinner with
      | .raised (.enter kind) offset, hinner =>
          cases hinner
          rw [List.length_cons] at hcount
          simp only [Mark.isEnter, Mark.isLeave, if_true, Bool.false_eq_true, if_false]
          omega
      | .raised (.leave kind) offset, hinner =>
          simp only [Mark.nest, nest, Option.ite_none_right_eq_some, Option.some.injEq] at hinner
          obtain ⟨hkind, rfl⟩ := hinner
          obtain ⟨inner, rfl⟩ := List.head?_eq_some_iff.1 hkind
          rw [List.tail_cons] at hcount
          simp only [Mark.isEnter, Mark.isLeave, if_true, Bool.false_eq_true, if_false,
            List.length_cons]
          omega
      | .raised (.key raw) offset, rfl => exact hcount
      | .raised (.scalar token raw) offset, rfl => exact hcount
      | .taken byte, rfl => exact hcount

theorem timely_nil : Timely [] := by
  intro before event offset after h
  exact absurd h.symm (List.append_ne_nil_of_right_ne_nil before nofun)

/-- What is entered at the end of a journal is timely if it has the offset of the next byte. -/
theorem Timely.snoc {journal : Journal} (h : journal.Timely) {mark : Mark}
    (hmark : ∀ event offset, mark = .raised event offset → offset = journal.taken) :
    Timely (journal ++ [mark]) := by
  intro before event offset after heq
  rcases List.eq_nil_or_concat after with rfl | ⟨front, last, rfl⟩
  · obtain ⟨rfl, hlast⟩ := List.append_inj' heq rfl
    exact hmark event offset (List.singleton_inj.1 hlast)
  · have heq' : journal ++ [mark] = (before ++ .raised event offset :: front) ++ [last] := by
      rw [heq, List.concat_eq_append]
      simp
    exact h before event offset front (List.append_inj' heq' rfl).1

end Journal

/-- **Whether the books are kept**: a scanner with the open containers that a journal leaves open and
no more of them than are allowed, which has counted the bytes of the journal. -/
structure Keeps (bound : Nat) (s : Scanner) (journal : Journal) : Prop where
  nesting_eq : journal.nesting = some s.stack
  depth_add_room : s.depth + s.room = bound
  consumed_eq : s.consumed = journal.taken
  timely : journal.Timely

namespace Keeps

variable {bound : Nat} {s t : Scanner} {journal : Journal}

theorem of_beside (h : Keeps bound s journal) (ht : t.Beside s) : Keeps bound t journal where
  nesting_eq := by rw [ht.stack_eq, h.nesting_eq]
  depth_add_room := by rw [depth, ht.stack_eq, ht.room_eq]; exact h.depth_add_room
  consumed_eq := by rw [ht.consumed_eq, h.consumed_eq]
  timely := h.timely

/-- An event with the containers that it leaves open. -/
theorem raised (h : Keeps bound s journal) {event : Event} (hevent : nest s.stack event = some t.stack)
    (hroom : t.depth + t.room = s.depth + s.room) (hconsumed : t.consumed = s.consumed) :
    Keeps bound t (journal ++ [.raised event s.consumed]) where
  nesting_eq := by
    rw [Journal.nesting_append, h.nesting_eq, Option.bind_some, List.foldlM_cons]
    change (nest s.stack event).bind _ = _
    rw [hevent]
    rfl
  depth_add_room := hroom.trans h.depth_add_room
  consumed_eq := by
    rw [hconsumed, h.consumed_eq, Journal.taken_append]
    rfl
  timely := by
    refine h.timely.snoc ?_
    rintro found offset ⟨⟩
    exact h.consumed_eq

/-- A byte that has been processed. -/
theorem advance (h : Keeps bound s journal) (b : UInt8) :
    Keeps bound s.advance (journal ++ [.taken b]) where
  nesting_eq := by
    rw [Journal.nesting_append, h.nesting_eq]
    rfl
  depth_add_room := h.depth_add_room
  consumed_eq := by
    rw [consumed_advance, h.consumed_eq, Journal.taken_append]
    rfl
  timely := h.timely.snoc nofun

theorem silent (h : Keeps bound s journal) (ht : t.Beside s) :
    Keeps bound t (journal ++ marks s.consumed []) := by
  rw [marks, List.map_nil, List.append_nil]
  exact h.of_beside ht

/-- **Every byte keeps the books**, however it ends. -/
theorem handled (h : Keeps bound s journal) {b : UInt8} {r : Reaction} (hr : Handles s b r) :
    r.Always fun after events => Keeps bound after (journal ++ marks s.consumed events) := by
  induction hr generalizing journal with
  | reject error comma => exact h.silent ⟨rfl, rfl, rfl⟩
  | pass hs hbeside hafter => exact h.silent hbeside
  | quote hs hb role comma => exact h.silent ⟨rfl, rfl, rfl⟩
  | text hs hb => exact h.silent ⟨rfl, rfl, rfl⟩
  | @literal role hs event hevent after hbeside hafter =>
      have hnest : nest s.stack event = some s.stack := by rcases hevent with rfl | rfl <;> rfl
      have hraised := h.raised hnest rfl rfl
      exact ⟨hraised, hraised.of_beside hbeside⟩
  | @scalar hs token raw hevent next hnext ih =>
      have hraised : Keeps bound s (journal ++ [.raised (.scalar token raw) s.consumed]) :=
        h.raised rfl rfl rfl
      have hrest := ih hraised
      simp only [List.append_assoc] at hrest
      exact ⟨hraised, hrest⟩
  | @enter hs kind room hroom comma =>
      have hraised : Keeps bound ((s.withComma comma).opened kind room)
          (journal ++ [.raised (.enter kind) s.consumed]) :=
        h.raised rfl (by rw [hroom]; exact Nat.succ_add s.depth room) rfl
      exact ⟨hraised, hraised.of_beside ⟨rfl, rfl, rfl⟩⟩
  | @leave hs kind hkind =>
      obtain ⟨outer, hstack⟩ := List.head?_eq_some_iff.1 hkind
      have hdepth : s.closed.depth + s.closed.room = s.depth + s.room := by
        rw [depth, depth, closed, hstack]
        simp only [List.tail_cons, List.length_cons]
        omega
      have hraised : Keeps bound s.closed (journal ++ [.raised (.leave kind) s.consumed]) :=
        h.raised (if_pos hkind) hdepth rfl
      exact ⟨hraised, hraised.of_beside ⟨rfl, rfl, rfl⟩⟩

end Keeps

/-- Every session keeps the books. -/
theorem Session.keeps (bound : Nat) (state : σ) (requests : List (Request σ ε)) :
    Keeps bound ((Session.start bound state).serve requests).scanner
      ((Session.start bound state).serve requests).journal := by
  have hstart : Keeps bound (Session.start bound state).scanner (Session.start bound state).journal :=
    ⟨rfl, Nat.zero_add bound, rfl, Journal.timely_nil⟩
  exact Session.kept (fun _ _ _ _ h hr => h.handled hr) (fun _ _ b h => h.advance b) hstart requests

/-- **The books are kept** through every session, whatever is refused and whatever is asked for after
errors.  The containers that were entered and not left are the open ones, and each that was left was
the innermost one; so there are as many as were entered less those that were left, never more than
are allowed.  The count is that of the bytes that were processed, and each event has the offset that
the count had. -/
theorem Session.books_are_kept (bound : Nat) (state : σ) (requests : List (Request σ ε)) :
    let session := (Session.start bound state).serve requests
    (session.scanner, session.state) = afterRequests { room := bound } state requests ∧
    session.journal.nesting = some session.scanner.stack ∧
    session.journal.countP Mark.isEnter =
      session.journal.countP Mark.isLeave + session.scanner.depth ∧
    session.scanner.depth ≤ bound ∧
    session.scanner.consumed = session.journal.taken ∧
    session.journal.Timely := by
  intro session
  have hkeeps : Keeps bound session.scanner session.journal := Session.keeps bound state requests
  have hdepth := hkeeps.depth_add_room
  exact ⟨Session.serve_eq_afterRequests _ requests, hkeeps.nesting_eq,
    Journal.count_of_nesting hkeeps.nesting_eq, by omega, hkeeps.consumed_eq, hkeeps.timely⟩

/-- A bracket that is refused has opened its container, though the root is still expected. -/
example :
    let refusing : Listener Unit Unit := fun _ _ _ => ((), some ())
    ((Session.start 8 ()).serve [.part refusing [Ascii.openSquare]]).scanner =
      { room := 7, stack := [.square] } := rfl

/-! ### A counter of 64 bits -/

/-- The bytes that are fed with a request. -/
def Request.bytes : Request σ ε → Bytes
  | .part _ bytes => bytes
  | .ending _ => []

/-- Events are no bytes. -/
theorem taken_run (listen : Listener σ ε) (offset : Nat) (r : Reaction) (state : σ × Journal) :
    Journal.taken (r.run (journaling listen) offset state).listener.2 = Journal.taken state.2 := by
  induction r generalizing state with
  | accept after => rfl
  | reject error left => rfl
  | raise event refused next ih =>
      obtain ⟨state, journal⟩ := state
      have hevent : Journal.taken (journal ++ [.raised event offset]) = Journal.taken journal :=
        Journal.taken_append journal [.raised event offset]
      simp only [Reaction.run, journaling]
      rcases listen state event offset with ⟨heard, _ | reason⟩
      · rw [ih, hevent]
      · exact hevent

/-- A byte is processed once at most. -/
theorem taken_feedJournaling_le (listen : Listener σ ε) (s : Scanner) (state : σ × Journal)
    (x : Bytes) :
    Journal.taken (feedJournaling listen s state x).listener.2 ≤
      Journal.taken state.2 + x.length := by
  induction x generalizing s state with
  | nil => exact Nat.le_refl _
  | cons b x ih =>
      have hrun := taken_run listen s.consumed (s.step b) state
      rw [feedJournaling, List.length_cons]
      rcases hnext : (s.step b).run (journaling listen) s.consumed state with
        ⟨after, heard, _ | stop⟩
      · have hrest := ih after.advance (heard.1, heard.2 ++ [.taken b])
        have hbyte : Journal.taken (heard.2 ++ [.taken b]) = Journal.taken heard.2 + 1 :=
          Journal.taken_append heard.2 [.taken b]
        rw [hnext] at hrun
        rw [hbyte, hrun] at hrest
        exact Nat.le_trans hrest (by omega)
      · rw [hnext] at hrun
        exact Nat.le_trans (Nat.le_of_eq hrun) (by omega)

/-- **No more bytes are counted than are fed.** -/
theorem Session.taken_serve_le (session : Session σ) (requests : List (Request σ ε)) :
    (session.serve requests).journal.taken ≤
      session.journal.taken + (requests.flatMap Request.bytes).length := by
  induction requests generalizing session with
  | nil => exact Nat.le_refl _
  | cons request requests ih =>
      have hrequest : Journal.taken (request.journaled session.scanner
          (session.state, session.journal)).listener.2 ≤
            session.journal.taken + request.bytes.length := by
        cases request with
        | part listen bytes => exact taken_feedJournaling_le listen session.scanner _ bytes
        | ending listen =>
            exact Nat.le_of_eq (taken_run listen session.scanner.consumed session.scanner.finish _)
      rw [List.flatMap_cons, List.length_append]
      refine Nat.le_trans (ih _) ?_
      simp only
      omega

/-- **A counter of 64 bits would do**: it holds the count in every session in which fewer bytes are
fed than it has values. -/
theorem Session.toNat_consumed (bound : Nat) (state : σ) {requests : List (Request σ ε)}
    (h : (requests.flatMap Request.bytes).length < UInt64.size) :
    (UInt64.ofNat ((Session.start bound state).serve requests).scanner.consumed).toNat =
      ((Session.start bound state).serve requests).scanner.consumed := by
  have hconsumed := (Session.keeps bound state requests).consumed_eq
  have hfed := Session.taken_serve_le (Session.start bound state) requests
  have hstart : (Session.start bound state).journal.taken = 0 := rfl
  refine UInt64.toNat_ofNat_of_lt' ?_
  rw [hconsumed]
  omega

end DocCodec.Scanner
