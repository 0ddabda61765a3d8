/-
**Scanning with a listener.**

A listener takes part in a scan: it has a state of its own, hears each event together with the
offset of the byte that completed it, and may refuse an event, which stops the scan there.
Scanning a text is the reactions to its bytes one after another, up to the first byte that is
rejected or whose event is refused.  Since everything pending is in the scanner, a text may be fed
in parts.

Main definitions:

* `DocCodec.Scanner.Listener` — who hears the events;
* `DocCodec.Scanner.Stop` — why a scan stops early;
* `DocCodec.Scanner.feed` — **scans a part of the input**;
* `DocCodec.Scanner.close` — tells the scanner that the input has ended.

Main results:

* `DocCodec.Scanner.feed_append` — a text may be fed in parts.
-/

import DocCodec.Scanner.Step

set_option relaxedAutoImplicit false
set_option autoImplicit false

namespace DocCodec.Scanner

/-- Who hears the events: from its state, an event and the offset of the byte that completed it, the
next state and, if the event is refused, the reason. -/
abbrev Listener (σ ε : Type) := σ → Event → Nat → σ × Option ε

/-- Why a scan stops early. -/
inductive Stop (ε : Type)
  /-- A byte was rejected. -/
  | fault (error : SyntaxError)
  /-- An event was refused. -/
  | refused (reason : ε)
  deriving DecidableEq, Repr

/-- How far a scan has come. -/
structure Progress (σ ε : Type) where
  scanner : Scanner
  /-- The state of the listener. -/
  listener : σ
  /-- Why the scan stopped, or nothing if it can go on. -/
  stop : Option (Stop ε)
  deriving Repr

variable {σ ε : Type}

/-- Carries out a reaction to the byte at the given offset. -/
def Reaction.run (listen : Listener σ ε) (offset : Nat) : Reaction → σ → Progress σ ε
  | .accept after, state => ⟨after, state, none⟩
  | .reject error left, state => ⟨left, state, some (.fault error)⟩
  | .raise event refused next, state =>
    match listen state event offset with
    | (state, none) => next.run listen offset state
    | (state, some reason) => ⟨refused, state, some (.refused reason)⟩

/-- Counts one byte more as accepted.  The count has no bound: a counter of 64 bits that wraps around
at its end would hold the same until as many bytes have been fed as it has values. -/
def advance (s : Scanner) : Scanner := { s with consumed := s.consumed + 1 }

/-- **Scans a part of the input.** -/
def feed (listen : Listener σ ε) (s : Scanner) (state : σ) : Bytes → Progress σ ε
  | [] => ⟨s, state, none⟩
  | b :: rest =>
    let offset := s.consumed
    match (s.step b).run listen offset state with
    | ⟨after, state, none⟩ => feed listen after.advance state rest
    | stopped => stopped

/-- A text may be fed in two parts, as long as the first does not stop the scan. -/
theorem feed_append (listen : Listener σ ε) (s : Scanner) (state : σ) (first second : Bytes) :
    feed listen s state (first ++ second) =
      match feed listen s state first with
      | ⟨after, state, none⟩ => feed listen after state second
      | stopped => stopped := by
  induction first generalizing s state with
  | nil => rfl
  | cons b first ih =>
    simp only [List.cons_append, feed]
    split
    · exact ih _ _
    · next h =>
      split
      · next after state' h' => exact absurd h' (h after state')
      · rfl

/-- Tells the scanner that the input has ended. -/
def close (listen : Listener σ ε) (s : Scanner) (state : σ) : Progress σ ε :=
  let offset := s.consumed
  s.finish.run listen offset state

end DocCodec.Scanner
