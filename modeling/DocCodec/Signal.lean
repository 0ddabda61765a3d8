/-
**Stop signals.**

Reading and writing can be stopped from outside.  A stop signal is asked now and then, and its
answer may change from one time to the next, so it is a function of how often it has been asked.

Main definitions:

* `DocCodec.Signal` — a stop signal;
* `DocCodec.Signal.never`, `DocCodec.Signal.fromPoll` — the signals that never say stop, and that
  say so from some time on.
-/

set_option relaxedAutoImplicit false
set_option autoImplicit false

namespace DocCodec

/-- A stop signal: whether the answer is to stop, when it is asked for the `n`-th time, `n` from
one. -/
abbrev Signal := Nat → Bool

namespace Signal

/-- The signal that never says stop. -/
def never : Signal := fun _ => false

/-- The signal that says stop from the `n`-th time on. -/
def fromPoll (n : Nat) : Signal := fun poll => decide (n ≤ poll)

end Signal

end DocCodec
