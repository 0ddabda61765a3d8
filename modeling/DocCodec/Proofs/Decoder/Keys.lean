/-
**The keys of valid texts.**

A key that is not UTF-8 is found out when its literal is complete.  The literal is then the text
that the scanner has collected, from one quotation mark up to the next, and these bytes stand in
the text as they are.  So in a valid text no key is refused for what it is read as, wherever the
text goes wrong in other ways.

Main results:

* `DocCodec.Scanner.Reaction.exists_key_of_refused` — only a key is refused for not being UTF-8;
* `DocCodec.decode_ne_invalidUtf8` — **no key of a valid text is**.
-/

import DocCodec.Proofs.Decoder.Lockstep
import DocCodec.Proofs.Literal.Complete
import DocCodec.Proofs.Scanner.Literal

set_option relaxedAutoImplicit false
set_option autoImplicit false

namespace DocCodec

namespace Scanner

/-! ### Keys that are refused -/

theorem ReactsPast.key_not_mem_events {s : Scanner} {b : UInt8} {r : Reaction}
    (h : ReactsPast s b r) (raw : Bytes) : .key raw ∉ r.events := by
  intro hmem
  cases h with
  | space hb => cases hmem
  | comma hb hkind => cases hmem
  | close hb hkind =>
      cases hmem with
      | tail _ hmem => cases hmem
  | reject fault hfault comma => cases hmem

/-- A key is raised by the quotation mark that completes it. -/
theorem Reacts.eq_of_key_mem_events {s : Scanner} {b : UInt8} {r : Reaction} (h : Reacts s b r)
    {raw : Bytes} (hmem : .key raw ∈ r.events) :
    s.phase = .text .key .plain ∧ b = Ascii.quote ∧ raw = s.text.toList := by
  cases h with
  | key hphase hb =>
      cases hmem with
      | head => exact ⟨hphase, hb, rfl⟩
      | tail _ hmem => cases hmem
  | number hphase hp hnext =>
      cases hmem with
      | tail _ hmem => exact absurd hmem (hnext.key_not_mem_events raw)
  | past hphase hpast => exact absurd hmem (hpast.key_not_mem_events raw)
  | enter hvalue hb hroom =>
      cases hmem with
      | tail _ hmem => cases hmem
  | leave hphase hpending hb hkind =>
      cases hmem with
      | tail _ hmem => cases hmem
  | string hphase hb =>
      cases hmem with
      | tail _ hmem => cases hmem
  | word hphase =>
      cases hmem with
      | tail _ hmem => cases hmem
  | space | beginString | beginKey | text | colon | beginWord | letter | beginNumber | digit
  | trailingComma | reject => cases hmem

/-- At the end of the text no key is raised. -/
theorem key_not_mem_events_finish (s : Scanner) (raw : Bytes) : .key raw ∉ s.finish.events := by
  intro hmem
  cases (apart_finish s).1 (.key raw) hmem

/-- What a key is read as that is refused for not being UTF-8. -/
theorem exists_content_of_refused {a after : Assembly} {raw : Bytes} {defect : Utf8.Defect}
    (h : a.handle (.key raw) = (after, some (.invalidUtf8 defect))) :
    ∃ content, Literal.decode? raw = some content ∧ Utf8.decode content = .error defect := by
  unfold Assembly.handle Assembly.announce at h
  simp only at h
  split at h
  · cases h
  split at h
  · cases h
  split at h
  · next error hkey =>
      cases h
      unfold Assembly.key at hkey
      split at hkey
      · cases hkey
      · next content hcontent =>
          split at hkey
          · cases hkey
          · next found hdecode =>
              cases hkey
              exact ⟨content, hcontent, hdecode⟩
  · cases h

/-- **Only a key is refused for not being UTF-8**, and it is one that the reaction raises. -/
theorem Reaction.exists_key_of_refused {claim : Scanner → Assembly → Prop} {r : Reaction}
    {a : Assembly} (h : r.Ensures claim a) {offset : Nat} {left : Scanner} {after : Assembly}
    {defect : Utf8.Defect}
    (hrun : r.run Decoder.listen offset a =
      ⟨left, after, some (.refused (.invalidUtf8 defect))⟩) :
    ∃ raw content, .key raw ∈ r.events ∧ Literal.decode? raw = some content ∧
      Utf8.decode content = .error defect := by
  induction r generalizing a with
  | accept found => cases hrun
  | reject error found => cases hrun
  | raise event refused next ih =>
      obtain ⟨hsuits, hnext⟩ := h
      rw [run, Decoder.listen] at hrun
      rcases hhandle : a.handle event with ⟨heard, _ | reason⟩
      · rw [hhandle] at hrun
        obtain ⟨raw, content, hmem, hread⟩ := ih (hnext heard hhandle) hrun
        exact ⟨raw, content, List.mem_cons_of_mem _ hmem, hread⟩
      · rw [hhandle] at hrun
        cases hrun
        cases hsuits _ (by rw [hhandle]) with
        | keyUtf8 raw =>
            obtain ⟨content, hread⟩ := exists_content_of_refused hhandle
            exact ⟨raw, content, List.mem_cons_self, hread⟩

end Scanner

/-! ### Valid texts -/

namespace Decoder

/-- An error that says that something is not UTF-8 is a refusal. -/
theorem eq_refused_of_errorOf {stop : Scanner.Stop DecodeError} {defect : Utf8.Defect}
    (h : errorOf stop = .invalidUtf8 defect) : stop = .refused (.invalidUtf8 defect) := by
  cases stop with
  | fault error =>
      change DecodeError.ofSyntax error = _ at h
      unfold DecodeError.ofSyntax at h
      split at h <;> cases h
  | refused reason => exact congrArg Scanner.Stop.refused h

/-- A valid text is taken in without one. -/
theorem write_ne_invalidUtf8 {x : Bytes} (hx : Utf8.Valid x) (defect : Utf8.Defect) :
    (write {} false x).2 ≠ some (.invalidUtf8 defect) := by
  intro herror
  simp only [write, Bool.false_eq_true, if_false] at herror
  rcases hfeed : Scanner.feed listen {} {} x with ⟨left, a, _ | stop⟩
  · rw [hfeed] at herror
    cases herror
  rw [hfeed] at herror
  obtain rfl := eq_refused_of_errorOf (Option.some_inj.1 herror)
  obtain ⟨before, b, rest, s, heard, rfl, hbefore, hrun⟩ := Scanner.exists_byte_of_stop listen hfeed
  have hwrite : write {} false before = (⟨s, heard, none⟩, none) := by
    simp only [write, Bool.false_eq_true, if_false, hbefore]
  have hspec := (write_spec (d := {}) rfl (Scanner.coherent_start nestingLimit)
    Assembly.lockstep_start false before).2
  rw [hwrite] at hspec
  obtain ⟨hcoherent, hlockstep⟩ := hspec
  have hreacts := hcoherent.reacts b
  -- The byte completes a key, which is what stands between two quotation marks.
  obtain ⟨raw, content, hmem, hread, hdecode⟩ :=
    Scanner.Reaction.exists_key_of_refused (hreacts.ensures hcoherent hlockstep) hrun
  obtain ⟨hphase, rfl, rfl⟩ := hreacts.eq_of_key_mem_events hmem
  obtain ⟨outer, literal, hliteral, rfl⟩ := Scanner.quoting_of_feed listen hbefore _ _ hphase
  rw [hliteral, List.append_assoc] at hx
  have hbehind := (hx.of_append_cons (by decide)).2
  have hvalid := (hbehind.of_append_cons (by decide)).1
  rw [hliteral] at hread
  obtain ⟨text, htext⟩ := (Utf8.valid_iff_decode content).1 (Literal.valid_of_decode? hvalid hread)
  rw [htext] at hdecode
  cases hdecode

/-- Nor does it end with one. -/
theorem finish_ne_invalidUtf8 {d : Decoder} (hfailure : d.failure = none)
    (hlockstep : Assembly.Lockstep d.scanner d.assembly) (defect : Utf8.Defect) :
    d.finish false ≠ .error (.invalidUtf8 defect) := by
  intro herror
  simp only [finish, hfailure, Bool.false_eq_true, if_false] at herror
  rcases hclose : Scanner.close listen d.scanner d.assembly with ⟨left, a, _ | stop⟩
  · rw [hclose] at herror
    simp only at herror
    split at herror
    · cases herror
    · split at herror <;> cases herror
  · rw [hclose] at herror
    obtain rfl := eq_refused_of_errorOf (Except.error.inj herror)
    obtain ⟨raw, content, hmem, -⟩ :=
      Scanner.Reaction.exists_key_of_refused (ensures_finish hlockstep) hclose
    exact Scanner.key_not_mem_events_finish d.scanner raw hmem

end Decoder

/-- **No key of a valid text is refused for not being UTF-8.** -/
theorem decode_ne_invalidUtf8 {x : Bytes} (hx : Utf8.Valid x) (defect : Utf8.Defect) :
    decode x ≠ .error (.invalidUtf8 defect) := by
  intro herror
  rw [decode_eq_decoded, ← Decoder.finish_write rfl] at herror
  have hspec := (Decoder.write_spec (d := {}) rfl (Scanner.coherent_start nestingLimit)
    Assembly.lockstep_start false x).2
  have hne := Decoder.write_ne_invalidUtf8 hx defect
  rcases hwrite : Decoder.write {} false x with ⟨after, _ | error⟩
  · rw [hwrite] at herror hspec
    exact Decoder.finish_ne_invalidUtf8 (Decoder.failure_of_write hwrite) hspec.2 defect herror
  · rw [hwrite] at herror hne
    rw [Decoder.finish_of_failure (Decoder.failure_of_write hwrite)] at herror
    exact hne (congrArg some (Except.error.inj herror))

end DocCodec
