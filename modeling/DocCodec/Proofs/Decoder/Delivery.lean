/-
**How a text is delivered makes no difference.**

Everything that is pending between two parts of a text is in the decoder, so writing a text in
parts is writing it at once, wherever it is cut: within an escape, a number or a word, or between a
comma and its bracket.  An error is final, so that parts written after it change nothing.

A source delivers some bytes and then comes to its end in one of three ways: its stream ends, it
fails, or it reports more bytes than there is room for.  What it delivers is judged first: if that
text alone is refused, it does not matter how the source comes to its end.

Main definitions:

* `DocCodec.Assembly.root` — the root that an assembly has come to;
* `DocCodec.Decoder.decoded` — what a decoder makes of a text;
* `DocCodec.Decoder.written` — a decoder after some parts of a text;
* `DocCodec.Ending` — how a source comes to its end;
* `DocCodec.delivery` — **what a source delivers**, and how it comes to its end.

Main results:

* `DocCodec.Decoder.written_eq_write` — writing a text in parts is writing it at once;
* `DocCodec.decodeFrom_eq_outcome` — only what a source delivers and how it ends matters;
* `DocCodec.decode_eq_decoded` — a text is decoded by one scan;
* `DocCodec.decode_of_delivery` — **how a text is delivered makes no difference**.
-/

import DocCodec.Proofs.Scanner.Verdict
import DocCodec.Source

set_option relaxedAutoImplicit false
set_option autoImplicit false

namespace DocCodec

/-! ### Texts in two parts -/

/-- A text may be fed in two parts. -/
theorem Scanner.verdict_append {σ ε : Type} (listen : Listener σ ε) (s : Scanner) (state : σ)
    (first second : Bytes) :
    verdict listen s state (first ++ second) =
      (feed listen s state first).outcome >>= fun p => verdict listen p.1 p.2 second := by
  unfold verdict
  rw [feed_append]
  rcases feed listen s state first with ⟨after, state, _ | stop⟩ <;> rfl

/-- The root that an assembly has come to at the end of the text. -/
def Assembly.root (a : Assembly) : Except DecodeError Container :=
  if a.depth ≠ 0 then .error .incompleteInput
  else
    match a.result with
    | some root => .ok root
    | none => .error .incompleteInput

namespace Decoder

/-- What a decoder makes of a text. -/
def decoded (d : Decoder) (text : Bytes) : Except DecodeError Container :=
  (Scanner.verdict listen d.scanner d.assembly text).mapError errorOf >>= fun p => p.2.root

theorem finish_eq_decoded {d : Decoder} (hd : d.failure = none) :
    d.finish false = d.decoded [] := by
  obtain ⟨scanner, assembly, failure⟩ := d
  cases hd
  unfold finish decoded Scanner.verdict
  simp only [Scanner.feed, Bool.false_eq_true, if_false]
  change _ = ((Scanner.close listen scanner assembly).outcome >>= _).mapError _ >>= _
  rcases Scanner.close listen scanner assembly with ⟨scanner, assembly, _ | stop⟩ <;> rfl

/-- A decoder keeps the error that it reports. -/
theorem failure_write (d : Decoder) (stopped : Bool) (part : Bytes) :
    (d.write stopped part).1.failure = (d.write stopped part).2 := by
  obtain ⟨scanner, assembly, _ | error⟩ := d
  · unfold write
    cases stopped with
    | true => rfl
    | false =>
        simp only [Bool.false_eq_true, if_false]
        rcases Scanner.feed listen scanner assembly part with ⟨scanner, assembly, _ | stop⟩ <;> rfl
  · rfl

theorem failure_of_write {d after : Decoder} {stopped : Bool} {part : Bytes}
    {reply : Option DecodeError} (h : d.write stopped part = (after, reply)) :
    after.failure = reply := by
  have hfailure := d.failure_write stopped part
  rwa [h] at hfailure

/-- A decoder that has failed does not change, and reports its error again. -/
theorem write_of_failure {d : Decoder} {error : DecodeError} (h : d.failure = some error)
    (stopped : Bool) (part : Bytes) : d.write stopped part = (d, some error) := by
  obtain ⟨scanner, assembly, failure⟩ := d
  cases h
  rfl

theorem finish_of_failure {d : Decoder} {error : DecodeError} (h : d.failure = some error)
    (stopped : Bool) : d.finish stopped = .error error := by
  simp only [finish, h]

/-- **A text may be written in two parts.** -/
theorem write_append (d : Decoder) (first second : Bytes) :
    d.write false (first ++ second) =
      match d.write false first with
      | (d, none) => d.write false second
      | failed => failed := by
  obtain ⟨scanner, assembly, _ | error⟩ := d
  · simp only [write, Bool.false_eq_true, if_false, Scanner.feed_append]
    rcases Scanner.feed listen scanner assembly first with ⟨scanner, assembly, _ | stop⟩ <;> rfl
  · rfl

/-- What a decoder makes of a text that is written in two parts. -/
theorem decoded_append {d : Decoder} (hd : d.failure = none) (first second : Bytes) :
    d.decoded (first ++ second) =
      match d.write false first with
      | (d, none) => d.decoded second
      | (_, some error) => .error error := by
  obtain ⟨scanner, assembly, failure⟩ := d
  cases hd
  rw [decoded, Scanner.verdict_append]
  simp only [write, Bool.false_eq_true, if_false]
  rcases Scanner.feed listen scanner assembly first with ⟨scanner, assembly, _ | stop⟩ <;> rfl

/-- What a decoder makes of a text is found out by writing it and coming to the end. -/
theorem finish_write {d : Decoder} (hd : d.failure = none) (text : Bytes) :
    (d.write false text).1.finish false = d.decoded text := by
  have hdecoded := decoded_append hd text []
  rw [List.append_nil] at hdecoded
  rw [hdecoded]
  rcases hwrite : d.write false text with ⟨after, _ | error⟩
  · exact finish_eq_decoded (failure_of_write hwrite)
  · exact finish_of_failure (failure_of_write hwrite) false

/-! ### Texts in any parts -/

/-- A decoder to which the parts of a text were written one after another, whether or not it took
them in. -/
def written (d : Decoder) (parts : List Bytes) : Decoder :=
  parts.foldl (fun d part => (d.write false part).1) d

theorem written_append (d : Decoder) (first : List Bytes) (part : Bytes) (rest : List Bytes) :
    d.written (first ++ part :: rest) = ((d.written first).write false part).1.written rest :=
  List.foldl_append

/-- **Writing a text in parts is writing it at once.** -/
theorem written_eq_write (d : Decoder) (parts : List Bytes) :
    d.written parts = (d.write false parts.flatten).1 := by
  induction parts generalizing d with
  | nil => obtain ⟨scanner, assembly, _ | error⟩ := d <;> rfl
  | cons part parts ih =>
      change (d.write false part).1.written parts = _
      rw [ih, List.flatten_cons, write_append]
      rcases hwrite : d.write false part with ⟨after, _ | error⟩
      · rfl
      · rw [write_of_failure (failure_of_write hwrite)]

end Decoder

/-! ### What a source delivers -/

/-- How a source comes to its end. -/
inductive Ending
  /-- The stream ends. -/
  | complete
  /-- The source fails. -/
  | failed
  /-- The source reports more bytes than there is room for. -/
  | overlong
  deriving DecidableEq, Repr

/-- **What a source delivers** before it comes to its end, and how it does. -/
def delivery : List Reading → Bytes × Ending
  | [] | .bytes [] :: _ => ([], .complete)
  | .failed :: _ | .interrupted :: _ => ([], .failed)
  | .overlong :: _ => ([], .overlong)
  | .bytes (b :: part) :: rest =>
    if readBuffer ≤ part.length then ([], .overlong)
    else (b :: part ++ (delivery rest).1, (delivery rest).2)

namespace Decoder

/-- What comes of a decoder that is given a text by a source which then comes to its end. -/
def outcome (d : Decoder) (text : Bytes) (ending : Ending) : Except DecodeError Container :=
  match (d.write false text).2, ending with
  | some error, _ => .error error
  | none, .complete => d.decoded text
  | none, .failed => .error .readerError
  | none, .overlong => .error (.unexpectedState .overlongRead)

variable {d : Decoder}

/-- A first part of the text may have been written before. -/
theorem outcome_append (hd : d.failure = none) (first second : Bytes) (ending : Ending) :
    d.outcome (first ++ second) ending =
      match d.write false first with
      | (d, none) => d.outcome second ending
      | (_, some error) => .error error := by
  simp only [outcome, write_append, decoded_append hd]
  rcases d.write false first with ⟨after, _ | error⟩ <;> rfl

/-- Without a text only the end of the source matters. -/
theorem outcome_nil (hd : d.failure = none) (ending : Ending) :
    d.outcome [] ending =
      match ending with
      | .complete => d.finish false
      | .failed => .error .readerError
      | .overlong => .error (.unexpectedState .overlongRead) := by
  have hwrite : (d.write false []).2 = none := by
    obtain ⟨scanner, assembly, failure⟩ := d
    cases hd
    rfl
  simp only [outcome, hwrite]
  cases ending with
  | complete => exact (finish_eq_decoded hd).symm
  | failed => rfl
  | overlong => rfl

/-- At the end of the stream the text is all that matters. -/
theorem outcome_complete (hd : d.failure = none) (text : Bytes) :
    d.outcome text .complete = d.decoded text := by
  rw [← finish_write hd]
  rcases hwrite : d.write false text with ⟨after, _ | error⟩
  · simp only [outcome, hwrite]
    rw [← finish_write hd, hwrite]
  · simp only [outcome, hwrite]
    exact (finish_of_failure (failure_of_write hwrite) false).symm

end Decoder

/-- **Only what a source delivers and how it comes to its end matters.** -/
theorem decodeFrom_eq_outcome {d : Decoder} (hd : d.failure = none) (polls : Nat)
    (readings : List Reading) :
    decodeFrom .never polls d readings = d.outcome (delivery readings).1 (delivery readings).2 := by
  fun_induction delivery readings generalizing d polls with
  | case1 => exact (Decoder.outcome_nil hd .complete).symm
  | case2 rest => exact (Decoder.outcome_nil hd .complete).symm
  | case3 rest => exact (Decoder.outcome_nil hd .failed).symm
  | case4 rest => exact (Decoder.outcome_nil hd .failed).symm
  | case5 rest => exact (Decoder.outcome_nil hd .overlong).symm
  | case6 b part rest hlong => rw [Decoder.outcome_nil hd, decodeFrom, if_pos hlong]
  | case7 b part rest hfits ih =>
      rw [Decoder.outcome_append hd, decodeFrom, if_neg hfits]
      simp only [Signal.never]
      rcases hwrite : d.write false (b :: part) with ⟨after, _ | error⟩
      · exact ih (Decoder.failure_of_write hwrite) (polls + 1)
      · rfl

/-! ### Sources that deliver all of a text -/

/-- The bytes that a request gives. -/
def Reading.given : Reading → Bytes
  | .bytes part => part
  | _ => []

/-- Whether a request gives some bytes, for which there is room. -/
def Reading.IsPart : Reading → Prop
  | .bytes part => 0 < part.length ∧ part.length ≤ readBuffer
  | _ => False

/-- The parts of a text are delivered to the end of the stream. -/
theorem delivery_of_isPart {readings : List Reading} (h : ∀ r ∈ readings, r.IsPart) :
    delivery readings = (readings.flatMap Reading.given, .complete) := by
  induction readings with
  | nil => rfl
  | cons reading readings ih =>
      have hrest := ih fun r hr => h r (List.mem_cons_of_mem _ hr)
      have hreading := h reading List.mem_cons_self
      cases reading with
      | bytes part =>
          obtain ⟨hpos, hle⟩ := hreading
          obtain ⟨b, part, rfl⟩ := List.exists_cons_of_length_pos hpos
          rw [delivery, if_neg (Nat.not_le_of_lt hle), hrest]
          rfl
      | overlong => exact hreading.elim
      | interrupted => exact hreading.elim
      | failed => exact hreading.elim

/-- A text that is delivered in parts is decoded by one scan. -/
theorem decodeReadings_of_isPart {readings : List Reading} (h : ∀ r ∈ readings, r.IsPart) :
    decodeReadings .never readings = Decoder.decoded {} (readings.flatMap Reading.given) := by
  have hfresh : ({} : Decoder).failure = none := rfl
  rw [decodeReadings, decodeFrom_eq_outcome hfresh, delivery_of_isPart h,
    Decoder.outcome_complete hfresh]

namespace ChunkReader

/-- A request gives one byte at least, and no more than there is room for. -/
theorem atMost_bounds (r : ChunkReader) {room : Nat} (hroom : 0 < room) :
    0 < r.atMost room ∧ r.atMost room ≤ room := by
  unfold atMost
  split
  · exact ⟨hroom, Nat.le_refl room⟩
  · next chunk _ =>
      exact ⟨Nat.lt_min.2 ⟨hroom, Nat.le_max_right chunk 1⟩, Nat.min_le_left ..⟩

theorem readBuffer_pos : 0 < readBuffer := by decide

/-- A byte string is given in parts. -/
theorem isPart_of_mem_readings (r : ChunkReader) : ∀ reading ∈ r.readings, reading.IsPart := by
  intro reading h
  obtain ⟨hpos, hle⟩ := r.atMost_bounds readBuffer_pos
  obtain ⟨part, hpart, rfl⟩ := List.mem_map.1 h
  have hlength := Bytes.length_of_mem_parts hpos hpart
  exact ⟨hlength.1, Nat.le_trans hlength.2 hle⟩

/-- A byte string is given whole. -/
theorem flatMap_given_readings (r : ChunkReader) : r.readings.flatMap Reading.given = r.rest := by
  have hparts (parts : List Bytes) :
      (parts.map Reading.bytes).flatMap Reading.given = parts.flatten := by
    rw [List.flatMap_map, List.flatMap_def]
    exact congrArg List.flatten (List.map_id parts)
  rw [readings, hparts, Bytes.flatten_parts]

/-- **What the requests give** is what one request after another gives, until one gives nothing. -/
theorem readings_eq (r : ChunkReader) :
    r.readings =
      match r.read readBuffer with
      | ([], _) => []
      | (part, r) => .bytes part :: r.readings := by
  obtain ⟨hpos, -⟩ := r.atMost_bounds readBuffer_pos
  obtain ⟨count, hcount⟩ : ∃ count, r.atMost readBuffer = count + 1 :=
    ⟨_, (Nat.sub_add_cancel hpos).symm⟩
  have hskip : (r.skip (count + 1)).atMost readBuffer = count + 1 := hcount
  unfold read
  simp only [hcount]
  cases hrest : r.rest with
  | nil => simp [readings, hrest, Bytes.parts]
  | cons b rest =>
      have hdrop : (r.skip (count + 1)).rest = rest.drop count := by
        change r.rest.drop (count + 1) = _
        rw [hrest]
        rfl
      rw [readings, hrest, hcount, Bytes.parts]
      simp only [List.take_succ_cons, readings, hskip, hdrop]
      rfl

end ChunkReader

/-- **A text is decoded by one scan.** -/
theorem decode_eq_decoded (x : Bytes) : decode x = Decoder.decoded {} x := by
  have h := decodeReadings_of_isPart (ChunkReader.ofBytes x none).isPart_of_mem_readings
  rwa [ChunkReader.flatMap_given_readings] at h

/-- A layer that repeats interrupted requests passes on all that is given. -/
theorem flatMap_given_retrying (readings : List Reading) :
    (retrying readings).flatMap Reading.given = readings.flatMap Reading.given := by
  induction readings with
  | nil => rfl
  | cons reading readings ih =>
      cases reading with
      | bytes part => exact congrArg (part ++ ·) ih
      | overlong => exact ih
      | interrupted => exact ih
      | failed => exact ih

/-- Behind a layer that repeats interrupted requests, parts of a text are all that is left. -/
theorem isPart_of_mem_retrying {readings : List Reading}
    (h : ∀ r ∈ readings, r = .interrupted ∨ r.IsPart) : ∀ r ∈ retrying readings, r.IsPart := by
  intro r hr
  obtain ⟨hmem, hne⟩ := List.mem_filter.1 hr
  exact (h r hmem).resolve_left (of_decide_eq_true hne)

/-! ### One text in many ways -/

/-- A text that is written in parts is decoded alike. -/
theorem Decoder.finish_written (parts : List Bytes) :
    (Decoder.written {} parts).finish false = decode parts.flatten := by
  rw [Decoder.written_eq_write, Decoder.finish_write rfl, decode_eq_decoded]

/-- So is one that is read in chunks of any size. -/
theorem decodeReadings_ofBytes (text : Bytes) (chunk : Option Nat) :
    decodeReadings .never (ChunkReader.ofBytes text chunk).readings = decode text := by
  have h := decodeReadings_of_isPart (ChunkReader.ofBytes text chunk).isPart_of_mem_readings
  rw [ChunkReader.flatMap_given_readings] at h
  rw [h, decode_eq_decoded]
  rfl

/-- So is one from a source that is interrupted any number of times. -/
theorem decodeReadings_retrying {readings : List Reading}
    (h : ∀ r ∈ readings, r = .interrupted ∨ r.IsPart) :
    decodeReadings .never (retrying readings) = decode (readings.flatMap Reading.given) := by
  rw [decodeReadings_of_isPart (isPart_of_mem_retrying h), flatMap_given_retrying,
    decode_eq_decoded]

/-- The error of a part is what the whole text is refused with, whatever is written after it. -/
theorem decode_of_write_written {parts : List Bytes} {part : Bytes} {error : DecodeError}
    (h : ((Decoder.written {} parts).write false part).2 = some error) (rest : List Bytes) :
    (Decoder.written {} (parts ++ part :: rest)).finish false = .error error := by
  have hfailure := (Decoder.written {} parts).failure_write false part
  rw [h] at hfailure
  rw [Decoder.written_append, Decoder.written_eq_write, Decoder.write_of_failure hfailure]
  exact Decoder.finish_of_failure hfailure false

/-- **How a text is delivered makes no difference.**  A source is judged by the text that it
delivers and then by the way in which it comes to its end; so a text is decoded alike whether it
comes from a byte string in chunks of any size, from a source that is interrupted any number of
times, or in any parts that are written one after another, of which the first that is refused
reports the error of the whole. -/
theorem decode_of_delivery :
    (∀ readings : List Reading,
      decodeReadings .never readings =
        match (Decoder.write {} false (delivery readings).1).2, (delivery readings).2 with
        | some error, _ => .error error
        | none, .complete => decode (delivery readings).1
        | none, .failed => .error .readerError
        | none, .overlong => .error (.unexpectedState .overlongRead)) ∧
    (∀ (text : Bytes) (chunk : Option Nat),
      decodeReadings .never (ChunkReader.ofBytes text chunk).readings = decode text) ∧
    (∀ text : Bytes, (ChunkReader.ofBytes text (some 0)).readings =
      (ChunkReader.ofBytes text (some 1)).readings) ∧
    (∀ r : ChunkReader, r.readings =
      match r.read readBuffer with
      | ([], _) => []
      | (part, r) => .bytes part :: r.readings) ∧
    (∀ readings : List Reading, (∀ r ∈ readings, r = .interrupted ∨ r.IsPart) →
      decodeReadings .never (retrying readings) = decode (readings.flatMap Reading.given)) ∧
    (∀ parts : List Bytes, (Decoder.written {} parts).finish false = decode parts.flatten) ∧
    ∀ (first : List Bytes) (part : Bytes) (rest : List Bytes) (error : DecodeError),
      ((Decoder.written {} first).write false part).2 = some error →
        decode (first ++ part :: rest).flatten = .error error := by
  refine ⟨?_, decodeReadings_ofBytes, fun text => rfl, ChunkReader.readings_eq,
    fun readings => decodeReadings_retrying, Decoder.finish_written, ?_⟩
  · intro readings
    rw [decode_eq_decoded]
    exact decodeFrom_eq_outcome rfl 0 readings
  · intro first part rest error h
    rw [← Decoder.finish_written]
    exact decode_of_write_written h rest

/-- A text that is interrupted twice, and one that is refused in its second part. -/
theorem decode_of_delivery_interrupted :
    decodeReadings .never
        (retrying [.interrupted, .bytes [Ascii.openSquare], .interrupted,
          .bytes [Ascii.closeSquare]]) = decode [Ascii.openSquare, Ascii.closeSquare] ∧
      decode [Ascii.openSquare, Ascii.comma, Ascii.closeSquare] =
        .error (.parseSyntaxError ⟨.expectedArrayItem, Ascii.comma, 1⟩) := by
  obtain ⟨-, -, -, -, hinterrupted, -, herror⟩ := decode_of_delivery
  refine ⟨hinterrupted _ ?_, herror [[Ascii.openSquare]] [Ascii.comma] [[Ascii.closeSquare]] _ ?_⟩
  · simp [Reading.IsPart, readBuffer]
  · rfl

end DocCodec
