/-
**Base64 block by block.**

In standard base64 the bits of a byte string are taken six at a time, the highest bit of each byte
first, and each six are a digit of the alphabet.  Zeros complete the last six, and padding completes
the last four digits.  `Base64.encode` takes three bytes at a time instead, and the writer one block
at a time, but both write the standard text: three bytes have just the bits of four digits, and a
block that is not the last one is a number of such threes.

What puts the digits of a block into the writer's buffer need not be known.  It is enough that it
does so whenever there is room, and in the buffer there always is.

Main definitions:

* `DocCodec.Base64.standard` — **the standard text** of a byte string, bit by bit;
* `DocCodec.Base64.Engine.Standard` — what is expected of the encoder of a block.

Main results:

* `DocCodec.Base64.encode_eq_standard` — three bytes at a time give the standard text;
* `DocCodec.Writing.base64By_eq_perform` — the writer gives the sink the texts of the blocks;
* `DocCodec.Writing.base64_block_by_block` — **block by block** the standard text of the whole is
  written, and the buffer never overflows.
-/

import DocCodec.Proofs.Encoder.Requests
import Mathlib.Algebra.Group.Nat.Defs

set_option relaxedAutoImplicit false
set_option autoImplicit false

namespace DocCodec

namespace Base64

/-! ### The standard text -/

/-- The bit at a place of a byte string, the highest bit of each byte first.  Behind the end there
are zeros. -/
def bit (bytes : Bytes) (place : Nat) : Bool :=
  bytes[place / 8]?.any fun b => b.toNat.testBit (7 - place % 8)

/-- The number of the six bits that a digit stands for. -/
def sextet (bytes : Bytes) (index : Nat) : Nat :=
  (List.range 6).foldl (fun n place => 2 * n + (bit bytes (6 * index + place)).toNat) 0

/-- The digits, in the order of their values. -/
def alphabet : Bytes :=
  Utf8.encode "ABCDEFGHIJKLMNOPQRSTUVWXYZabcdefghijklmnopqrstuvwxyz0123456789+/"

/-- The character at an index of the standard text: a digit if six bits begin there before the end,
and padding otherwise. -/
def character (bytes : Bytes) (index : Nat) : UInt8 :=
  if 6 * index < 8 * bytes.length then alphabet.getD (sextet bytes index) pad else pad

/-- **The standard text** of a byte string: four characters for every three bytes or part of three.
-/
def standard (bytes : Bytes) : Bytes :=
  (List.range (4 * ((bytes.length + 2) / 3))).map (character bytes)

/-! ### Three bytes at a time -/

/-- The number of a byte; behind the end it is zero. -/
def number (bytes : Bytes) (index : Nat) : Nat := bytes[index]?.elim 0 UInt8.toNat

theorem number_lt (bytes : Bytes) (index : Nat) : number bytes index < 256 := by
  unfold number
  cases bytes[index]? with
  | none => exact Nat.zero_lt_succ 255
  | some b => exact b.toNat_lt

theorem toNat_bit (bytes : Bytes) (place : Nat) :
    (bit bytes place).toNat = number bytes (place / 8) / 2 ^ (7 - place % 8) % 2 := by
  unfold bit number
  cases bytes[place / 8]? with
  | none => simp
  | some b => exact Nat.toNat_testBit ..

/-- The bits of three bytes are those of four digits. -/
theorem sextets (bytes : Bytes) :
    sextet bytes 0 = number bytes 0 / 4 ∧
    sextet bytes 1 = number bytes 0 % 4 * 16 + number bytes 1 / 16 ∧
    sextet bytes 2 = number bytes 1 % 16 * 4 + number bytes 2 / 64 ∧
    sextet bytes 3 = number bytes 2 % 64 := by
  have hrange : List.range 6 = [0, 1, 2, 3, 4, 5] := rfl
  have ha := number_lt bytes 0
  have hb := number_lt bytes 1
  have hc := number_lt bytes 2
  -- The bits of a byte are taken in pairs, none of which is divided between two digits.
  have h₆₄ (n x : Nat) : 2 * (2 * n + x / 128 % 2) + x / 64 % 2 = 4 * n + x / 64 % 4 := by omega
  have h₁₆ (n x : Nat) : 2 * (2 * n + x / 32 % 2) + x / 16 % 2 = 4 * n + x / 16 % 4 := by omega
  have h₄ (n x : Nat) : 2 * (2 * n + x / 8 % 2) + x / 4 % 2 = 4 * n + x / 4 % 4 := by omega
  have h₁ (n x : Nat) : 2 * (2 * n + x / 2 % 2) + x / 1 % 2 = 4 * n + x % 4 := by omega
  simp only [sextet, hrange, List.foldl_cons, List.foldl_nil, toNat_bit, Nat.reduceMul,
    Nat.reduceAdd, Nat.reduceDiv, Nat.reduceMod, Nat.reduceSub, Nat.reducePow, h₆₄, h₁₆, h₄, h₁]
  omega

/-- Behind three bytes the places of the others begin anew. -/
theorem bit_behind (a b c : UInt8) (rest : Bytes) (place : Nat) :
    bit (a :: b :: c :: rest) (24 + place) = bit rest place := by
  have hbyte : (24 + place) / 8 = place / 8 + 3 := by omega
  have hbit : (24 + place) % 8 = place % 8 := by omega
  rw [bit, bit, hbyte, hbit]
  rfl

theorem sextet_behind (a b c : UInt8) (rest : Bytes) (index : Nat) :
    sextet (a :: b :: c :: rest) (4 + index) = sextet rest index := by
  have hplace (place : Nat) : 6 * (4 + index) + place = 24 + (6 * index + place) := by omega
  simp only [sextet, hplace, bit_behind]

theorem alphabet_getD : ∀ n < 64, alphabet.getD n pad = digit n := by decide

theorem character_eq_digit {bytes : Bytes} {index n : Nat} (hindex : 6 * index < 8 * bytes.length)
    (hsextet : sextet bytes index = n) (hn : n < 64) : character bytes index = digit n := by
  rw [character, if_pos hindex, hsextet, alphabet_getD n hn]

theorem character_eq_pad {bytes : Bytes} {index : Nat} (hindex : 8 * bytes.length ≤ 6 * index) :
    character bytes index = pad := if_neg (Nat.not_lt_of_le hindex)

theorem character_behind (a b c : UInt8) (rest : Bytes) (index : Nat) :
    character (a :: b :: c :: rest) (4 + index) = character rest index := by
  have hplace : 6 * (4 + index) < 8 * (a :: b :: c :: rest).length ↔
      6 * index < 8 * rest.length := by
    simp only [List.length_cons]
    omega
  simp only [character, hplace, sextet_behind]

/-- Three bytes have four digits, whatever follows them. -/
theorem standard_behind (a b c : UInt8) (rest : Bytes) :
    standard (a :: b :: c :: rest) = group a b c ++ standard rest := by
  obtain ⟨h₀, h₁, h₂, h₃⟩ := sextets (a :: b :: c :: rest)
  change _ = a.toNat / 4 at h₀
  change _ = a.toNat % 4 * 16 + b.toNat / 16 at h₁
  change _ = b.toNat % 16 * 4 + c.toNat / 64 at h₂
  change _ = c.toNat % 64 at h₃
  have ha := a.toNat_lt
  have hb := b.toNat_lt
  have hc := c.toNat_lt
  have hplace (index : Nat) (h : index < 4) :
      6 * index < 8 * (a :: b :: c :: rest).length := by
    simp only [List.length_cons]
    omega
  have hlength : 4 * (((a :: b :: c :: rest).length + 2) / 3) =
      4 + 4 * ((rest.length + 2) / 3) := by
    simp only [List.length_cons]
    omega
  have hfour : (List.range 4).map (character (a :: b :: c :: rest)) = group a b c := by
    rw [group, ← character_eq_digit (hplace 0 (by omega)) h₀ (by omega),
      ← character_eq_digit (hplace 1 (by omega)) h₁ (by omega),
      ← character_eq_digit (hplace 2 (by omega)) h₂ (by omega),
      ← character_eq_digit (hplace 3 (by omega)) h₃ (by omega)]
    rfl
  rw [standard, hlength, List.range_add, List.map_append, List.map_map, hfour]
  refine congrArg (group a b c ++ ·) (List.map_congr_left ?_)
  intro index _
  exact character_behind a b c rest index

/-- **Three bytes at a time** give the standard text. -/
theorem encode_eq_standard (bytes : Bytes) : encode bytes = standard bytes := by
  fun_induction encode bytes with
  | case1 => rfl
  | case2 a =>
      obtain ⟨h₀, h₁, -, -⟩ := sextets [a]
      have hbehind : number [a] 1 = 0 := rfl
      rw [hbehind, Nat.zero_div, Nat.add_zero] at h₁
      change _ = a.toNat / 4 at h₀
      change _ = a.toNat % 4 * 16 at h₁
      have ha := a.toNat_lt
      have hfour : 4 * (([a].length + 2) / 3) = 4 := by simp
      have hrange : List.range 4 = [0, 1, 2, 3] := rfl
      simp only [standard, hfour, hrange, List.map_cons, List.map_nil]
      rw [character_eq_digit (by simp) h₀ (by omega), character_eq_digit (by simp) h₁ (by omega),
        character_eq_pad (by simp), character_eq_pad (by simp)]
  | case3 a b =>
      obtain ⟨h₀, h₁, h₂, -⟩ := sextets [a, b]
      have hbehind : number [a, b] 2 = 0 := rfl
      rw [hbehind, Nat.zero_div, Nat.add_zero] at h₂
      change _ = a.toNat / 4 at h₀
      change _ = a.toNat % 4 * 16 + b.toNat / 16 at h₁
      change _ = b.toNat % 16 * 4 at h₂
      have ha := a.toNat_lt
      have hb := b.toNat_lt
      have hfour : 4 * (([a, b].length + 2) / 3) = 4 := by simp
      have hrange : List.range 4 = [0, 1, 2, 3] := rfl
      simp only [standard, hfour, hrange, List.map_cons, List.map_nil]
      rw [character_eq_digit (by simp) h₀ (by omega), character_eq_digit (by simp) h₁ (by omega),
        character_eq_digit (by simp) h₂ (by omega), character_eq_pad (by simp)]
  | case4 a b c rest ih => rw [standard_behind, ih]

/-! ### Padding -/

theorem sextet_lt (bytes : Bytes) (index : Nat) : sextet bytes index < 64 := by
  have hrange : List.range 6 = [0, 1, 2, 3, 4, 5] := rfl
  simp only [sextet, hrange, List.foldl_cons, List.foldl_nil, toNat_bit]
  omega

/-- Only the end of the standard text is padding: one character for each byte that is missing to a
multiple of three. -/
theorem exists_digits_standard (bytes : Bytes) :
    ∃ digits, standard bytes = digits ++ List.replicate ((3 - bytes.length % 3) % 3) pad ∧
      pad ∉ digits := by
  have hlength : 4 * ((bytes.length + 2) / 3) =
      (4 * bytes.length + 2) / 3 + (3 - bytes.length % 3) % 3 := by omega
  refine ⟨(List.range ((4 * bytes.length + 2) / 3)).map (character bytes), ?_, ?_⟩
  · rw [standard, hlength, List.range_add, List.map_append, List.map_map]
    refine congrArg (_ ++ ·) (List.eq_replicate_iff.2 ⟨by simp, ?_⟩)
    intro c hc
    obtain ⟨index, -, rfl⟩ := List.mem_map.1 hc
    have hindex : 8 * bytes.length ≤ 6 * ((4 * bytes.length + 2) / 3 + index) := by omega
    exact character_eq_pad hindex
  · intro hpad
    obtain ⟨index, hindex, hcharacter⟩ := List.mem_map.1 hpad
    rw [List.mem_range] at hindex
    rw [character_eq_digit (by omega) rfl (sextet_lt bytes index)] at hcharacter
    exact digit_ne_pad _ (sextet_lt bytes index) hcharacter

/-! ### What is expected of the encoder of a block -/

/-- **What is expected of the encoder of a block**: it puts the standard text of the block at the
front of any buffer that is large enough, and says how long that text is. -/
def Engine.Standard (engine : Engine) : Prop :=
  ∀ buffer block, (standard block).length ≤ buffer.length →
    ∃ rest, engine buffer block = some (standard block ++ rest, (standard block).length) ∧
      (standard block ++ rest).length = buffer.length

theorem standard_encodeInto : Engine.Standard encodeInto := by
  intro buffer block hroom
  rw [← encode_eq_standard] at hroom ⊢
  refine ⟨buffer.drop (encode block).length, if_pos hroom, ?_⟩
  rw [List.length_append, List.length_drop]
  omega

end Base64

namespace Writing

/-! ### Blocks -/

/-- Blocks whose texts the buffer can hold are written one by one. -/
theorem base64Blocks_eq_perform {engine : Base64.Engine} (hengine : engine.Standard)
    (buffer : Bytes) (blocks : List Bytes)
    (hblocks : ∀ block ∈ blocks, (Base64.encode block).length ≤ buffer.length) :
    base64Blocks engine buffer blocks = perform ((blocks.map Base64.encode).map .write) := by
  induction blocks generalizing buffer with
  | nil => rfl
  | cons block rest ih =>
      have hblock := hblocks block List.mem_cons_self
      rw [Base64.encode_eq_standard] at hblock
      obtain ⟨behind, hinto, hlength⟩ := hengine buffer block hblock
      have hfits : (Base64.standard block).length ≤ (Base64.standard block ++ behind).length := by
        rwa [hlength]
      -- The buffer that the next block finds holds as much as before.
      have hrest := ih (Base64.standard block ++ behind) fun other h => by
        rw [hlength]
        exact hblocks other (List.mem_cons_of_mem _ h)
      simp only [base64Blocks, hinto, if_pos hfits, List.take_left, hrest, List.map_cons,
        perform_cons, Base64.encode_eq_standard]
      rfl

/-- **The writer gives the sink the texts of the blocks.**  A block has 48 bytes at most, whose
digits fill the buffer of 64. -/
theorem base64By_eq_perform {engine : Base64.Engine} (hengine : engine.Standard)
    (content : Bytes) :
    base64By engine content = perform ((Base64.blocks content).map .write) := by
  refine base64Blocks_eq_perform hengine _ _ fun block hblock => ?_
  have hsize : 0 < Base64.blockSize := Nat.lt_of_sub_eq_succ rfl
  have hlength := (Bytes.length_of_mem_parts hsize hblock).2
  rw [List.length_replicate, Base64.length_encode]
  unfold Base64.blockSize at hlength ⊢
  omega

/-- **Base64 block by block is base64 at once.**  Whatever encodes a block, the writer gives the
sink the texts of the blocks, which join up to the standard text of the whole: four characters for
every three bytes or part of three, of which only the last may be padding, and which are read as
those bytes.  So it is worth one write of that text, and the buffer never overflows. -/
theorem base64_block_by_block {engine : Base64.Engine} (hengine : engine.Standard)
    (content : Bytes) :
    base64By engine content = perform ((Base64.blocks content).map .write) ∧
      (Base64.blocks content).flatten = Base64.standard content ∧
      (Base64.standard content).length = 4 * ((content.length + 2) / 3) ∧
      (∃ digits, Base64.standard content =
          digits ++ List.replicate ((3 - content.length % 3) % 3) Base64.pad ∧
        Base64.pad ∉ digits) ∧
      Base64.decode? (Base64.standard content) = some content ∧
      ∀ session, ∃ later, base64By engine content session =
          ((session.sink.write (Base64.standard content)).2.elim (.ok ()) (.error <| .sink ·),
            later) ∧
        later.sink = (session.sink.write (Base64.standard content)).1 ∧
        (base64By engine content session).1 ≠ .error (.unexpectedState .base64Overflow) := by
  have hrequests := base64By_eq_perform hengine content
  have hflatten : (Base64.blocks content).flatten = Base64.standard content := by
    rw [Base64.flatten_blocks, Base64.encode_eq_standard]
  refine ⟨hrequests, hflatten, ?_, Base64.exists_digits_standard content, ?_, ?_⟩
  · rw [Base64.standard, List.length_map, List.length_range]
  · rw [← Base64.encode_eq_standard, Base64.decode?_encode]
  · intro session
    obtain ⟨later, hlater, hsink⟩ := perform_pieces (Base64.blocks content) session
    rw [hflatten] at hlater hsink
    rw [hrequests]
    refine ⟨later, hlater, hsink, ?_⟩
    rw [hlater]
    cases (session.sink.write (Base64.standard content)).2 <;> simp

/-- Nothing but zeros, in a full block and one byte more. -/
theorem base64_block_by_block_two :
    Base64.Engine.Standard Base64.encodeInto ∧
      base64 (List.replicate 49 0) = perform [.write (List.replicate 64 (Ascii.byte 'A')),
        .write [Ascii.byte 'A', Ascii.byte 'A', Base64.pad, Base64.pad]] := by
  obtain ⟨hrequests, -⟩ := base64_block_by_block Base64.standard_encodeInto (List.replicate 49 0)
  have hblocks : Base64.blocks (List.replicate 49 0) = [List.replicate 64 (Ascii.byte 'A'),
    [Ascii.byte 'A', Ascii.byte 'A', Base64.pad, Base64.pad]] := by
    cbv
  exact ⟨Base64.standard_encodeInto, by rw [base64, hrequests, hblocks]; rfl⟩

end Writing

end DocCodec
