import Khorost.Unicode.Transform
import Mathlib.Data.Nat.Bitwise

namespace Khorost.Unicode

variable {b : Build}

theorem six_bits (v n : Nat) : (v >>> n) &&& 0x3F = v / 2 ^ n % 64 := by
  rw [Nat.shiftRight_eq_div_pow]
  exact Nat.and_two_pow_sub_one_eq_mod _ 6

theorem lead_two : ∀ x < 32, (0xFF : UInt8) <<< 6 ||| UInt8.ofNat (x % 64) =
    UInt8.ofNat (x % 0x20 + 0xC0) := by decide

theorem lead_three : ∀ x < 16, (0xFF : UInt8) <<< 5 ||| UInt8.ofNat (x % 64) =
    UInt8.ofNat (x % 0x10 + 0xE0) := by decide

theorem lead_four : ∀ x < 8, (0xFF : UInt8) <<< 4 ||| UInt8.ofNat (x % 64) =
    UInt8.ofNat (x % 0x08 + 0xF0) := by decide

theorem tail_bits : ∀ x < 64, (0x80 : UInt8) ||| UInt8.ofNat x = UInt8.ofNat (x + 0x80) := by
  decide

theorem tail_byte (v : Nat) : (0x80 : UInt8) ||| UInt8.ofNat (v % 64) = UInt8.ofNat (v % 64 + 0x80) :=
  tail_bits _ (Nat.mod_lt _ (by decide))

theorem char_lt (c : Char) : c.toNat < 0x110000 := by
  have := c.valid
  rcases this with h | ⟨-, h⟩
  · exact Nat.lt_trans h (by decide)
  · exact h

/-- Behind ASCII the bytes of a code point are the standard ones. -/
theorem encode_sequence_char {c : Char} (h : 0x80 ≤ c.toNat) :
    encodeSequence c.toNat = String.utf8EncodeChar c := by
  have hmax := char_lt c
  have hval : c.val.toNat = c.toNat := rfl
  rw [encodeSequence, String.utf8EncodeChar, hval, if_neg (by omega)]
  by_cases h2 : c.toNat < 0x800
  · have hlead := lead_two (c.toNat / 64) (by omega)
    have h7 : c.toNat ≤ 0x7FF := by omega
    rw [leadByte, if_pos h2, if_pos h7]
    simp only [encodeBits, six_bits, hlead, Nat.reducePow, Nat.reduceMul, Nat.reduceAdd, tail_byte,
      Nat.div_one]
  · have h7 : ¬ c.toNat ≤ 0x7FF := by omega
    rw [leadByte, if_neg h2, if_neg h7]
    by_cases h3 : c.toNat < 0x10000
    · have hlead := lead_three (c.toNat / 4096) (by omega)
      have hF : c.toNat ≤ 0xFFFF := by omega
      rw [if_pos h3, if_pos hF]
      simp only [encodeBits, six_bits, hlead, Nat.reducePow, Nat.reduceMul, Nat.reduceAdd,
        tail_byte, Nat.div_one]
    · have hlead := lead_four (c.toNat / 262144) (by omega)
      have hF : ¬ c.toNat ≤ 0xFFFF := by omega
      have h4 : c.toNat < 0x200000 := by omega
      rw [if_neg h3, if_neg hF, if_pos h4]
      simp only [encodeBits, six_bits, hlead, Nat.reducePow, Nat.reduceMul, Nat.reduceAdd,
        tail_byte, Nat.div_one]

def utf16 (c : Char) : List Nat :=
  if 0xFFFF < c.toNat then
    [0xD800 + (c.toNat - 0x10000) / 0x400, 0xDC00 + (c.toNat - 0x10000) % 0x400]
  else [c.toNat]

def Build.units (b : Build) (c : Char) : List Nat := if b.shortWchar then utf16 c else [c.toNat]

theorem units_eq (b : Build) (c : Char) : b.units c =
    if b.shortWchar ∧ 0xFFFF < c.toNat then
      [0xD800 + (c.toNat - 0x10000) / 0x400, 0xDC00 + (c.toNat - 0x10000) % 0x400]
    else [c.toNat] := by
  rw [Build.units, utf16]
  cases b.shortWchar <;> simp

theorem not_surrogate (c : Char) : ¬ (0xD800 ≤ c.toNat ∧ c.toNat < 0xE000) := by
  rintro ⟨hl, hu⟩
  have := c.valid
  rcases this with h | ⟨h, -⟩
  · exact Nat.not_lt_of_le hl h
  · have : 0xDFFF < c.toNat := h
    omega

theorem encode_unit (hs : ¬ (0xD800 ≤ wc ∧ wc < 0xE000)) (units : List Nat) :
    utf8Encode b (wc :: units) =
      (if wc < 0x80 then [UInt8.ofNat wc] else encodeSequence wc) ++ utf8Encode b units := by
  have hno : ¬ (b.shortWchar = true ∧ 0xD800 ≤ wc ∧ wc < 0xE000) := fun h => hs h.2
  cases units with
  | nil => simp only [utf8Encode, if_neg hno, List.append_nil]
  | cons lo units =>
    rw [utf8Encode, if_neg hno]
    split <;> rfl

theorem low_ten (x : Nat) : x &&& 0x3FF = x % 1024 := Nat.and_two_pow_sub_one_eq_mod x 10

theorem join_split (hv : 0x10000 ≤ v) (hmax : v < 0x110000) :
    joinSurrogates (0xD800 + (v - 0x10000) / 0x400) (0xDC00 + (v - 0x10000) % 0x400) = v := by
  have hhigh : (0xD800 + (v - 0x10000) / 0x400) % 1024 = (v - 0x10000) / 0x400 := by omega
  have hlow : (0xDC00 + (v - 0x10000) % 0x400) % 1024 = (v - 0x10000) % 0x400 := by omega
  rw [joinSurrogates, low_ten, low_ten, hhigh, hlow,
    ← Nat.shiftLeft_add_eq_or_of_lt (Nat.mod_lt _ (by decide)), Nat.shiftLeft_eq]
  omega

theorem encode_pair (hwc : 0xD800 ≤ wc ∧ wc < 0xDC00) (hlo : 0xDC00 ≤ lo) (hb : b.shortWchar)
    (units : List Nat) : utf8Encode b (wc :: lo :: units) =
      encodeSequence (joinSurrogates wc lo) ++ utf8Encode b units := by
  rw [utf8Encode, if_neg (by omega), if_pos ⟨hb, hwc.1, by omega⟩, if_neg (by omega),
    if_pos ⟨hlo, by omega⟩]

/-- The units of a scalar value become its standard bytes. -/
theorem encode_units (c : Char) (units : List Nat) :
    utf8Encode b (b.units c ++ units) = String.utf8EncodeChar c ++ utf8Encode b units := by
  have hmax := char_lt c
  rw [units_eq]
  by_cases hpair : b.shortWchar = true ∧ 0xFFFF < c.toNat
  · rw [if_pos hpair]
    have hjoin := join_split (v := c.toNat) (by omega) hmax
    rw [List.cons_append, List.cons_append, List.nil_append,
      encode_pair (by omega) (Nat.le_add_right ..) hpair.1, hjoin, encode_sequence_char (by omega)]
  · rw [if_neg hpair, List.cons_append, List.nil_append, encode_unit (not_surrogate c)]
    split
    · next hascii =>
      have hle : c.val.toNat ≤ 0x7F := Nat.le_of_lt_succ hascii
      rw [String.utf8EncodeChar, if_pos hle]
      rfl
    · next hascii => rw [encode_sequence_char (by omega)]

theorem encode_text (b : Build) (s : List Char) :
    utf8Encode b (s.flatMap b.units) = s.flatMap String.utf8EncodeChar := by
  induction s with
  | nil => rfl
  | cons c s ih => rw [List.flatMap_cons, encode_units, ih, List.flatMap_cons]

/-- Both builds produce the standard encoding, one from UTF-16 and one from the
code points. -/
theorem encode_standard (short long : Build) (hshort : short.shortWchar = true)
    (hlong : long.shortWchar = false) (s : List Char) :
    utf8Encode short (s.flatMap utf16) = s.flatMap String.utf8EncodeChar ∧
      utf8Encode long (s.map Char.toNat) = s.flatMap String.utf8EncodeChar := by
  have hunits : short.units = utf16 := funext fun c => if_pos hshort
  have hpoints : long.units = fun c => [c.toNat] := funext fun c => if_neg (by simp [hlong])
  refine ⟨?_, ?_⟩
  · rw [← hunits]
    exact encode_text short s
  · rw [List.map_eq_flatMap, ← hpoints]
    exact encode_text long s

theorem encode_standard_lengths :
    utf8Encode ⟨true, 32, by decide⟩ ("aé✓😀".toList.flatMap utf16) =
        "aé✓😀".toList.flatMap String.utf8EncodeChar ∧
      utf8Encode ⟨false, 64, by decide⟩ ("aé✓😀".toList.map Char.toNat) =
        "aé✓😀".toList.flatMap String.utf8EncodeChar :=
  encode_standard ⟨true, 32, by decide⟩ ⟨false, 64, by decide⟩ rfl rfl "aé✓😀".toList

def Ones (b : Build) (n wc : Nat) : Prop := ∀ i, n ≤ i → i < b.ulongBits → wc.testBit i = true

theorem ones_start : Ones b 0 (2 ^ b.ulongBits - 1) := by
  intro i _ hi
  rw [Nat.testBit_two_pow_sub_one]
  exact decide_eq_true hi

theorem ones_shift (h : Ones b n wc) (low : Nat) :
    Ones b (n + 6) ((wc <<< 6) % 2 ^ b.ulongBits ||| low) := by
  intro i hn hi
  have hbit := h (i - 6) (by omega) (by omega)
  rw [Nat.testBit_or, Nat.testBit_mod_two_pow, Nat.testBit_shiftLeft, hbit, decide_eq_true hi,
    decide_eq_true (by omega : i ≥ 6)]
  rfl

theorem range_mark (wc : Nat) : 0x80000000 &&& wc = 2 ^ 31 * (wc.testBit 31).toNat :=
  Nat.two_pow_and wc 31

/-- They mark the sequence as out of range, whatever its other bytes are. -/
theorem ones_question (h : Ones b n wc) (hn : n ≤ 31) : decodeEnd b wc = [questionMark] := by
  have hbit := h 31 hn b.ulong_ge
  have hset : 0x80000000 &&& wc ≠ 0 := by
    rw [range_mark, hbit]
    decide
  have hsmall : ¬ (b.shortWchar = true ∧ 0xFFFF < questionMark) := fun h => absurd h.2 (by decide)
  simp only [decodeEnd, if_pos hset, if_neg hsmall, Build.wchar]
  split <;> rfl

theorem wchar_small (h : wc < 0x10000) : b.wchar wc = wc := by
  rw [Build.wchar]
  split <;> exact Nat.mod_eq_of_lt (by omega)

theorem split_pair (hq : q < 0x400) (hr : r < 0x400) :
    0xD800 ||| ((q * 0x400 + r) >>> 10 &&& 0x3FF) = 0xD800 + q ∧
      0xDC00 ||| ((q * 0x400 + r) &&& 0x3FF) = 0xDC00 + r := by
  have hhigh : (q * 0x400 + r) >>> 10 = q := by
    rw [Nat.shiftRight_eq_div_pow]
    omega
  have hd : 0xD800 = 54 <<< 10 := rfl
  have hc : 0xDC00 = 55 <<< 10 := rfl
  rw [low_ten, low_ten, hhigh, Nat.mod_eq_of_lt hq, hd, hc,
    ← Nat.shiftLeft_add_eq_or_of_lt hq, ← Nat.shiftLeft_add_eq_or_of_lt (Nat.mod_lt _ (by decide))]
  refine ⟨rfl, ?_⟩
  congr 1
  omega

/-- A code point that has been put together is written as its units. -/
theorem decode_end_char (c : Char) : decodeEnd b c.toNat = b.units c := by
  have hmax := char_lt c
  have hclear : ¬ (0x80000000 &&& c.toNat ≠ 0) := by
    rw [range_mark, Nat.testBit_lt_two_pow (Nat.lt_trans hmax (by decide))]
    simp
  simp only [decodeEnd, if_neg hclear, units_eq]
  by_cases hpair : b.shortWchar = true ∧ 0xFFFF < c.toNat
  · obtain ⟨hhigh, hlow⟩ := split_pair (q := (c.toNat - 0x10000) / 0x400)
      (r := (c.toNat - 0x10000) % 0x400) (by omega) (by omega)
    have hsum : (c.toNat - 0x10000) / 0x400 * 0x400 + (c.toNat - 0x10000) % 0x400 =
        c.toNat - 0x10000 := Nat.div_add_mod' _ _
    rw [hsum] at hhigh hlow
    rw [if_pos hpair, if_pos hpair, hhigh, hlow, wchar_small (by omega), wchar_small (by omega)]
  · rw [if_neg hpair, if_neg hpair, Build.wchar]
    split
    · next hshort => rw [Nat.mod_eq_of_lt (by have := not_and.mp hpair hshort; omega)]
    · rw [Nat.mod_eq_of_lt (by omega)]

theorem start_ascii : ∀ x < 0x80, ¬ (UInt8.ofNat x &&& 0x80 ≠ 0) ∧ (UInt8.ofNat x).toNat = x := by
  decide

theorem start_two : ∀ x < 32, UInt8.ofNat (x % 0x20 + 0xC0) &&& 0x80 ≠ 0 ∧
    startCode (UInt8.ofNat (x % 0x20 + 0xC0)) = some (1, x) := by decide

theorem start_three : ∀ x < 16, UInt8.ofNat (x % 0x10 + 0xE0) &&& 0x80 ≠ 0 ∧
    startCode (UInt8.ofNat (x % 0x10 + 0xE0)) = some (2, x) := by decide

theorem start_four : ∀ x < 8, UInt8.ofNat (x % 0x08 + 0xF0) &&& 0x80 ≠ 0 ∧
    startCode (UInt8.ofNat (x % 0x08 + 0xF0)) = some (3, x) := by decide

theorem tail_code : ∀ y < 64, ¬ (0x80 ≠ (0xC0 &&& UInt8.ofNat (y + 0x80))) ∧
    (UInt8.ofNat (y + 0x80) &&& ~~~0xC0).toNat = y := by decide

theorem shift_or (b : Build) (wc y : Nat) (hwc : wc < 2 ^ 26) (hy : y < 64) :
    (wc <<< 6) % 2 ^ b.ulongBits ||| y = wc * 64 + y := by
  have hpow : 2 ^ 32 ≤ 2 ^ b.ulongBits := Nat.pow_le_pow_right (by decide) b.ulong_ge
  have hshift : wc <<< 6 = wc * 64 := Nat.shiftLeft_eq wc 6
  rw [Nat.mod_eq_of_lt (by omega), ← Nat.shiftLeft_add_eq_or_of_lt hy, hshift]

theorem loop_tail (b : Build) (cnt wc v : Nat) (bytes : List UInt8) :
    decodeLoop b (some (cnt + 2, wc)) (UInt8.ofNat (v % 0x40 + 0x80) :: bytes) =
      decodeLoop b (some (cnt + 1, (wc <<< 6) % 2 ^ b.ulongBits ||| v % 64)) bytes := by
  obtain ⟨hmark, hbits⟩ := tail_code (v % 64) (Nat.mod_lt _ (by decide))
  simp only [decodeLoop, decodeNext, if_neg hmark, hbits]
  rfl

theorem loop_last (b : Build) (wc v : Nat) (bytes : List UInt8) :
    decodeLoop b (some (1, wc)) (UInt8.ofNat (v % 0x40 + 0x80) :: bytes) =
      decodeEnd b ((wc <<< 6) % 2 ^ b.ulongBits ||| v % 64) ++ decodeLoop b none bytes := by
  obtain ⟨hmark, hbits⟩ := tail_code (v % 64) (Nat.mod_lt _ (by decide))
  simp only [decodeLoop, decodeNext, if_neg hmark, hbits]
  rfl

theorem loop_start (hmark : byte &&& 0x80 ≠ 0) (hcode : startCode byte = some (cnt, wc))
    (bytes : List UInt8) : decodeLoop b none (byte :: bytes) =
      decodeLoop b (some (cnt, if wc = 0 then 2 ^ b.ulongBits - 1 else wc)) bytes := by
  simp only [decodeLoop, decodeStart, if_pos hmark, hcode, List.nil_append]

/-- The code points whose first byte has no bits of its own. -/
def ZeroLead (c : Char) : Prop :=
  (0x800 ≤ c.toNat ∧ c.toNat < 0x1000) ∨ (0x10000 ≤ c.toNat ∧ c.toNat < 0x40000)

instance (c : Char) : Decidable (ZeroLead c) := inferInstanceAs (Decidable (_ ∨ _))

theorem decode_char (c : Char) (bytes : List UInt8) :
    decodeLoop b none (String.utf8EncodeChar c ++ bytes) =
      (if ZeroLead c then [questionMark] else b.units c) ++ decodeLoop b none bytes := by
  have hmax := char_lt c
  have hval : c.val.toNat = c.toNat := rfl
  rw [String.utf8EncodeChar, hval]
  by_cases h1 : c.toNat ≤ 0x7F
  · have hkeep : ¬ ZeroLead c := by
      rintro (h | h) <;> omega
    obtain ⟨hascii, hnat⟩ := start_ascii c.toNat (by omega)
    have hunits : b.units c = [c.toNat] := by
      rw [units_eq, if_neg (by omega)]
    rw [if_pos h1, if_neg hkeep, hunits]
    simp only [List.cons_append, List.nil_append, decodeLoop, decodeStart, if_neg hascii, hnat,
      wchar_small (by omega : c.toNat < 0x10000)]
  · rw [if_neg h1]
    by_cases h2 : c.toNat ≤ 0x7FF
    · have hkeep : ¬ ZeroLead c := by
        rintro (h | h) <;> omega
      obtain ⟨hmark, hcode⟩ := start_two (c.toNat / 64) (by omega)
      have hsum : c.toNat / 64 * 64 + c.toNat % 64 = c.toNat := Nat.div_add_mod' _ _
      rw [if_pos h2, if_neg hkeep]
      simp only [List.cons_append, List.nil_append]
      rw [loop_start hmark hcode, if_neg (by omega), loop_last, shift_or _ _ _ (by omega) (by omega), hsum,
        decode_end_char]
    · rw [if_neg h2]
      by_cases h3 : c.toNat ≤ 0xFFFF
      · obtain ⟨hmark, hcode⟩ := start_three (c.toNat / 4096) (by omega)
        rw [if_pos h3]
        simp only [List.cons_append, List.nil_append]
        rw [loop_start hmark hcode, loop_tail, loop_last]
        by_cases hzero : c.toNat / 4096 = 0
        · have hlost : ZeroLead c := .inl ⟨by omega, by omega⟩
          rw [if_pos hzero, if_pos hlost,
            ones_question (ones_shift (ones_shift ones_start _) _) (by decide)]
        · have hkeep : ¬ ZeroLead c := by
            rintro (h | h) <;> omega
          have hsum : (c.toNat / 4096 * 64 + c.toNat / 64 % 64) * 64 + c.toNat % 64 = c.toNat := by
            omega
          have hfirst := shift_or b (c.toNat / 4096) (c.toNat / 64 % 64) (by omega) (by omega)
          rw [if_neg hzero, if_neg hkeep, hfirst, shift_or _ _ _ (by omega) (by omega), hsum,
            decode_end_char]
      · obtain ⟨hmark, hcode⟩ := start_four (c.toNat / 262144) (by omega)
        rw [if_neg h3]
        simp only [List.cons_append, List.nil_append]
        rw [loop_start hmark hcode, loop_tail, loop_tail, loop_last]
        by_cases hzero : c.toNat / 262144 = 0
        · have hlost : ZeroLead c := .inr ⟨by omega, by omega⟩
          rw [if_pos hzero, if_pos hlost,
            ones_question (ones_shift (ones_shift (ones_shift ones_start _) _) _) (by decide)]
        · have hkeep : ¬ ZeroLead c := by
            rintro (h | h) <;> omega
          have hsum : ((c.toNat / 262144 * 64 + c.toNat / 4096 % 64) * 64 + c.toNat / 64 % 64) * 64 +
              c.toNat % 64 = c.toNat := by omega
          have hfirst := shift_or b (c.toNat / 262144) (c.toNat / 4096 % 64) (by omega) (by omega)
          have hnext := shift_or b (c.toNat / 262144 * 64 + c.toNat / 4096 % 64) (c.toNat / 64 % 64)
            (by omega) (by omega)
          rw [if_neg hzero, if_neg hkeep, hfirst, hnext, shift_or _ _ _ (by omega) (by omega), hsum,
            decode_end_char]

/-- So a text comes back with a question mark for each of these code points. -/
theorem decode_text (b : Build) (s : List Char) :
    utf8Decode b (utf8Encode b (s.flatMap b.units)) =
      s.flatMap fun c => if ZeroLead c then [questionMark] else b.units c := by
  rw [encode_text, utf8Decode]
  induction s with
  | nil => rfl
  | cons c s ih => rw [List.flatMap_cons, decode_char, ih, List.flatMap_cons]

theorem units_not_question (h : ZeroLead c) (rest : List Nat) :
    (b.units c ++ rest).head? ≠ some questionMark := by
  have hmark : questionMark = 0x3F := rfl
  rw [units_eq]
  split
  · simp only [List.cons_append, List.head?_cons, ne_eq, Option.some_inj]
    omega
  · simp only [List.cons_append, List.head?_cons, ne_eq, Option.some_inj]
    rcases h with h | h <;> omega

/-- Encoding and decoding give the text back exactly if it has none of them. -/
theorem decode_encode_iff (b : Build) (s : List Char) :
    utf8Decode b (utf8Encode b (s.flatMap b.units)) = s.flatMap b.units ↔
      ∀ c ∈ s, ¬ ZeroLead c := by
  rw [decode_text]
  induction s with
  | nil => simp
  | cons c s ih =>
    rw [List.flatMap_cons, List.flatMap_cons, List.forall_mem_cons, ← ih]
    by_cases hlost : ZeroLead c
    · rw [if_pos hlost]
      refine iff_of_false (fun heq => ?_) fun h => h.1 hlost
      have hhead := congrArg List.head? heq
      exact units_not_question hlost _ hhead.symm
    · rw [if_neg hlost, List.append_cancel_left_eq]
      exact (and_iff_right hlost).symm

/-- The whole of Devanagari is lost, for one. -/
theorem devanagari_lost : ¬ ∀ (b : Build) (s : List Char),
    utf8Decode b (utf8Encode b (s.flatMap b.units)) = s.flatMap b.units := by
  intro hall
  exact absurd (hall ⟨false, 64, by decide⟩ ['अ']) (by decide)

end Khorost.Unicode
