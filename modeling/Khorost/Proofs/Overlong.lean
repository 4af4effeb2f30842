import Khorost.Proofs.Utf8

namespace Khorost.Unicode

/-- A first byte with the bits that it has itself, and six bits for each byte
behind it. -/
structure Sequence where
  bits : Nat
  rest : List Nat
  more : rest ≠ []
  most : rest.length ≤ 5
  first : bits < 2 ^ (6 - rest.length)
  six : ∀ x ∈ rest, x < 64

namespace Sequence

def bytes (q : Sequence) : List UInt8 :=
  UInt8.ofNat (q.bits + (256 - 2 ^ (7 - q.rest.length))) ::
    q.rest.map fun x => UInt8.ofNat (x + 0x80)

def value (q : Sequence) : Nat := q.rest.foldl (fun v x => v * 64 + x) q.bits

/-- There is a shorter encoding of the code point. -/
def Overlong (q : Sequence) : Prop :=
  q.value < 0x80 ∨ ∃ shorter : Sequence, shorter.value = q.value ∧
    shorter.rest.length < q.rest.length

end Sequence

/-- A sequence that is longer than it has to be. -/
structure OverlongSequence extends Sequence where
  overlong : toSequence.Overlong

/-- A sequence is decoded like a question mark in its place. -/
def ReadAsQuestion (b : Build) (before bytes after : List UInt8) : Prop :=
  utf8Decode b (before ++ bytes ++ after) =
    utf8Decode b (before ++ UInt8.ofNat questionMark :: after)

variable {b : Build}

theorem six_bounds {rest : List Nat} (hsix : ∀ x ∈ rest, x < 64) (bits : Nat) :
    bits * 64 ^ rest.length ≤ rest.foldl (fun v x => v * 64 + x) bits ∧
      rest.foldl (fun v x => v * 64 + x) bits < (bits + 1) * 64 ^ rest.length := by
  induction rest generalizing bits with
  | nil => simp
  | cons x rest ih =>
    obtain ⟨hlow, hhigh⟩ := ih (fun y hy => hsix y (List.mem_cons_of_mem _ hy)) (bits * 64 + x)
    have hx := hsix x (List.mem_cons_self ..)
    rw [List.foldl_cons, List.length_cons, Nat.pow_succ, Nat.mul_comm (64 ^ _), ← Nat.mul_assoc,
      ← Nat.mul_assoc]
    refine ⟨Nat.le_trans (Nat.mul_le_mul_right _ (Nat.le_add_right ..)) hlow, ?_⟩
    exact Nat.lt_of_lt_of_le hhigh (Nat.mul_le_mul_right _ (by omega))

/-- An overlong sequence has no bits in its first byte, or is one of two bytes
with the lowest of them. -/
theorem overlong_bits {q : Sequence} (h : q.Overlong) :
    q.bits = 0 ∨ (q.bits = 1 ∧ q.rest.length = 1) := by
  obtain ⟨hlow, -⟩ := six_bounds q.six q.bits
  have hpos := List.length_pos_iff.mpr q.more
  rcases Nat.eq_zero_or_pos q.bits with hzero | hbits
  · exact .inl hzero
  have hleast : 64 ^ q.rest.length ≤ q.value :=
    Nat.le_trans (Nat.le_mul_of_pos_left _ hbits) hlow
  refine .inr ?_
  rcases h with hsmall | ⟨shorter, hvalue, hlen⟩
  · have hone : q.rest.length = 1 := by
      by_contra hne
      have htwo : 64 ^ 2 ≤ 64 ^ q.rest.length := Nat.pow_le_pow_right (by decide) (by omega)
      omega
    rw [hone] at hlow
    have hlow : q.bits * 64 ^ 1 ≤ q.value := hlow
    exact ⟨by omega, hone⟩
  · exfalso
    obtain ⟨-, hhigh⟩ := six_bounds shorter.six shorter.bits
    have hfirst : (shorter.bits + 1) * 64 ^ shorter.rest.length ≤
        2 ^ (6 - shorter.rest.length) * 64 ^ shorter.rest.length :=
      Nat.mul_le_mul_right _ shorter.first
    have hmost := shorter.most
    have hpow : 2 ^ (6 - shorter.rest.length) * 64 ^ shorter.rest.length ≤ 64 ^ q.rest.length := by
      have hsixty : ∀ n, 64 ^ n = 2 ^ (6 * n) := fun n => Nat.pow_mul 2 6 n ▸ rfl
      rw [hsixty, hsixty, ← Nat.pow_add]
      exact Nat.pow_le_pow_right (by decide) (by omega)
    have hshorter : shorter.value < (shorter.bits + 1) * 64 ^ shorter.rest.length := hhigh
    omega

/-- What stands in front of a text is decoded by itself. -/
theorem decode_behind (b : Build) (before : List UInt8) (pending : Option (Nat × Nat)) :
    ∃ out pending', ∀ bytes,
      decodeLoop b pending (before ++ bytes) = out ++ decodeLoop b pending' bytes := by
  induction before generalizing pending with
  | nil => exact ⟨[], pending, fun _ => rfl⟩
  | cons c before ih =>
    cases pending with
    | none =>
      obtain ⟨out, pending', h⟩ := ih (decodeStart b c).2
      refine ⟨(decodeStart b c).1 ++ out, pending', fun bytes => ?_⟩
      rw [List.cons_append, decodeLoop, h, List.append_assoc]
    | some state =>
      obtain ⟨out, pending', h⟩ := ih (decodeNext b state.1 state.2 c).2
      refine ⟨(decodeNext b state.1 state.2 c).1 ++ out, pending', fun bytes => ?_⟩
      rw [List.cons_append, decodeLoop, h, List.append_assoc]

/-- A byte that begins a sequence does so in the middle of another one too. -/
theorem decode_breaks (b : Build) {c : UInt8} (hc : 0x80 ≠ (0xC0 &&& c)) (cnt wc : Nat)
    (bytes : List UInt8) :
    decodeLoop b (some (cnt, wc)) (c :: bytes) = b.wchar wc :: decodeLoop b none (c :: bytes) := by
  rw [decodeLoop, decodeLoop]
  simp only [decodeNext, if_pos hc, List.cons_append]

theorem question_start (b : Build) (bytes : List UInt8) :
    decodeLoop b none (UInt8.ofNat questionMark :: bytes) =
      questionMark :: decodeLoop b none bytes := by
  have hascii := (start_ascii questionMark (by decide)).1
  simp only [decodeLoop, decodeStart, if_neg hascii]
  exact congrArg (· :: decodeLoop b none bytes)
    (wchar_small (show questionMark < 0x10000 by decide))

/-- Whether a sequence is read as a question mark does not depend on what stands
in front of it. -/
theorem read_question_iff {c : UInt8} (hc : 0x80 ≠ (0xC0 &&& c))
    (before bytes after : List UInt8) :
    ReadAsQuestion b before (c :: bytes) after ↔
      decodeLoop b none (c :: (bytes ++ after)) = questionMark :: decodeLoop b none after := by
  obtain ⟨out, pending, h⟩ := decode_behind b before none
  have hq : (0x80 : UInt8) ≠ (0xC0 &&& UInt8.ofNat questionMark) := by decide
  rw [ReadAsQuestion, utf8Decode, utf8Decode, List.append_assoc, List.cons_append, h, h,
    List.append_cancel_left_eq, ← question_start]
  cases pending with
  | none => exact Iff.rfl
  | some state =>
    rw [decode_breaks b hc, decode_breaks b hq, List.cons.injEq]
    exact and_iff_right rfl

/-- The bytes behind a first byte without bits of its own. -/
theorem ones_tail (hones : Ones b n wc) {rest : List Nat} (hne : rest ≠ [])
    (hsix : ∀ x ∈ rest, x < 64) (hn : n + 6 * rest.length ≤ 31) (after : List UInt8) :
    decodeLoop b (some (rest.length, wc)) (rest.map (fun x => UInt8.ofNat (x + 0x80)) ++ after) =
      questionMark :: decodeLoop b none after := by
  induction rest generalizing n wc with
  | nil => exact absurd rfl hne
  | cons x rest ih =>
    obtain ⟨hmark, hbits⟩ := tail_code x (hsix x (List.mem_cons_self ..))
    have hnext := ones_shift hones x
    rw [List.length_cons] at hn
    rw [List.map_cons, List.cons_append, decodeLoop]
    simp only [decodeNext, if_neg hmark, hbits, List.length_cons, Nat.add_sub_cancel]
    cases rest with
    | nil =>
      rw [if_pos List.length_nil, ones_question hnext (by omega)]
      rfl
    | cons y rest =>
      rw [if_neg (by simp)]
      exact ih hnext (List.cons_ne_nil _ _) (fun z hz => hsix z (List.mem_cons_of_mem _ hz))
        (by omega)

theorem decode_end_small (b : Build) (h : v < 0x10000) : decodeEnd b v = [v] := by
  have hclear : ¬ (0x80000000 &&& v ≠ 0) := by
    rw [range_mark, Nat.testBit_lt_two_pow (Nat.lt_trans h (by decide))]
    simp
  have hpair : ¬ (b.shortWchar = true ∧ 0xFFFF < v) := fun hp => absurd hp.2 (by omega)
  simp only [decodeEnd, if_neg hclear, if_neg hpair, wchar_small h]

theorem first_bytes : ∀ n < 5, ∀ bits < 2 ^ (5 - n),
    UInt8.ofNat (bits + (256 - 2 ^ (6 - n))) &&& 0x80 ≠ 0 ∧
      0x80 ≠ (0xC0 &&& UInt8.ofNat (bits + (256 - 2 ^ (6 - n)))) ∧
      startCode (UInt8.ofNat (bits + (256 - 2 ^ (6 - n)))) = some (n + 1, bits) := by decide

theorem no_bits_byte : ∀ n < 5, UInt8.ofNat (0 + (256 - 2 ^ (6 - n))) ≠ 0xC1 := by decide

/-- An overlong sequence is read as a question mark exactly if it does not begin
with C1, and decoding goes on behind it. -/
theorem overlong_question_iff (b : Build) (q : OverlongSequence) (before after : List UInt8) :
    ReadAsQuestion b before q.bytes after ↔ q.bytes.head? ≠ some 0xC1 := by
  obtain ⟨q, hoverlong⟩ := q
  obtain ⟨n, hn⟩ : ∃ n, q.rest.length = n + 1 :=
    ⟨_, (Nat.sub_add_cancel (List.length_pos_iff.mpr q.more)).symm⟩
  have hmost := q.most
  have hfirst := q.first
  rw [hn, show 6 - (n + 1) = 5 - n by omega] at hfirst
  obtain ⟨hmark, hbreaks, hcode⟩ := first_bytes n (by omega) q.bits hfirst
  have hstart := loop_start (b := b) hmark hcode
    (q.rest.map (fun x => UInt8.ofNat (x + 0x80)) ++ after)
  rw [Sequence.bytes, hn, show 7 - (n + 1) = 6 - n by omega, read_question_iff hbreaks, hstart,
    List.head?_cons]
  rcases overlong_bits hoverlong with hzero | ⟨hone, hlen⟩
  · rw [if_pos hzero, ← hn, ones_tail ones_start q.more q.six (by omega), hzero]
    exact iff_of_true rfl fun h => no_bits_byte n (by omega) (Option.some.inj h)
  · obtain ⟨x, hrest⟩ := List.length_eq_one_iff.mp hlen
    have hx := q.six x (hrest ▸ List.mem_singleton_self x)
    obtain ⟨hmark, hbits⟩ := tail_code x hx
    have hvalue := shift_or b 1 x (by decide) hx
    refine iff_of_false (fun h => ?_) fun h => h ?_
    · -- the code point is 64 or more
      rw [if_neg (by omega), ← hn, hrest, hone] at h
      simp only [List.length_singleton, List.map_cons, List.map_nil, List.cons_append,
        List.nil_append, decodeLoop, decodeNext, if_neg hmark, hbits, hvalue, Nat.sub_self,
        if_true, decode_end_small b (show 1 * 64 + x < 0x10000 by omega)] at h
      have hq : questionMark = 63 := rfl
      have hhead := (List.cons.inj h).1
      omega
    · rw [hone, show n = 0 by omega]
      rfl

def longAt : OverlongSequence where
  bits := 1
  rest := [0]
  more := by decide
  most := by decide
  first := by decide
  six := by decide
  overlong := .inl (by decide)

/-- It is decoded to itself. -/
theorem overlong_at_decoded :
    ¬ ∀ (b : Build) (q : OverlongSequence) (before after : List UInt8),
      ReadAsQuestion b before q.bytes after := by
  intro h
  have hat := h ⟨false, 64, by decide⟩ longAt [] []
  rw [ReadAsQuestion] at hat
  exact absurd hat (by decide)

end Khorost.Unicode
