import Khorost.Util.RawBuffer

namespace Khorost

open Blocks

variable {α : Type}

/-- An allocator that never fails: the elements stay, as many as there is room for. -/
structure Succeeds (realloc : Realloc α) : Prop where
  grows : ∀ old n, ∃ new, realloc old n = some new ∧ new.length = n ∧ old.take n <+: new

namespace RawBuffer

/-- The buffer is sound and filled with `xs`. -/
structure Holds (b : RawBuffer α) (xs : List α) : Prop where
  capacity : b.buffer.length = b.fullSize
  small : b.fullSize ≤ 2 ^ 63 + 2048
  fill : b.readyPosition = xs.length
  short : xs.length < 2 ^ 63
  stands : xs <+: b.buffer

variable {realloc : Realloc α} {b right : RawBuffer α} {xs ys : List α} {n : Nat}

theorem Holds.fits (h : Holds b xs) : b.readyPosition ≤ b.fullSize := by
  rw [← h.capacity, h.fill]
  exact h.stands.length_le

theorem Holds.content (h : Holds b xs) : b.content = xs := by
  rw [RawBuffer.content, h.fill]
  exact (List.prefix_iff_eq_take.mp h.stands).symm

theorem holds_empty : Holds (α := α) empty [] :=
  ⟨rfl, Nat.zero_le _, rfl, Nat.two_pow_pos 63, List.prefix_rfl⟩

theorem Holds.flush (h : Holds b xs) : Holds b.flushFreeSize [] :=
  ⟨h.capacity, h.small, rfl, Nat.two_pow_pos 63, List.nil_prefix⟩

theorem Holds.free (h : Holds b xs) : b.getFreeSize = b.fullSize - xs.length := by
  have hle := h.fits
  have hsmall := h.small
  rw [getFreeSize, size_sub_eq hle (by omega), h.fill]

theorem Holds.increment (h : Holds b xs) (n : Nat) :
    Holds (b.incrementFreeSize n) (xs.take (xs.length - n)) := by
  have hfill := h.fill
  have hshort := h.short
  have hready : (b.incrementFreeSize n).readyPosition = xs.length - n := by
    unfold incrementFreeSize
    dsimp only
    split
    · rw [size_sub_eq (by omega) (by omega), hfill]
    · omega
  have hlen : (xs.take (xs.length - n)).length = xs.length - n := by
    rw [List.length_take]
    omega
  refine ⟨h.capacity, h.small, ?_, ?_, (List.take_prefix _ _).trans h.stands⟩
  · rw [hready, hlen]
  · rw [hlen]
    omega

theorem room_for (hn : n < 2 ^ 63 + 1024) :
    let full := sizeMul (n / AutoBuffer.defaultBufferGranulate + 1) AutoBuffer.defaultBufferGranulate
    n ≤ full ∧ full ≤ n + 1024 := by
  simp only [AutoBuffer.defaultBufferGranulate, sizeMul]
  omega

theorem Holds.grow (hr : Succeeds realloc) (h : Holds b xs) {full : Nat}
    (hlarge : b.fullSize ≤ full) (hsmall : full ≤ 2 ^ 63 + 2048) :
    Holds { b with fullSize := full, buffer := (realloc b.buffer full).getD b.buffer } xs := by
  obtain ⟨new, hnew, hlen, hkept⟩ := hr.grows b.buffer full
  rw [hnew]
  refine ⟨hlen, hsmall, h.fill, h.short, h.stands.trans ?_⟩
  rwa [List.take_of_length_le (h.capacity ▸ hlarge)] at hkept

theorem Holds.check (hr : Succeeds realloc) (h : Holds b xs) (hn : n < 2 ^ 63) :
    Holds (b.checkSize realloc n) xs ∧ n ≤ (b.checkSize realloc n).fullSize := by
  have hshort := h.short
  have hgran : sizeAdd b.readyPosition AutoBuffer.defaultBufferGranulate = xs.length + 1024 := by
    rw [h.fill]
    exact size_add_eq (show xs.length + 1024 < 2 ^ 64 by omega)
  unfold checkSize
  rw [hgran]
  -- the demand with the default put in
  obtain ⟨d, hd, hdn, hdlt⟩ : ∃ d, (if n = 0 then xs.length + 1024 else n) = d ∧ n ≤ d ∧
      d < 2 ^ 63 + 1024 := by
    refine ⟨_, rfl, ?_⟩
    split <;> omega
  rw [hd]
  obtain ⟨hroom, hmost⟩ := room_for hdlt
  dsimp only
  split
  · exact ⟨h.grow hr (by omega) (by omega), hdn.trans hroom⟩
  · exact ⟨h, by omega⟩

theorem Holds.copy (h : Holds b xs) (hfits : xs.length + ys.length ≤ b.fullSize) :
    ∃ buffer, b.memcpy b.readyPosition ys = some { b with buffer := buffer } ∧
      buffer.length = b.fullSize ∧ xs ++ ys <+: buffer := by
  obtain ⟨rest, hrest⟩ := h.stands
  have hcap := h.capacity
  rw [← hrest, List.length_append] at hcap
  have hold : (rest.take ys.length).length = ys.length := by
    rw [List.length_take]
    omega
  have hwrite := write_at xs (rest.drop ys.length) hold
  rw [List.append_assoc, List.take_append_drop, hrest, ← h.fill] at hwrite
  refine ⟨_, by rw [memcpy, hwrite]; rfl, ?_, List.prefix_append _ _⟩
  rw [write_length hwrite, h.capacity]

theorem Holds.append (hr : Succeeds realloc) (h : Holds b xs)
    (hn : (xs ++ ys).length < 2 ^ 63) :
    ∃ b', b.append realloc ys = some b' ∧ Holds b' (xs ++ ys) := by
  have hlen : (xs ++ ys).length = xs.length + ys.length := List.length_append
  have hadd : sizeAdd b.readyPosition ys.length = xs.length + ys.length := by
    rw [h.fill, size_add_eq (by omega)]
  obtain ⟨grown, hgrown, hb, hroom⟩ : ∃ grown, (if b.getFreeSize < ys.length then
      b.checkSize realloc (sizeAdd b.readyPosition ys.length) else b) = grown ∧ Holds grown xs ∧
      xs.length + ys.length ≤ grown.fullSize := by
    refine ⟨_, rfl, ?_⟩
    rw [hadd, h.free]
    have hfits := h.fits
    have hfill := h.fill
    split
    · exact h.check hr (by omega)
    · exact ⟨h, by omega⟩
  obtain ⟨buffer, hcopy, hcap, hstands⟩ := hb.copy hroom
  have hready : sizeAdd grown.readyPosition ys.length = (xs ++ ys).length := by
    rw [hb.fill, size_add_eq (by omega), hlen]
  refine ⟨{ grown with buffer := buffer, readyPosition := (xs ++ ys).length }, ?_,
    hcap, hb.small, rfl, hn, hstands⟩
  unfold RawBuffer.append
  rw [hgrown]
  dsimp only
  rw [hcopy, Option.bind_eq_bind, Option.bind_some, hready]

theorem Holds.filled (h : Holds b xs) (hfree : ys.length ≤ b.getFreeSize)
    (hn : (xs ++ ys).length < 2 ^ 63) :
    ∃ b', b.fill ys = some b' ∧ Holds b' (xs ++ ys) := by
  have hlen : (xs ++ ys).length = xs.length + ys.length := List.length_append
  have hfits := h.fits
  have hfill := h.fill
  rw [h.free] at hfree
  obtain ⟨buffer, hcopy, hcap, hstands⟩ := h.copy (by omega : xs.length + ys.length ≤ b.fullSize)
  refine ⟨decrementFreeSize { b with buffer := buffer } ys.length,
    by rw [RawBuffer.fill, hcopy]; rfl, hcap, h.small, ?_, hn, hstands⟩
  have hadd : sizeAdd b.readyPosition ys.length = xs.length + ys.length := by
    rw [hfill, size_add_eq (by omega)]
  dsimp only [decrementFreeSize]
  rw [hadd, hlen]
  split <;> omega

def cutHead (xs : List α) (n : Nat) : List α := if n ≤ xs.length then xs.drop n else xs

theorem Holds.cut (h : Holds b xs) (n : Nat) :
    ∃ b', b.cutFromHead n = some b' ∧ Holds b' (cutHead xs n) := by
  have hfill := h.fill
  have hshort := h.short
  unfold cutFromHead cutHead
  by_cases hskip : n = 0 ∨ b.readyPosition < n
  · have hkept : (if n ≤ xs.length then xs.drop n else xs) = xs := by
      rcases hskip with rfl | hlt
      · rw [if_pos (Nat.zero_le _), List.drop_zero]
      · rw [if_neg (by omega)]
    rw [if_pos hskip, hkept]
    exact ⟨b, rfl, h⟩
  have hle : n ≤ xs.length := by omega
  have hsub : sizeSub b.readyPosition n = (xs.drop n).length := by
    rw [size_sub_eq (by omega) (by omega), List.length_drop, hfill]
  have hshort' : (xs.drop n).length < 2 ^ 63 := by
    rw [List.length_drop]
    omega
  rw [if_neg hskip, if_pos hle, hsub]
  by_cases hall : n ≠ b.readyPosition
  · rw [if_pos hall]
    obtain ⟨rest, hrest⟩ := h.stands
    have hsplit : [] ++ xs.take n ++ xs.drop n ++ rest = b.buffer := by
      rw [List.nil_append, List.take_append_drop, hrest]
    obtain ⟨mid, rest', hmid, hmove⟩ := move_block [] (xs.take n) (xs.drop n) rest 0
      (by simp only [List.length_append]; omega)
    rw [List.eq_nil_of_length_eq_zero hmid, hsplit, List.length_take, Nat.min_eq_left hle] at hmove
    simp only [List.length_nil, Nat.zero_add, List.nil_append] at hmove
    have hcap := move_length hmove
    refine ⟨⟨xs.drop n ++ rest', b.fullSize, (xs.drop n).length⟩, ?_, hcap.trans h.capacity,
      h.small, rfl, hshort', List.prefix_append _ _⟩
    simp only [memmove, hmove, Option.map_some, Option.bind_eq_bind, Option.bind_some, hsub]
  · have hnil : xs.drop n = [] := List.drop_eq_nil_of_le (by omega)
    rw [hnil] at hsub ⊢
    refine ⟨b.flushFreeSize, ?_, h.flush⟩
    rw [if_neg hall]
    simp only [Option.bind_eq_bind, Option.bind_some, hsub, List.length_nil, flushFreeSize]

theorem Holds.assign [DecidableEq α] (hr : Succeeds realloc) (h : Holds right xs) :
    ∃ b', RawBuffer.assign realloc right = some b' ∧ Holds b' xs := by
  obtain ⟨new, hnew, hlen, -⟩ := hr.grows [] right.fullSize
  have hcap := h.capacity
  obtain ⟨rest, hrest⟩ := h.stands
  unfold RawBuffer.assign
  rw [hnew]
  dsimp only [Option.getD_some]
  split
  · have hread := read_at [] xs rest
    rw [List.nil_append, hrest, List.length_nil, ← h.fill] at hread
    have hfits := h.stands.length_le
    have hold : (new.take xs.length).length = xs.length := by
      rw [List.length_take]
      omega
    have hwrite := write_at [] (new.drop xs.length) hold
    simp only [List.nil_append, List.take_append_drop, List.length_nil] at hwrite
    refine ⟨⟨xs ++ new.drop xs.length, right.fullSize, right.readyPosition⟩, ?_,
      (write_length hwrite).trans hlen, h.small, h.fill, h.short, List.prefix_append _ _⟩
    rw [hread, Option.bind_some, memcpy, hwrite]
    rfl
  · next hnull =>
    have hempty : right.buffer = [] ∨ new = [] := by
      by_contra hboth
      exact hnull ⟨fun he => hboth (.inr he), fun he => hboth (.inl he)⟩
    have hzero : right.fullSize = 0 := by
      rcases hempty with he | he
      · rw [← hcap, he, List.length_nil]
      · rw [← hlen, he, List.length_nil]
    have hnil : xs = [] := by
      have hfits := h.fits
      have hfill := h.fill
      exact List.eq_nil_of_length_eq_zero (by omega)
    subst hnil
    exact ⟨_, rfl, hlen, h.small, h.fill, h.short, List.nil_prefix⟩

variable {front back m r : List α}

theorem Holds.replace_at (hr : Succeeds realloc) (h : Holds b (front ++ m ++ back))
    (hn : (front ++ r ++ back).length < 2 ^ 63) :
    ∃ b', b.replaceAt realloc m r front.length = some b' ∧ Holds b' (front ++ r ++ back) := by
  have hfill := h.fill
  have hshort := h.short
  simp only [List.length_append] at hfill hshort hn
  -- the capacity is enough for what comes after
  obtain ⟨grown, hgrown, hb, hroom⟩ : ∃ grown, (if r.length - m.length ≠ 0 then
      b.checkSize realloc (sizeAdd b.readyPosition (r.length - m.length)) else b) = grown ∧
      Holds grown (front ++ m ++ back) ∧
      front.length + r.length + back.length ≤ grown.fullSize := by
    have hfits := h.fits
    refine ⟨_, rfl, ?_⟩
    split
    · rw [size_add_eq (by omega)]
      obtain ⟨hc, hfull⟩ := h.check hr (n := b.readyPosition + (r.length - m.length)) (by omega)
      exact ⟨hc, by omega⟩
    · exact ⟨h, by omega⟩
  have hready : grown.readyPosition = b.readyPosition := by
    rw [hb.fill, h.fill]
  obtain ⟨rest, hrest⟩ := hb.stands
  -- the tail stands where it belongs
  obtain ⟨mid, rest', hmid, hlen, hmoved⟩ : ∃ mid rest', mid.length = r.length ∧
      (front ++ mid ++ back ++ rest').length = grown.fullSize ∧
      (if r.length - m.length ≠ 0 ∨ m.length - r.length ≠ 0 then
        grown.memmove (sizeAdd front.length r.length) (sizeAdd front.length m.length)
          (sizeSub grown.readyPosition (sizeAdd front.length m.length))
      else some grown) = some { grown with buffer := front ++ mid ++ back ++ rest' } := by
    split
    · have hcap := hb.capacity
      rw [← hrest] at hcap
      obtain ⟨mid, rest', hmid, hmove⟩ := move_block front m back rest r.length (by omega)
      refine ⟨mid, rest', hmid, (move_length hmove).trans hcap, ?_⟩
      have htail : sizeSub grown.readyPosition (front.length + m.length) = back.length := by
        rw [hready, size_sub_eq (by omega) (by omega)]
        omega
      rw [size_add_eq (by omega), size_add_eq (by omega), htail, memmove, ← hrest, hmove]
      rfl
    · exact ⟨m, rest, by omega, by rw [hrest, hb.capacity], by rw [hrest]⟩
  have hwrite := write_at front (back ++ rest') hmid
  simp only [← List.append_assoc] at hwrite
  have hlast : (if r.length - m.length ≠ 0 then
      sizeAdd grown.readyPosition (r.length - m.length)
      else sizeSub grown.readyPosition (m.length - r.length)) = (front ++ r ++ back).length := by
    simp only [List.length_append]
    rw [hready]
    split
    · rw [size_add_eq (by omega)]
      omega
    · rw [size_sub_eq (by omega) (by omega)]
      omega
  refine ⟨⟨front ++ r ++ back ++ rest', grown.fullSize, (front ++ r ++ back).length⟩, ?_, ?_,
    hb.small, rfl, by simpa only [List.length_append] using hn, List.prefix_append _ _⟩
  · unfold RawBuffer.replaceAt
    dsimp only
    rw [hgrown, hmoved]
    simp only [memcpy, hwrite, Option.map_some, Option.bind_eq_bind, Option.bind_some, hlast]
  · exact (write_length hwrite).trans hlen

theorem Holds.read_back (h : Holds b (front ++ back)) (hle : m.length ≤ back.length) :
    read b.buffer front.length m.length = some (back.take m.length) := by
  obtain ⟨rest, hrest⟩ := h.stands
  have hat := read_at front (back.take m.length) (back.drop m.length ++ rest)
  rw [List.length_take, Nat.min_eq_left hle, List.append_assoc, ← List.append_assoc
    (back.take _), List.take_append_drop, ← List.append_assoc, hrest] at hat
  exact hat

variable [DecidableEq α]

theorem loop_past (h : maxPos < km) (fuel : Nat) (result : Bool) :
    replaceLoop realloc m r single (fuel + 1) b km maxPos result = some (b, result) := by
  rw [replaceLoop, if_neg (Nat.not_le_of_lt h)]

/-- Without a match the loop goes on with the next element. -/
theorem Holds.loop_miss (h : Holds b (front ++ x :: back)) (hmax : front.length ≤ maxPos)
    (hle : m.length ≤ (x :: back).length) (hmiss : ¬ m <+: x :: back) (fuel : Nat) (result : Bool) :
    replaceLoop realloc m r single (fuel + 1) b front.length maxPos result =
      replaceLoop realloc m r single fuel b (front ++ [x]).length maxPos result := by
  have hshort := h.short
  have hne : (x :: back).take m.length ≠ m := fun he => hmiss (List.prefix_iff_eq_take.mpr he.symm)
  have hnext : sizeAdd front.length 1 = (front ++ [x]).length := by
    rw [List.length_append] at hshort
    rw [size_add_eq (by omega), List.length_append, List.length_singleton]
  rw [replaceLoop, if_pos hmax, h.read_back hle]
  simp only [Option.bind_eq_bind, Option.bind_some]
  rw [if_neg hne, hnext]

/-- The loop from behind a front in which nothing begins, for a single match. -/
theorem Holds.replace_loop (front : List α) (hr : Succeeds realloc) (h : Holds b (front ++ back))
    (hm : m.length ≤ (front ++ back).length)
    (hn : (front ++ (replaceFirst m r back).getD back).length < 2 ^ 63)
    (hfuel : back.length < fuel) :
    ∃ b', replaceLoop realloc m r true fuel b front.length ((front ++ back).length - m.length)
        false = some (b', (replaceFirst m r back).isSome) ∧
      Holds b' (front ++ (replaceFirst m r back).getD back) := by
  induction fuel generalizing front back with
  | zero => omega
  | succ fuel ih =>
    rw [List.length_append] at hm
    have hlen : (front ++ back).length = front.length + back.length := List.length_append
    by_cases hpast : back.length < m.length
    · rw [loop_past (by omega), replace_none_short hpast]
      exact ⟨b, rfl, h⟩
    by_cases hhere : m <+: back
    · rw [replaceLoop, if_pos (by omega), h.read_back (by omega)]
      simp only [Option.bind_eq_bind, Option.bind_some]
      rw [if_pos (List.prefix_iff_eq_take.mp hhere).symm]
      rw [replace_here hhere, Option.getD_some] at hn ⊢
      obtain ⟨back, rfl⟩ := hhere
      rw [List.drop_left] at hn ⊢
      rw [← List.append_assoc] at h hn ⊢
      obtain ⟨b', hat, hb'⟩ := h.replace_at hr hn
      exact ⟨b', by rw [hat]; rfl, List.append_assoc front r back ▸ hb'⟩
    cases back with
    | nil =>
      have hnil : m = [] := List.eq_nil_of_length_eq_zero (by simpa using hpast)
      exact absurd (hnil ▸ List.nil_prefix) hhere
    | cons x back =>
      have hmove : (front ++ [x]) ++ back = front ++ x :: back := by simp
      have hafter : front ++ ((replaceFirst m r (x :: back)).getD (x :: back)) =
          (front ++ [x]) ++ (replaceFirst m r back).getD back := by
        rw [replace_later x hhere]
        cases replaceFirst m r back <;> simp
      rw [h.loop_miss (by omega) (Nat.not_lt.mp hpast) hhere]
      rw [hafter] at hn ⊢
      rw [← hmove] at h ⊢
      rw [replace_later x hhere, Option.isSome_map]
      exact ih _ h (by rw [hmove, hlen]; exact hm) hn (Nat.lt_of_succ_lt_succ hfuel)

theorem Holds.replace (hr : Succeeds realloc) (h : Holds b xs)
    (hn : ((replaceFirst m r xs).getD xs).length < 2 ^ 63) :
    ∃ b', b.replace realloc m r true = some (b', (replaceFirst m r xs).isSome) ∧
      Holds b' ((replaceFirst m r xs).getD xs) := by
  have hfill := h.fill
  have hshort := h.short
  unfold RawBuffer.replace
  split
  · rw [replace_none_short (by omega)]
    exact ⟨b, rfl, h⟩
  · rw [size_sub_eq (by omega) (by omega), hfill]
    exact Holds.replace_loop [] hr h (by simp only [List.nil_append]; omega) hn
      (by omega)

/-- The operations on several buffers: each names the buffer that it changes. -/
inductive Op (α : Type)
  | append (i : Nat) (xs : List α)
  | cutFromHead (i n : Nat)
  | incrementFreeSize (i n : Nat)
  /-- A write of `xs` to the free area and `decrement_free_size` by as many. -/
  | fill (i : Nat) (xs : List α)
  | flushFreeSize (i : Nat)
  | checkSize (i n : Nat)
  | assign (i j : Nat)
  | replace (i : Nat) (m r : List α)

def perform (realloc : Realloc α) (s : Nat → RawBuffer α) :
    Op α → Option (Nat → RawBuffer α)
  | .append i xs => ((s i).append realloc xs).map (Function.update s i)
  | .cutFromHead i n => ((s i).cutFromHead n).map (Function.update s i)
  | .incrementFreeSize i n => some (Function.update s i ((s i).incrementFreeSize n))
  | .fill i xs => ((s i).fill xs).map (Function.update s i)
  | .flushFreeSize i => some (Function.update s i (s i).flushFreeSize)
  | .checkSize i n => some (Function.update s i ((s i).checkSize realloc n))
  | .assign i j =>
    if i = j then some s else (RawBuffer.assign realloc (s j)).map (Function.update s i)
  | .replace i m r =>
    ((s i).replace realloc m r true).map fun (b, _) => Function.update s i b

def act (s : Nat → List α) : Op α → Nat → List α
  | .append i xs => Function.update s i (s i ++ xs)
  | .cutFromHead i n => Function.update s i (cutHead (s i) n)
  | .incrementFreeSize i n => Function.update s i ((s i).take ((s i).length - n))
  | .fill i xs => Function.update s i (s i ++ xs)
  | .flushFreeSize i => Function.update s i []
  | .checkSize _ _ => s
  | .assign i j => Function.update s i (s j)
  | .replace i m r => Function.update s i ((replaceFirst m r (s i)).getD (s i))

/-- The sizes that an operation leads to are below `2 ^ 63`, and what is written
to the free area has been checked to fit. -/
def Fits (s : Nat → RawBuffer α) (xs : Nat → List α) : Op α → Prop
  | .append i ys => (xs i ++ ys).length < 2 ^ 63
  | .fill i ys => ys.length ≤ (s i).getFreeSize ∧ (xs i ++ ys).length < 2 ^ 63
  | .checkSize _ n => n < 2 ^ 63
  | .replace i m r => ((replaceFirst m r (xs i)).getD (xs i)).length < 2 ^ 63
  | _ => True

instance decideFits (s : Nat → RawBuffer α) (xs : Nat → List α) :
    ∀ op, Decidable (Fits s xs op)
  | .append i ys => inferInstanceAs (Decidable ((xs i ++ ys).length < 2 ^ 63))
  | .fill i ys => inferInstanceAs
      (Decidable (ys.length ≤ (s i).getFreeSize ∧ (xs i ++ ys).length < 2 ^ 63))
  | .checkSize _ n => inferInstanceAs (Decidable (n < 2 ^ 63))
  | .replace i m r => inferInstanceAs
      (Decidable (((replaceFirst m r (xs i)).getD (xs i)).length < 2 ^ 63))
  | .cutFromHead _ _ | .incrementFreeSize _ _ | .flushFreeSize _ | .assign _ _ => .isTrue trivial

def performAll (realloc : Realloc α) (s : Nat → RawBuffer α) :
    List (Op α) → Option (Nat → RawBuffer α)
  | [] => some s
  | op :: ops => (perform realloc s op).bind fun s => performAll realloc s ops

/-- Every operation of the run fits where it is performed. -/
def Allowed (realloc : Realloc α) (s : Nat → RawBuffer α) (xs : Nat → List α) :
    List (Op α) → Prop
  | [] => True
  | op :: ops =>
    Fits s xs op ∧ ∀ s' ∈ perform realloc s op, Allowed realloc s' (act xs op) ops

instance decideAllowed (realloc : Realloc α) (s : Nat → RawBuffer α) (xs : Nat → List α) :
    ∀ ops, Decidable (Allowed realloc s xs ops)
  | [] => .isTrue trivial
  | op :: ops =>
    have (s' : Nat → RawBuffer α) := decideAllowed realloc s' (act xs op) ops
    inferInstanceAs (Decidable (Fits s xs op ∧
      ∀ s' ∈ perform realloc s op, Allowed realloc s' (act xs op) ops))

variable {s : Nat → RawBuffer α} {lists : Nat → List α} {op : Op α}

omit [DecidableEq α] in
theorem update_holds (h : ∀ i, Holds (s i) (lists i)) (hb : Holds b xs) (i j : Nat) :
    Holds (Function.update s i b j) (Function.update lists i xs j) := by
  by_cases hij : j = i
  · subst hij
    simpa using hb
  · rw [Function.update_of_ne hij, Function.update_of_ne hij]
    exact h j

theorem perform_holds (hr : Succeeds realloc) (h : ∀ i, Holds (s i) (lists i))
    (hf : Fits s lists op) :
    ∃ s', perform realloc s op = some s' ∧ ∀ i, Holds (s' i) (act lists op i) := by
  cases op with
  | append i ys =>
    obtain ⟨b, hb, hholds⟩ := (h i).append hr hf
    exact ⟨_, by rw [perform, hb]; rfl, update_holds h hholds i⟩
  | cutFromHead i n =>
    obtain ⟨b, hb, hholds⟩ := (h i).cut n
    exact ⟨_, by rw [perform, hb]; rfl, update_holds h hholds i⟩
  | incrementFreeSize i n => exact ⟨_, rfl, update_holds h ((h i).increment n) i⟩
  | fill i ys =>
    obtain ⟨b, hb, hholds⟩ := (h i).filled hf.1 hf.2
    exact ⟨_, by rw [perform, hb]; rfl, update_holds h hholds i⟩
  | flushFreeSize i => exact ⟨_, rfl, update_holds h (h i).flush i⟩
  | checkSize i n =>
    refine ⟨_, rfl, fun j => ?_⟩
    have hj := update_holds h ((h i).check hr hf).1 i j
    rwa [Function.update_eq_self] at hj
  | assign i j =>
    by_cases hij : i = j
    · subst hij
      refine ⟨s, by rw [perform, if_pos rfl], fun k => ?_⟩
      rw [act, Function.update_eq_self]
      exact h k
    · obtain ⟨b, hb, hholds⟩ := (h j).assign hr
      exact ⟨_, by rw [perform, if_neg hij, hb]; rfl, update_holds h hholds i⟩
  | replace i m r =>
    obtain ⟨b, hb, hholds⟩ := (h i).replace hr hf
    exact ⟨_, by rw [perform, hb]; rfl, update_holds h hholds i⟩

theorem perform_all_holds (hr : Succeeds realloc) (h : ∀ i, Holds (s i) (lists i))
    (ops : List (Op α)) (ha : Allowed realloc s lists ops) :
    ∃ s', performAll realloc s ops = some s' ∧ ∀ i, Holds (s' i) (ops.foldl act lists i) := by
  induction ops generalizing s lists with
  | nil => exact ⟨s, rfl, h⟩
  | cons op ops ih =>
    obtain ⟨s₁, hstep, h₁⟩ := perform_holds hr h ha.1
    obtain ⟨s', hrest, h'⟩ := ih h₁ (ha.2 s₁ hstep)
    exact ⟨s', by rw [performAll, hstep]; exact hrest, h'⟩

/-- Operations on new buffers stay within the allocations and do to the filled
parts what they do to lists. -/
theorem buffers_follow_lists (hr : Succeeds realloc) (ops : List (Op α))
    (ha : Allowed realloc (fun _ => empty) (fun _ => []) ops) :
    ∃ s, performAll realloc (fun _ => empty) ops = some s ∧ ∀ i,
      (s i).readyPosition ≤ (s i).fullSize ∧ (s i).buffer.length = (s i).fullSize ∧
        (s i).content = ops.foldl act (fun _ => []) i := by
  obtain ⟨s, hrun, hs⟩ := perform_all_holds hr (fun _ => holds_empty) ops ha
  exact ⟨s, hrun, fun i => ⟨(hs i).fits, (hs i).capacity, (hs i).content⟩⟩

/-- An allocator that never fails, with what it leaves in new elements. -/
def allocate (fresh : Nat → α) : Realloc α := fun old n =>
  some (old.take n ++ (List.range' old.length (n - old.length)).map fresh)

omit [DecidableEq α] in
theorem allocate_succeeds (fresh : Nat → α) : Succeeds (allocate fresh) where
  grows old n := by
    refine ⟨_, rfl, ?_, List.prefix_append _ _⟩
    simp only [List.length_append, List.length_take, List.length_map, List.length_range']
    omega

theorem two_buffers_run :
    ∃ s, performAll (allocate fun _ => 0)
        (fun _ => empty)
        [.append 0 [1, 2, 3, 2], .assign 1 0, .replace 0 [2] [7, 8], .checkSize 1 2000,
          .fill 1 [9], .cutFromHead 1 2, .incrementFreeSize 0 1] = some s ∧
      (s 0).content = [1, 7, 8, 3] ∧ (s 1).content = [3, 2, 9] := by
  obtain ⟨s, hrun, hs⟩ := buffers_follow_lists (allocate_succeeds fun _ => 0)
    [.append 0 [1, 2, 3, 2], .assign 1 0, .replace 0 [2] [7, 8], .checkSize 1 2000,
      .fill 1 [9], .cutFromHead 1 2, .incrementFreeSize 0 1] (by decide +kernel)
  exact ⟨s, hrun, (hs 0).2.2.trans (by decide), (hs 1).2.2.trans (by decide)⟩

end RawBuffer

namespace AutoBuffer

open RawBuffer

/-- The same buffer with its sizes as fields of their own. -/
def raw (b : AutoBuffer α) : RawBuffer α := ⟨b.buffer, b.fullSize, b.readyPosition⟩

@[simp] theorem raw_buffer (b : AutoBuffer α) : b.raw.buffer = b.buffer := rfl

@[simp] theorem raw_full (b : AutoBuffer α) : b.raw.fullSize = b.fullSize := rfl

@[simp] theorem raw_ready (b : AutoBuffer α) : b.raw.readyPosition = b.readyPosition := rfl

theorem raw_flush (b : AutoBuffer α) : b.raw.flushFreeSize = b.flushFreeSize.raw := rfl

/-- The sum wraps in the one model where it does in the other. -/
theorem raw_decrement (b : AutoBuffer α) (h : b.fullSize < 2 ^ 63) :
    b.raw.decrementFreeSize n = (b.decrementFreeSize n).raw := by
  have hr : b.readyPosition ≤ b.fullSize := b.ready_le
  have hsum : sizeAdd b.readyPosition n =
      if b.NoWrap n then b.readyPosition + n else (b.readyPosition + n) % 2 ^ 64 := by
    split
    · next hn =>
      refine size_add_eq ?_
      rcases hn with hn | hn
      · omega
      · exact hn
    · rfl
  unfold RawBuffer.decrementFreeSize
  rw [raw_ready, hsum]
  rfl

theorem raw_increment (b : AutoBuffer α) (h : b.readyPosition < 2 ^ 64) :
    b.raw.incrementFreeSize n = (b.incrementFreeSize n).raw := by
  have hready : (if n ≤ b.readyPosition then sizeSub b.readyPosition n else 0) =
      (b.incrementFreeSize n).readyPosition := by
    unfold AutoBuffer.incrementFreeSize
    dsimp only
    split
    · next hn => rw [size_sub_eq hn (by omega)]
    · rfl
  unfold RawBuffer.incrementFreeSize
  rw [raw_ready, hready]
  rfl

theorem raw_check (b : AutoBuffer α) (hr : b.readyPosition + 1024 < 2 ^ 63) (hn : n < 2 ^ 63) :
    b.raw.checkSize (allocate b.fresh) n = (b.checkSize n).raw := by
  have hgran : sizeAdd b.readyPosition defaultBufferGranulate =
      b.readyPosition + defaultBufferGranulate :=
    size_add_eq (show b.readyPosition + 1024 < 2 ^ 64 by omega)
  unfold RawBuffer.checkSize AutoBuffer.checkSize
  simp only [raw_ready, raw_full, raw_buffer, hgran]
  obtain ⟨d, hd, hlt⟩ : ∃ d, (if n = 0 then b.readyPosition + defaultBufferGranulate else n) = d ∧
      d < 2 ^ 63 := by
    refine ⟨_, rfl, ?_⟩
    split
    · exact hr
    · exact hn
  rw [hd]
  by_cases hgrow : b.fullSize < d
  · have hfull : sizeMul (d / defaultBufferGranulate + 1) defaultBufferGranulate =
        (d / defaultBufferGranulate + 1) * defaultBufferGranulate := by
      simp only [sizeMul, defaultBufferGranulate]
      omega
    have hlarge : b.buffer.length ≤ (d / defaultBufferGranulate + 1) * defaultBufferGranulate := by
      simp only [fullSize, defaultBufferGranulate] at hgrow ⊢
      omega
    rw [if_pos hgrow, if_pos hgrow, hfull]
    generalize (d / defaultBufferGranulate + 1) * defaultBufferGranulate = full at hlarge
    have hlen : (b.realloc full).fullSize = full := by
      simp only [realloc, fullSize, List.length_append, List.length_map, List.length_range']
      omega
    change RawBuffer.mk (b.buffer.take full ++ _) full _ = RawBuffer.mk _ (b.realloc full).fullSize _
    rw [hlen, List.take_of_length_le hlarge]
    rfl
  · rw [if_neg hgrow, if_neg hgrow]

theorem raw_append (b : AutoBuffer α) (xs : List α)
    (h : b.readyPosition + xs.length + 1024 < 2 ^ 63) (hfull : b.fullSize < 2 ^ 64) :
    b.raw.append (allocate b.fresh) xs = some (b.append xs).raw := by
  have hle : b.readyPosition ≤ b.fullSize := b.ready_le
  have hadd : sizeAdd b.readyPosition xs.length = b.readyPosition + xs.length :=
    size_add_eq (by omega)
  have hfree : b.raw.getFreeSize = b.freeSize := by
    rw [getFreeSize, raw_full, raw_ready, size_sub_eq hle (by omega)]
    rfl
  -- the same allocation is written to
  obtain ⟨grown, hgrown, hraw, hready, hroom⟩ : ∃ grown, (if b.freeSize < xs.length then
      b.checkSize (b.fillSize + xs.length) else b) = grown ∧
      (if b.freeSize < xs.length then
        b.raw.checkSize (allocate b.fresh) (b.readyPosition + xs.length) else b.raw) = grown.raw ∧
      grown.readyPosition = b.readyPosition ∧
      b.readyPosition + xs.length ≤ grown.fullSize := by
    refine ⟨_, rfl, ?_⟩
    have hroom := b.check_size_full xs.length
    simp only [fillSize, check_size_ready] at hroom ⊢
    split
    · exact ⟨b.raw_check (by omega) (by omega), check_size_ready b _, hroom⟩
    · next hn =>
      simp only [freeSize, fillSize] at hn
      exact ⟨rfl, rfl, by omega⟩
  unfold RawBuffer.append AutoBuffer.append
  dsimp only
  rw [hfree, raw_ready, hadd, hraw]
  simp only [hgrown]
  have hwrite : write grown.buffer b.readyPosition xs = some (grown.buffer.take b.readyPosition ++
      xs ++ grown.buffer.drop (b.readyPosition + xs.length)) := if_pos hroom
  rw [memcpy, raw_ready, raw_buffer, hready, hwrite, Option.map_some, Option.bind_eq_bind,
    Option.bind_some, hadd]
  exact congrArg (fun n => some (RawBuffer.mk _ n _)) (write_length hwrite).symm

theorem raw_cut (b : AutoBuffer α) (h : b.readyPosition < 2 ^ 64) :
    b.raw.cutFromHead n = some (b.cutFromHead n).raw := by
  have hle := b.ready_le
  unfold RawBuffer.cutFromHead AutoBuffer.cutFromHead
  rw [raw_ready]
  split
  · rfl
  · next hn =>
    have hlen : ((b.buffer.drop n).take (b.readyPosition - n) ++
        b.buffer.drop (b.readyPosition - n)).length = b.buffer.length := by
      simp only [List.length_append, List.length_take, List.length_drop]
      omega
    have hsub : sizeSub b.readyPosition n = b.readyPosition - n := size_sub_eq (by omega) (by omega)
    have hmoved : (if n ≠ b.readyPosition then
        b.raw.memmove 0 n (b.readyPosition - n) else some b.raw) =
        some { b.raw with
          buffer := (b.buffer.drop n).take (b.readyPosition - n) ++
            b.buffer.drop (b.readyPosition - n) } := by
      split
      · have hread : read b.buffer n (b.readyPosition - n) =
            some ((b.buffer.drop n).take (b.readyPosition - n)) := if_pos (by omega)
        have htaken : ((b.buffer.drop n).take (b.readyPosition - n)).length =
            b.readyPosition - n := by
          rw [List.length_take, List.length_drop]
          omega
        rw [memmove, raw_buffer, move, hread, Option.bind_some, write, htaken, Nat.zero_add,
          if_pos (by omega), List.take_zero, List.nil_append]
        rfl
      · have hzero : b.readyPosition - n = 0 := by omega
        rw [hzero]
        rfl
    rw [hsub, hmoved, Option.bind_eq_bind, Option.bind_some]
    dsimp only [raw_ready]
    rw [hsub, Option.some.injEq, RawBuffer.mk.injEq]
    exact ⟨rfl, hlen.symm, rfl⟩

/-- An operation of the parsers and connections on a buffer of theirs. -/
inductive Use (α : Type)
  | append (xs : List α)
  | cutFromHead (n : Nat)
  | incrementFreeSize (n : Nat)
  | decrementFreeSize (n : Nat)
  | flushFreeSize
  | checkSize (n : Nat)

def use (b : AutoBuffer α) : Use α → AutoBuffer α
  | .append xs => b.append xs
  | .cutFromHead n => b.cutFromHead n
  | .incrementFreeSize n => b.incrementFreeSize n
  | .decrementFreeSize n => b.decrementFreeSize n
  | .flushFreeSize => b.flushFreeSize
  | .checkSize n => b.checkSize n

def useRaw (realloc : Realloc α) (b : RawBuffer α) : Use α → Option (RawBuffer α)
  | .append xs => b.append realloc xs
  | .cutFromHead n => b.cutFromHead n
  | .incrementFreeSize n => some (b.incrementFreeSize n)
  | .decrementFreeSize n => some (b.decrementFreeSize n)
  | .flushFreeSize => some b.flushFreeSize
  | .checkSize n => some (b.checkSize realloc n)

/-- The allocation is below `2 ^ 63`, and so is the one that is asked for. The size that
the fill moves by may be any. -/
def Small (b : AutoBuffer α) (op : Use α) : Prop :=
  b.fullSize < 2 ^ 63 ∧ match op with
    | .append xs => b.readyPosition + xs.length + 1024 < 2 ^ 63
    | .checkSize n => b.readyPosition + 1024 < 2 ^ 63 ∧ n < 2 ^ 63
    | _ => True

def AllSmall (b : AutoBuffer α) : List (Use α) → Prop
  | [] => True
  | op :: ops => b.Small op ∧ AllSmall (b.use op) ops

theorem raw_use (b : AutoBuffer α) {op : Use α} (h : b.Small op) :
    useRaw (allocate b.fresh) b.raw op = some (b.use op).raw := by
  obtain ⟨hfull, hop⟩ := h
  have hr : b.readyPosition ≤ b.fullSize := b.ready_le
  cases op with
  | append xs => exact b.raw_append xs hop (by omega)
  | cutFromHead n => exact b.raw_cut (by omega)
  | incrementFreeSize n => exact congrArg some (b.raw_increment (by omega))
  | decrementFreeSize n => exact congrArg some (b.raw_decrement hfull)
  | flushFreeSize => exact congrArg some b.raw_flush
  | checkSize n => exact congrArg some (b.raw_check hop.1 hop.2)

theorem use_fresh (b : AutoBuffer α) (op : Use α) : (b.use op).fresh = b.fresh := by
  have hcheck : ∀ n, (b.checkSize n).fresh = b.fresh := by
    intro n
    unfold checkSize
    dsimp only
    repeat' split
    all_goals rfl
  cases op with
  | append xs =>
    change (if b.freeSize < xs.length then b.checkSize (b.fillSize + xs.length) else b).fresh = _
    split
    · exact hcheck _
    · rfl
  | cutFromHead n =>
    simp only [use, cutFromHead]
    split <;> rfl
  | checkSize n => exact hcheck n
  | incrementFreeSize n => rfl
  | decrementFreeSize n => rfl
  | flushFreeSize => rfl

/-- Over a whole run the buffer of the parsers is the one whose sizes are of type `size_t`. -/
theorem raw_uses (b : AutoBuffer α) (ops : List (Use α)) (h : b.AllSmall ops) :
    ops.foldlM (useRaw (allocate b.fresh)) b.raw = some (ops.foldl use b).raw := by
  induction ops generalizing b with
  | nil => rfl
  | cons op ops ih =>
    rw [List.foldlM_cons, b.raw_use h.1, Option.bind_eq_bind, Option.bind_some, List.foldl_cons,
      ← b.use_fresh op]
    exact ih (b.use op) h.2

end AutoBuffer

end Khorost
