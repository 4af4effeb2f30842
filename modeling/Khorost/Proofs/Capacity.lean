import Khorost.Proofs.BufferOps

namespace Khorost

open Blocks

namespace RawBuffer

/-- The capacity of a buffer that a text of `n` elements has come to stand in. -/
def grown (full n : Nat) : Nat :=
  if full < n then
    (n / AutoBuffer.defaultBufferGranulate + 1) * AutoBuffer.defaultBufferGranulate
  else full

/-- Only a text that fits exactly leaves nothing behind it. -/
theorem lt_grown_iff (full n : Nat) : n < grown full n ↔ n ≠ full := by
  have hn := Nat.lt_mul_div_succ n (show 0 < AutoBuffer.defaultBufferGranulate by decide)
  rw [Nat.mul_comm] at hn
  unfold grown
  split <;> omega

theorem grown_of_le (h : n ≤ full) : grown full n = full := if_neg (Nat.not_lt.mpr h)

variable {α : Type} {realloc : Realloc α} {b b' : RawBuffer α} {xs ys m r : List α}

theorem check_full (hn : n ≠ 0) (hsmall : n < 2 ^ 63) :
    (b.checkSize realloc n).fullSize = grown b.fullSize n := by
  have hfull : sizeMul (n / AutoBuffer.defaultBufferGranulate + 1)
      AutoBuffer.defaultBufferGranulate =
      (n / AutoBuffer.defaultBufferGranulate + 1) * AutoBuffer.defaultBufferGranulate := by
    simp only [AutoBuffer.defaultBufferGranulate, sizeMul]
    omega
  unfold checkSize grown
  simp only [if_neg hn, hfull]
  split <;> rfl

theorem memcpy_sizes (h : b.memcpy position xs = some b') :
    b'.fullSize = b.fullSize ∧ b'.readyPosition = b.readyPosition := by
  obtain ⟨buffer, -, rfl⟩ := Option.map_eq_some_iff.mp h
  exact ⟨rfl, rfl⟩

theorem memmove_sizes (h : b.memmove dest src n = some b') :
    b'.fullSize = b.fullSize ∧ b'.readyPosition = b.readyPosition := by
  obtain ⟨buffer, -, rfl⟩ := Option.map_eq_some_iff.mp h
  exact ⟨rfl, rfl⟩

theorem append_full (h : Holds b xs) (hn : (xs ++ ys).length < 2 ^ 63)
    (hb : b.append realloc ys = some b') :
    b'.fullSize = grown b.fullSize (xs ++ ys).length := by
  have hlen : (xs ++ ys).length = xs.length + ys.length := List.length_append
  have hadd : sizeAdd b.readyPosition ys.length = xs.length + ys.length := by
    rw [h.fill, size_add_eq (by omega)]
  have hfits := h.fits
  have hfill := h.fill
  unfold RawBuffer.append at hb
  rw [hadd, h.free] at hb
  obtain ⟨copied, hcopy, hlast⟩ := Option.bind_eq_some_iff.mp hb
  cases hlast
  rw [(memcpy_sizes hcopy).1, hlen]
  split
  · exact check_full (by omega) (by omega)
  · exact (grown_of_le (by omega)).symm

theorem replace_at_full (hfits : b.readyPosition ≤ b.fullSize)
    (hsmall : b.readyPosition + (r.length - m.length) < 2 ^ 63) (hm : m.length ≤ b.readyPosition)
    (hb : b.replaceAt realloc m r km = some b') :
    b'.fullSize = grown b.fullSize b'.readyPosition := by
  unfold replaceAt at hb
  obtain ⟨moved, hmove, hb⟩ := Option.bind_eq_some_iff.mp hb
  obtain ⟨copied, hcopy, hlast⟩ := Option.bind_eq_some_iff.mp hb
  cases hlast
  obtain ⟨hfull, hready⟩ := memcpy_sizes hcopy
  have hgrown : moved.fullSize = (if r.length - m.length ≠ 0 then
      b.checkSize realloc (sizeAdd b.readyPosition (r.length - m.length)) else b).fullSize ∧
      moved.readyPosition = b.readyPosition := by
    have hcheck : (if r.length - m.length ≠ 0 then
        b.checkSize realloc (sizeAdd b.readyPosition (r.length - m.length)) else b).readyPosition =
        b.readyPosition := by
      split
      · unfold checkSize
        simp only
        split <;> split <;> rfl
      · rfl
    split at hmove
    · obtain ⟨h₁, h₂⟩ := memmove_sizes hmove
      exact ⟨h₁, h₂.trans hcheck⟩
    · cases hmove
      exact ⟨rfl, hcheck⟩
  simp only [hfull, hready, hgrown]
  by_cases hgrow : r.length - m.length ≠ 0
  · rw [if_pos hgrow, if_pos hgrow, size_add_eq (by omega), check_full (by omega) (by omega)]
  · rw [if_neg hgrow, if_neg hgrow, size_sub_eq (by omega) (by omega), grown_of_le (by omega)]

variable [DecidableEq α]

/-- A single replace changes the buffer at one match or not at all. -/
theorem replace_loop_once (h : replaceLoop realloc m r true fuel b km maxPos result = some (b', found)) :
    (b' = b ∧ found = result) ∨ (∃ km, b.replaceAt realloc m r km = some b') ∧ found = true := by
  induction fuel generalizing km with
  | zero => cases h
  | succ fuel ih =>
    unfold replaceLoop at h
    split at h
    · obtain ⟨ys, -, h⟩ := Option.bind_eq_some_iff.mp h
      split at h
      · obtain ⟨b₁, hat, h⟩ := Option.bind_eq_some_iff.mp h
        cases h
        exact .inr ⟨⟨km, hat⟩, rfl⟩
      · exact ih h
    · cases h
      exact .inl ⟨rfl, rfl⟩

theorem replace_full (hr : Succeeds realloc) (h : Holds b xs)
    (hn : ((replaceFirst m r xs).getD xs).length < 2 ^ 63)
    (hb : b.replace realloc m r true = some (b', found)) :
    b'.fullSize = grown b.fullSize b'.readyPosition := by
  have hfits := h.fits
  have hfill := h.fill
  have hshort := h.short
  obtain ⟨b'', hb'', -⟩ := h.replace hr hn
  have hfound : found = (replaceFirst m r xs).isSome :=
    (Prod.mk.inj (Option.some.inj (hb.symm.trans hb''))).2
  unfold RawBuffer.replace at hb
  split at hb
  · obtain ⟨rfl, -⟩ := Prod.mk.inj (Option.some.inj hb)
    exact (grown_of_le hfits).symm
  · rcases replace_loop_once hb with ⟨rfl, -⟩ | ⟨⟨km, hat⟩, htrue⟩
    · exact (grown_of_le hfits).symm
    · obtain ⟨ys, hys⟩ := Option.isSome_iff_exists.mp (hfound.symm.trans htrue)
      rw [hys] at hn
      obtain ⟨front, back, rfl, rfl, -⟩ := replace_first_some hys
      simp only [Option.getD_some, List.length_append] at hn hfill hshort
      exact replace_at_full hfits (by omega) (by omega) hat

end RawBuffer

end Khorost
