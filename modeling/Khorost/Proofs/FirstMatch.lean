import Khorost.Net.MultiPart
import Mathlib.Order.Bounds.Basic

namespace Khorost

open Blocks

/-- The positions from `start` on at which a text stands whole in another one. -/
def occurrences (text match_ : List α) (start : Nat) : Set Nat :=
  {p | start ≤ p ∧ p + match_.length ≤ text.length ∧ match_ <+: text.drop p}

/-- What looking for the first occurrence comes to. -/
def FirstOccurrence (text match_ : List α) (start : Nat) : Option Nat → Prop
  | some p => IsLeast (occurrences text match_ start) p
  | none => occurrences text match_ start = ∅

/-- A buffer with the arguments of `find`. -/
structure FindCall (α : Type) where
  buffer : AutoBuffer α
  start : Nat
  match_ : List α
  fill_size : buffer.fillSize < 2 ^ 64
  match_size : match_.length < 2 ^ 64

namespace FindCall

def pMax (c : FindCall α) : Nat := sizeSub c.buffer.fillSize c.match_.length

theorem max_fits (c : FindCall α) (h : c.match_.length ≤ c.buffer.fillSize) :
    c.pMax = c.buffer.fillSize - c.match_.length :=
  size_sub_eq h (by have := c.fill_size; omega)

/-- For a match that is too long the last position is one that no buffer has. -/
theorem max_wraps (c : FindCall α) (h : c.buffer.fillSize < c.match_.length) :
    c.pMax = c.buffer.fillSize + 2 ^ 64 - c.match_.length :=
  Nat.mod_eq_of_lt (by omega)

theorem none_too_long {text match_ : List α} (h : text.length < match_.length) (start : Nat) :
    occurrences text match_ start = ∅ :=
  Set.eq_empty_iff_forall_notMem.mpr fun p hp => by
    have := hp.2.1
    omega

variable [DecidableEq α]

/-- `find`, where `none` is a comparison with an element that is not in the
filled part. -/
def find (c : FindCall α) : Option (Option Nat) :=
  search c.match_ c.pMax (c.buffer.content.drop c.start) c.start

/-- The first occurrence in the filled part is what the call returns, and it has
looked at nothing else. -/
def Finds (c : FindCall α) : Prop :=
  ∃ found, c.find = some found ∧ FirstOccurrence c.buffer.content c.match_ c.start found

theorem finds_short (c : FindCall α) (h : c.match_.length ≤ c.buffer.fillSize) : c.Finds := by
  have hlen : c.buffer.content.length = c.buffer.fillSize := c.buffer.content_length
  have hmem : c.pMax + c.match_.length ≤ c.start + (c.buffer.content.drop c.start).length := by
    rw [c.max_fits h, List.length_drop]
    omega
  rcases search_spec _ c.start hmem with ⟨j, hfound, hlast, hat, hfirst⟩ | ⟨hfound, hnone⟩
  · rw [List.drop_drop] at hat
    rw [c.max_fits h] at hlast
    refine ⟨_, hfound, ⟨Nat.le_add_right .., by omega, hat⟩, ?_⟩
    rintro p ⟨hstart, -, hp⟩
    obtain ⟨i, rfl⟩ := Nat.exists_eq_add_of_le hstart
    by_contra hlt
    refine hfirst i (by omega) ?_
    rw [List.drop_drop]
    exact hp
  · refine ⟨none, hfound, Set.eq_empty_iff_forall_notMem.mpr ?_⟩
    rintro p ⟨hstart, hroom, hp⟩
    obtain ⟨i, rfl⟩ := Nat.exists_eq_add_of_le hstart
    refine hnone i (by rw [c.max_fits h]; omega) ?_
    rw [List.drop_drop]
    exact hp

/-- A match that is longer than the filled part is compared with what is behind
it, unless the call begins behind the last position. -/
theorem finds_long_iff (c : FindCall α) (h : c.buffer.fillSize < c.match_.length) :
    c.Finds ↔ c.pMax < c.start := by
  have hlen : c.buffer.content.length = c.buffer.fillSize := c.buffer.content_length
  constructor
  · rintro ⟨found, hfound, -⟩
    by_contra hle
    have hshort : (c.buffer.content.drop c.start).length < c.match_.length := by
      rw [List.length_drop]
      omega
    rw [find, search_short hshort (Nat.le_of_not_lt hle)] at hfound
    cases hfound
  · intro hpast
    exact ⟨none, search_past hpast, none_too_long (hlen ▸ h) _⟩

/-- `find` is right for every match that is not longer than the filled part, and
otherwise from a position on that no buffer reaches. -/
theorem find_first_iff (c : FindCall α) :
    c.Finds ↔ c.match_.length ≤ c.buffer.fillSize ∨
      c.buffer.fillSize + 2 ^ 64 < c.start + c.match_.length := by
  rcases Nat.lt_or_ge c.buffer.fillSize c.match_.length with hlong | hshort
  · have hmatch := c.match_size
    rw [finds_long_iff c hlong, c.max_wraps hlong]
    omega
  · exact iff_of_true (c.finds_short hshort) (.inl hshort)

def twoInOne : FindCall UInt8 where
  buffer := ⟨[97], 1, fun _ => 0, by decide⟩
  start := 0
  match_ := [98, 98]
  fill_size := by decide
  match_size := by decide

theorem two_in_one_outside : ¬ ∀ c : FindCall UInt8, c.Finds := by
  intro h
  obtain ⟨found, hfound, -⟩ := h twoInOne
  have houtside : twoInOne.find = none := by decide
  rw [houtside] at hfound
  cases hfound

end FindCall

end Khorost
