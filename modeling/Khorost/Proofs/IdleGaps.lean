import Khorost.Net.SessionUse

namespace Khorost.SessionUse

def gaps (last : Int) : List Int → List Int
  | [] => []
  | value :: times => (value - last) :: gaps value times

def isLong (gap : Int) : Bool := 20 < totalMinutes gap

def isCounted (gap : Int) : Bool := 20 < minutesOf gap

/-- A use that counts the long gaps. -/
structure Counts (u : SessionUse) (times : List Int) : Prop where
  count : (u.activities times).count.toInt =
    u.count.toInt + (gaps u.lastActivity times).countP isLong
  last : (u.activities times).lastActivity = times.getLastD u.lastActivity

theorem counted_long (h : isCounted gap = true) : isLong gap = true := by
  have h : 20 < (totalMinutes gap).tmod 60 := of_decide_eq_true h
  refine decide_eq_true (Int.not_le.mp fun hshort => ?_)
  rcases Int.le_total 0 (totalMinutes gap) with hnonneg | hneg
  · rw [Int.tmod_eq_of_lt hnonneg (by omega)] at h
    omega
  · have hback := Int.tmod_nonneg 60 (Int.neg_nonneg.mpr hneg)
    rw [Int.neg_tmod] at hback
    omega

/-- Of those with `q` as many have `p` as there are only if all have it. -/
theorem count_eq_iff {p q : Int → Bool} (hpq : ∀ x, p x = true → q x = true) (xs : List Int) :
    xs.countP p = xs.countP q ↔ ∀ x ∈ xs, q x = true → p x = true := by
  constructor
  · intro heq x hx hq
    have hp : (xs.filter q).countP p = (xs.filter q).length := by
      rw [List.countP_filter, ← List.countP_eq_length_filter, ← heq]
      refine List.countP_congr fun y _ => ?_
      rw [Bool.and_eq_true]
      exact ⟨fun h => h.1, fun h => ⟨h, hpq y h⟩⟩
    exact List.countP_eq_length.mp hp x (List.mem_filter.mpr ⟨hx, hq⟩)
  · intro h
    exact List.countP_congr fun x hx => ⟨hpq x, h x hx⟩

theorem count_le (xs : List Int) : xs.countP isCounted ≤ xs.countP isLong :=
  List.countP_mono_left fun _ _ => counted_long

theorem count_kept (count : Int32) : count.toInt = (count.toInt + (0 : Nat)).bmod (2 ^ 32) := by
  rw [Nat.cast_zero, Int.add_zero]
  exact (Int32.toInt_bmod count).symm

theorem activity_count (u : SessionUse) (value : Int) :
    (u.setLastActivity value).count.toInt =
      (u.count.toInt + [value - u.lastActivity].countP isCounted).bmod (2 ^ 32) := by
  rw [List.countP_singleton, setLastActivity]
  by_cases h : 20 < minutesOf (value - u.lastActivity)
  · have hcounted : isCounted (value - u.lastActivity) = true := decide_eq_true h
    rw [if_pos h, if_pos hcounted]
    exact Int32.toInt_add u.count 1
  · have hcounted : ¬ isCounted (value - u.lastActivity) = true := by simpa [isCounted] using h
    rw [if_neg h, if_neg hcounted]
    exact count_kept u.count

/-- What is counted over a run. The counter is a number of 32 bits. -/
theorem activities_count (u : SessionUse) (times : List Int) :
    (u.activities times).count.toInt =
      (u.count.toInt + (gaps u.lastActivity times).countP isCounted).bmod (2 ^ 32) := by
  induction times generalizing u with
  | nil => exact count_kept u.count
  | cons value times ih =>
    have hrun := ih (u.setLastActivity value)
    rw [activity_count, Int.bmod_add_bmod] at hrun
    have hgaps : gaps u.lastActivity (value :: times) =
        [value - u.lastActivity] ++ gaps value times := rfl
    rw [hgaps, List.countP_append, Nat.cast_add, ← Int.add_assoc]
    exact hrun

theorem activities_last (u : SessionUse) (times : List Int) :
    (u.activities times).lastActivity = times.getLastD u.lastActivity := by
  induction times generalizing u with
  | nil => rfl
  | cons value times ih =>
    rw [List.getLastD_cons]
    exact ih (u.setLastActivity value)

theorem bmod_eq_iff (count : Int32) (n : Nat) :
    (count.toInt + n).bmod (2 ^ 32) = count.toInt + n ↔ count.toInt + n < 2 ^ 31 := by
  have hle := count.le_toInt
  constructor
  · intro h
    have hlt := Int.bmod_lt (x := count.toInt + n) (m := 2 ^ 32) (by decide)
    omega
  · intro h
    exact Int.bmod_eq_of_le (by omega) (by omega)

/-- The counter grows by the number of the long gaps exactly if each of them is
longer than 20 minutes beside its whole hours, and the sum is a number of 32 bits. -/
theorem activities_counts_iff (u : SessionUse) (times : List Int) :
    Counts u times ↔
      (∀ gap ∈ gaps u.lastActivity times, 20 < totalMinutes gap → 20 < minutesOf gap) ∧
        u.count.toInt + (gaps u.lastActivity times).countP isLong < 2 ^ 31 := by
  have hcounts := activities_count u times
  have hle := count_le (gaps u.lastActivity times)
  have hall : (∀ gap ∈ gaps u.lastActivity times, 20 < totalMinutes gap → 20 < minutesOf gap) ↔
      (gaps u.lastActivity times).countP isCounted = (gaps u.lastActivity times).countP isLong := by
    rw [count_eq_iff fun x => counted_long]
    simp only [isCounted, isLong, decide_eq_true_eq]
  rw [hall]
  constructor
  · intro h
    have hsum := h.count
    have hlt := (u.activities times).count.toInt_lt
    rw [hsum] at hlt
    rw [hcounts, (bmod_eq_iff _ _).mpr (by omega)] at hsum
    omega
  · rintro ⟨heq, hlt⟩
    refine ⟨?_, activities_last u times⟩
    rw [hcounts, heq, (bmod_eq_iff _ _).mpr hlt]

/-- A session that is used again after an hour. -/
theorem hour_not_counted :
    ¬ ∀ (u : SessionUse) (times : List Int), (u.lastActivity :: times).IsChain (· ≤ ·) →
      Counts u times := by
  intro h
  have hcount := (h (new 0) [minutes 60] (by decide)).count
  revert hcount
  decide

end Khorost.SessionUse
