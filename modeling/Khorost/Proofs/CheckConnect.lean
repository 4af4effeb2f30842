import Khorost.Db.Postgres
import Khorost.Lib.Streak

namespace Khorost

open Streak

namespace Attempt

def opens (a : Attempt) : Bool :=
  match a.isOpen, a.activate with
  | .returns true, _ => true
  | .returns false, .returns () => true
  | _, _ => false

def succeeds (a : Attempt) : Bool :=
  a.opens && match a.probe with
    | .returns () => true
    | .broken => false

theorem try_block_eq (a : Attempt) (times : Nat) :
    a.tryBlock times = (if a.opens then 0 else times + 1, a.succeeds) := by
  obtain ⟨isOpen, activate, probe⟩ := a
  cases isOpen with
  | broken => rfl
  | returns isOpen =>
    cases isOpen with
    | true => cases probe <;> rfl
    | false => cases activate <;> cases probe <;> rfl

theorem succeeds_opens {a : Attempt} (h : a.succeeds = true) : a.opens = true :=
  (Bool.and_eq_true_iff.mp h).1

end Attempt

variable {attempts : Nat → Attempt} {n m times : Nat}

/-- How many attempts in a row have not got to the query. -/
abbrev failedRow (attempts : Nat → Attempt) : Nat → Nat := streak fun n => (attempts n).opens

def Stops (attempts : Nat → Attempt) (n : Nat) : Prop :=
  (attempts n).succeeds = true ∨ 10 < failedRow attempts (n + 1)

instance : DecidablePred (Stops attempts) := fun _ => inferInstanceAs (Decidable (_ ∨ _))

theorem check_last (h : Stops attempts n) (fuel : Nat) :
    checkConnect attempts (fuel + 1) n (failedRow attempts n) =
      some ((attempts n).succeeds, 0, n + 1) := by
  simp only [checkConnect, Attempt.try_block_eq]
  cases hs : (attempts n).succeeds with
  | true => simp [Attempt.succeeds_opens hs]
  | false =>
    have hrow : 10 < failedRow attempts (n + 1) := h.resolve_left (by simp [hs])
    simp only [failedRow, streak] at hrow
    simp only [failedRow]
    rw [if_pos hrow]

theorem check_again (h : ¬ Stops attempts n) (fuel : Nat) :
    checkConnect attempts (fuel + 1) n (failedRow attempts n) =
      (checkConnect attempts fuel (n + 1) (failedRow attempts (n + 1))).map
        fun r => (true, r.2) := by
  simp only [Stops, not_or, Bool.not_eq_true, Nat.not_lt] at h
  obtain ⟨hs, hrow⟩ := h
  simp only [checkConnect, Attempt.try_block_eq, hs]
  simp only [failedRow, streak] at hrow ⊢
  rw [if_neg (Nat.not_lt.mpr hrow)]

/-- A recursion that ends has come to an attempt that stops it, and all outer
calls return true. -/
theorem check_ends (h : checkConnect attempts fuel m (failedRow attempts m) =
    some (result, times, k)) :
    ∃ n, m ≤ n ∧ k = n + 1 ∧ Stops attempts n ∧ (∀ j, m ≤ j → j < n → ¬ Stops attempts j) ∧
      times = 0 ∧ result = (if m = n then (attempts n).succeeds else true) := by
  induction fuel generalizing m result with
  | zero => cases h
  | succ fuel ih =>
    by_cases hstop : Stops attempts m
    · rw [check_last hstop] at h
      cases h
      exact ⟨m, Nat.le_refl m, rfl, hstop, fun j hj hlt => by omega, rfl, by rw [if_pos rfl]⟩
    · rw [check_again hstop, Option.map_eq_some_iff] at h
      obtain ⟨⟨inner, times', k'⟩, hinner, heq⟩ := h
      cases heq
      obtain ⟨n, hle, hk, hn, hbefore, htimes, -⟩ := ih hinner
      refine ⟨n, by omega, hk, hn, fun j hj hlt => ?_, htimes, by rw [if_neg (by omega)]⟩
      rcases Nat.eq_or_lt_of_le hj with rfl | hj
      · exact hstop
      · exact hbefore j hj hlt

theorem check_reaches (h : Stops attempts n) (hbefore : ∀ j < n, ¬ Stops attempts j) (d m : Nat)
    (hd : m + d = n) :
    checkConnect attempts (d + 1) m (failedRow attempts m) =
      some (if m = n then (attempts n).succeeds else true, 0, n + 1) := by
  induction d generalizing m with
  | zero =>
    obtain rfl : m = n := hd
    rw [check_last h, if_pos rfl]
  | succ d ih =>
    have hne : m ≠ n := by omega
    rw [check_again (hbefore m (by omega)), ih (m + 1) (by omega), if_neg hne]
    rfl

/-- What calls of `check_connect` leave in the static `times`. -/
inductive Static : Nat → Prop
  | initial : Static 0
  | call (attempts : Nat → Attempt) {fuel times times' n : Nat} {result : Bool} :
      Static times → checkConnect attempts fuel 0 times = some (result, times', n) →
      Static times'

theorem static_zero (h : Static times) : times = 0 := by
  induction h with
  | initial => rfl
  | call _ _ hcall ih =>
    subst ih
    obtain ⟨n, -, -, -, -, htimes, -⟩ := check_ends (m := 0) hcall
    exact htimes

/-- A call of `check_connect` is over after at most `bound` attempts, and returns
true only if the last of them has got an answer to the query. -/
def Settles (attempts : Nat → Attempt) (times bound : Nat) : Prop :=
  ∃ fuel result times' n, checkConnect attempts fuel 0 times = some (result, times', n + 1) ∧
    n + 1 ≤ bound ∧ (result = true → (attempts n).succeeds = true)

/-- A call settles exactly when an attempt within the bound succeeds before eleven
in a row have failed to open the connection. -/
theorem check_connect_settles_iff (h : Static times) (attempts : Nat → Attempt) (bound : Nat) :
    Settles attempts times bound ↔
      ∃ n < bound, (attempts n).succeeds = true ∧
        ∀ k, k + 11 ≤ n → ∃ j, k ≤ j ∧ j < k + 11 ∧ (attempts j).opens = true := by
  obtain rfl := static_zero h
  -- eleven failures in a row stop the call where they end
  have hrow : ∀ k, (∀ j, k ≤ j → j < k + 11 → (attempts j).opens = false) →
      Stops attempts (k + 10) := by
    intro k hk
    refine .inr ((le_streak_iff _ (k + 11) 11).mpr ⟨by omega, ?_⟩)
    rw [Nat.add_sub_cancel]
    exact hk
  constructor
  · rintro ⟨fuel, result, times', n, hcall, hbound, hresult⟩
    obtain ⟨n', -, hn, hstop, hbefore, -, rfl⟩ := check_ends (m := 0) hcall
    obtain rfl : n = n' := by omega
    have hs : (attempts n).succeeds = true := by
      by_cases hn : 0 = n
      · rw [if_pos hn] at hresult
        by_contra hfail
        -- a single attempt does not make a row
        have hlong := ((le_streak_iff _ (n + 1) 11).mp (hstop.resolve_left hfail)).1
        omega
      · exact hresult (if_neg hn)
    refine ⟨n, hbound, hs, fun k hk => ?_⟩
    by_contra hnone
    refine hbefore (k + 10) (Nat.zero_le _) (by omega) (hrow k fun j hj hlt => ?_)
    by_contra hopens
    exact hnone ⟨j, hj, hlt, by simpa using hopens⟩
  · rintro ⟨n, hbound, hs, hwindows⟩
    have hex : ∃ n, Stops attempts n := ⟨n, .inl hs⟩
    have hfirst := Nat.find_spec hex
    have hle : Nat.find hex ≤ n := Nat.find_min' hex (.inl hs)
    have hmin : ∀ j < Nat.find hex, ¬ Stops attempts j := fun j hj => Nat.find_min hex hj
    generalize Nat.find hex = n₀ at hfirst hle hmin
    refine ⟨n₀ + 1, _, _, n₀, check_reaches hfirst hmin n₀ 0 (Nat.zero_add n₀), by omega,
      fun _ => ?_⟩
    rcases hfirst with hsucceeds | hfailed
    · exact hsucceeds
    · obtain ⟨hlong, hnone⟩ := (le_streak_iff _ (n₀ + 1) 11).mp hfailed
      rcases Nat.eq_or_lt_of_le hle with rfl | hlt
      · exact hs
      · obtain ⟨j, hj, hj', hopens⟩ := hwindows (n₀ + 1 - 11) (by omega)
        have hno : (attempts j).opens = false := hnone j hj hj'
        rw [hno] at hopens
        cases hopens

/-- Ten failures and an answer. -/
theorem eleventh_settles :
    Settles (fun n => if n < 10 then ⟨.returns false, .broken, .broken⟩
      else ⟨.returns true, .broken, .returns ()⟩) 0 11 := by
  refine (check_connect_settles_iff .initial _ 11).mpr ⟨10, by decide, rfl, fun k hk => ?_⟩
  omega

/-- A connection that opens and loses every query keeps the call going; one that
does not open makes it return true. -/
theorem lost_query_never_settles :
    checkConnect (fun _ => ⟨.returns false, .broken, .broken⟩) 11 0 0 = some (true, 0, 11) ∧
      ¬ ∃ bound, ∀ attempts times, Static times → Settles attempts times bound := by
  refine ⟨rfl, ?_⟩
  rintro ⟨bound, h⟩
  obtain ⟨fuel, result, times', n, hcall, -, -⟩ :=
    h (fun _ => ⟨.returns true, .returns (), .broken⟩) 0 .initial
  obtain ⟨n', -, -, hstop, -⟩ := check_ends (m := 0) hcall
  rcases hstop with hs | hrow
  · cases hs
  · exact absurd hrow (by simp [failedRow, streak, Attempt.opens])

end Khorost
