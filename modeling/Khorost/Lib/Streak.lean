import Mathlib.Algebra.Ring.Nat
import Mathlib.Order.Nat

namespace Streak

variable {p : Nat → Bool} {n k : Nat}

/-- How many of the places right in front of `n` have not got `p`. -/
def streak (p : Nat → Bool) : Nat → Nat
  | 0 => 0
  | n + 1 => if p n then 0 else streak p n + 1

/-- None of the `k` places from `a` on has got `p`. -/
def Row (p : Nat → Bool) (a k : Nat) : Prop := ∀ j, a ≤ j → j < a + k → p j = false

/-- A streak is at least as long as the row that ends with it. -/
theorem le_streak_iff (p : Nat → Bool) (n k : Nat) :
    k ≤ streak p n ↔ k ≤ n ∧ Row p (n - k) k := by
  induction n generalizing k with
  | zero =>
    simp only [streak, Nat.le_zero]
    exact ⟨fun h => ⟨h, fun j hj hlt => by omega⟩, fun h => h.1⟩
  | succ n ih =>
    cases k with
    | zero => exact ⟨fun _ => ⟨Nat.zero_le _, fun j hj hlt => by omega⟩, fun _ => Nat.zero_le _⟩
    | succ k =>
      rw [streak]
      cases hp : p n with
      | true =>
        refine ⟨fun h => absurd h (by simp), fun ⟨hle, hrow⟩ => ?_⟩
        have hn := hrow n (by omega) (by omega)
        rw [hp] at hn
        cases hn
      | false =>
        simp only [Bool.false_eq_true, if_false, Nat.add_le_add_iff_right, Nat.add_sub_add_right]
        rw [ih]
        refine and_congr_right fun hle => ⟨fun h j hj hlt => ?_, fun h j hj hlt => ?_⟩
        · rcases Nat.lt_or_ge j n with hjn | hjn
          · exact h j hj (by omega)
          · obtain rfl : j = n := by omega
            exact hp
        · exact h j hj (by omega)

end Streak
