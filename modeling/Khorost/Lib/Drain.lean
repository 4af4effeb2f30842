import Mathlib.Data.List.Basic

namespace Drain

variable {σ α κ : Type} {pull : σ → κ → List α × σ} {rest : σ → List α} {c : Nat → κ} {s : σ}

/-- The source in front of a read; the `k`-th read is made with `c k`. -/
def before (pull : σ → κ → List α × σ) (c : Nat → κ) (s : σ) : Nat → σ
  | 0 => s
  | n + 1 => (pull (before pull c s n) (c n)).2

/-- What a read gives. -/
def piece (pull : σ → κ → List α × σ) (c : Nat → κ) (s : σ) (n : Nat) : List α :=
  (pull (before pull c s n) (c n)).1

/-- What the reads in front of the `n`-th have given together. -/
def upTo (pull : σ → κ → List α × σ) (c : Nat → κ) (s : σ) (n : Nat) : List α :=
  (List.range n).flatMap (piece pull c s)

/-- The `n`-th read is the first that gives nothing. -/
structure Ends (pull : σ → κ → List α × σ) (c : Nat → κ) (s : σ) (n : Nat) : Prop where
  none : piece pull c s n = []
  some : ∀ k < n, piece pull c s k ≠ []

theorem up_to_succ (n : Nat) :
    upTo pull c s (n + 1) = upTo pull c s n ++ piece pull c s n := by
  simp [upTo, List.range_succ]

/-- No read loses anything or gives it twice. -/
def Conserves (pull : σ → κ → List α × σ) (rest : σ → List α) : Prop :=
  ∀ s c, rest s = (pull s c).1 ++ rest (pull s c).2

/-- What there was is what has been given and what is left. -/
theorem Conserves.up_to (h : Conserves pull rest) (c : Nat → κ) (s : σ) (n : Nat) :
    rest s = upTo pull c s n ++ rest (before pull c s n) := by
  induction n with
  | zero => rfl
  | succ n ih => rw [up_to_succ, List.append_assoc, ih, h (before pull c s n) (c n)]; rfl

end Drain
