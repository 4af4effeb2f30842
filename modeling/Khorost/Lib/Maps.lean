import Mathlib.Logic.Basic

namespace Maps

variable {κ ν : Type} [DecidableEq κ]

/-- The map with `v` at the key, whatever was there. -/
def set (m : κ → Option ν) (key : κ) (v : ν) : κ → Option ν := fun k => if k = key then some v else m k

def erase (m : κ → Option ν) (key : κ) : κ → Option ν := fun k => if k = key then none else m k

/-- The map with `v` at the key unless something is there already. -/
def insert (m : κ → Option ν) (key : κ) (v : ν) : κ → Option ν :=
  fun k => if k = key then some ((m key).getD v) else m k

variable {m : κ → Option ν} {k key : κ} {v w : ν}

@[simp] theorem set_same : set m key v key = some v := if_pos rfl

theorem set_other (h : k ≠ key) : set m key v k = m k := if_neg h

@[simp] theorem erase_same : erase m key key = none := if_pos rfl

theorem erase_other (h : k ≠ key) : erase m key k = m k := if_neg h

theorem insert_same : insert m key v key = some ((m key).getD v) := if_pos rfl

theorem insert_other (h : k ≠ key) : insert m key v k = m k := if_neg h

theorem erase_none (h : m k = none) : erase m key k = none := by
  by_cases hk : k = key
  · rw [hk, erase_same]
  · rw [erase_other hk, h]

theorem erase_some (h : erase m key k = some v) : k ≠ key ∧ m k = some v := by
  by_cases hk : k = key
  · rw [hk, erase_same] at h
    cases h
  · rw [erase_other hk] at h
    exact ⟨hk, h⟩

theorem set_some (h : set m key v k = some w) : (k = key ∧ w = v) ∨ (k ≠ key ∧ m k = some w) := by
  by_cases hk : k = key
  · rw [hk, set_same] at h
    exact .inl ⟨hk, (Option.some.inj h).symm⟩
  · rw [set_other hk] at h
    exact .inr ⟨hk, h⟩

theorem insert_keeps (h : m k = some w) : insert m key v k = some w := by
  by_cases hk : k = key
  · rw [hk] at h ⊢
    rw [insert_same, h]
    rfl
  · rw [insert_other hk, h]

theorem insert_none (h : m k = none) (hk : k ≠ key) : insert m key v k = none := by
  rw [insert_other hk, h]

theorem insert_there : (insert m key v key).isSome := by
  rw [insert_same]
  rfl

end Maps
