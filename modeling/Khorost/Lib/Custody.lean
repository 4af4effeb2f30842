import Mathlib.Data.List.Nodup
import Mathlib.Data.Set.Defs

/-- Each item is free once or has one holder. -/
structure Custody (items : Set α) (free : List α) (holder : κ → Option α) : Prop where
  nodup : free.Nodup
  apart : ∀ k a, holder k = some a → a ∉ free
  one : ∀ k k' a, holder k = some a → holder k' = some a → k = k'
  all : ∀ a, a ∈ items ↔ a ∈ free ∨ ∃ k, holder k = some a

namespace Custody

variable {items : Set α} {free : List α} {holder holder' : κ → Option α} {a : α} {k : κ}

theorem start (h : free.Nodup) : Custody {a | a ∈ free} free (fun _ : κ => none) where
  nodup := h
  apart := nofun
  one := nofun
  all := fun _ => ⟨.inl, fun h => h.elim id nofun⟩

theorem take (h : Custody items (a :: free) holder) (hk : holder k = none)
    (hk' : holder' k = some a) (hothers : ∀ j, j ≠ k → holder' j = holder j) :
    Custody items free holder' := by
  obtain ⟨ha, hnodup⟩ := List.nodup_cons.mp h.nodup
  have hother : ∀ j c, holder' j = some c → j = k ∧ c = a ∨ j ≠ k ∧ holder j = some c := by
    intro j c hj
    by_cases hjk : j = k
    · subst hjk
      exact .inl ⟨rfl, Option.some.inj (hj.symm.trans hk')⟩
    · exact .inr ⟨hjk, hothers j hjk ▸ hj⟩
  refine ⟨hnodup, fun j c hj => ?_, fun i j c hi hj => ?_, fun c => ?_⟩
  · rcases hother j c hj with ⟨-, rfl⟩ | ⟨-, hj⟩
    · exact ha
    · exact fun hc => h.apart j c hj (List.mem_cons_of_mem _ hc)
  · rcases hother i c hi with ⟨rfl, rfl⟩ | ⟨-, hi⟩ <;> rcases hother j c hj with ⟨rfl, hc⟩ | ⟨-, hj⟩
    · rfl
    · exact absurd List.mem_cons_self (h.apart j c hj)
    · exact absurd List.mem_cons_self (hc ▸ h.apart i c hi)
    · exact h.one i j c hi hj
  · rw [h.all c, List.mem_cons]
    constructor
    · rintro ((rfl | hc) | ⟨j, hj⟩)
      · exact .inr ⟨k, hk'⟩
      · exact .inl hc
      · have hjk : j ≠ k := by
          rintro rfl
          rw [hk] at hj
          cases hj
        exact .inr ⟨j, (hothers j hjk).trans hj⟩
    · rintro (hc | ⟨j, hj⟩)
      · exact .inl (.inr hc)
      · rcases hother j c hj with ⟨-, rfl⟩ | ⟨-, hj⟩
        · exact .inl (.inl rfl)
        · exact .inr ⟨j, hj⟩

theorem give (h : Custody items free holder) (hk : holder k = some a) (hk' : holder' k = none)
    (hothers : ∀ j, j ≠ k → holder' j = holder j) : Custody items (free ++ [a]) holder' := by
  have hother : ∀ j c, holder' j = some c → j ≠ k ∧ holder j = some c := by
    intro j c hj
    by_cases hjk : j = k
    · subst hjk
      rw [hk'] at hj
      cases hj
    · exact ⟨hjk, hothers j hjk ▸ hj⟩
  refine ⟨?_, fun j c hj => ?_, fun i j c hi hj => ?_, fun c => ?_⟩
  · exact List.Nodup.append h.nodup (List.nodup_singleton a)
      (List.disjoint_singleton.mpr (h.apart k a hk))
  · obtain ⟨hjk, hj⟩ := hother j c hj
    rw [List.mem_append, List.mem_singleton]
    rintro (hc | rfl)
    · exact h.apart j c hj hc
    · exact hjk (h.one j k c hj hk)
  · exact h.one i j c (hother i c hi).2 (hother j c hj).2
  · rw [h.all c, List.mem_append, List.mem_singleton]
    constructor
    · rintro (hc | ⟨j, hj⟩)
      · exact .inl (.inl hc)
      · by_cases hjk : j = k
        · subst hjk
          exact .inl (.inr (Option.some.inj (hj.symm.trans hk)))
        · exact .inr ⟨j, (hothers j hjk).trans hj⟩
    · rintro ((hc | rfl) | ⟨j, hj⟩)
      · exact .inl hc
      · exact .inr ⟨k, hk⟩
      · exact .inr ⟨j, (hother j c hj).2⟩

theorem exactly_once [DecidableEq α] (h : Custody items free holder) (ha : a ∈ items) :
    (free.count a = 1 ∧ ∀ k, holder k ≠ some a) ∨ (a ∉ free ∧ ∃! k, holder k = some a) := by
  rcases (h.all a).mp ha with hfree | ⟨k, hk⟩
  · exact .inl ⟨List.count_eq_one_of_mem h.nodup hfree, fun k hk => h.apart k a hk hfree⟩
  · exact .inr ⟨h.apart k a hk, k, hk, fun j hj => h.one j k a hj hk⟩

end Custody
