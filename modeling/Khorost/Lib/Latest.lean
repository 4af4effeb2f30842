import Mathlib.Data.List.Induction

namespace Latest

variable {α β : Type} [DecidableEq α] {p q : α × β} {ps : List (α × β)}

/-- An entry takes the place of one of its name. -/
def put (held : List (α × β)) (p : α × β) : List (α × β) := held.filter (·.1 ≠ p.1) ++ [p]

def putAll (ps : List (α × β)) : List (α × β) := ps.foldl put []

theorem put_all_append (ps : List (α × β)) (p : α × β) :
    putAll (ps ++ [p]) = put (putAll ps) p := by
  simp [putAll]

theorem put_from (h : q ∈ putAll ps) : q ∈ ps := by
  induction ps using List.reverseRecOn with
  | nil => exact h
  | append_singleton ps p ih =>
    simp only [put_all_append, put, List.mem_append, List.mem_filter, List.mem_singleton] at h ⊢
    exact h.imp (fun hq => ih hq.1) id

/-- Of the names that a test accepts, if they are all the same one, the entry put
last is found. -/
theorem find_put_all (accepts : α → Bool)
    (hsame : ∀ p ∈ ps, ∀ q ∈ ps, accepts p.1 = true → accepts q.1 = true → p.1 = q.1) :
    (putAll ps).find? (fun p => accepts p.1) = ps.reverse.find? fun p => accepts p.1 := by
  induction ps using List.reverseRecOn with
  | nil => rfl
  | append_singleton ps p ih =>
    have hps := ih fun q hq r hr =>
      hsame q (List.mem_append_left _ hq) r (List.mem_append_left _ hr)
    rw [put_all_append, put, List.find?_append, List.find?_filter, List.reverse_concat,
      List.find?_cons]
    cases hp : accepts p.1 with
    | true =>
      have hnone : (putAll ps).find? (fun q => !decide (q.1 = p.1) && accepts q.1) = none := by
        rw [List.find?_eq_none]
        intro q hq haccepts
        simp only [Bool.and_eq_true, Bool.not_eq_true', decide_eq_false_iff_not] at haccepts
        exact haccepts.1 (hsame q (List.mem_append_left _ (put_from hq)) p (by simp) haccepts.2 hp)
      simp [hnone, hp]
    | false =>
      have hother : ((putAll ps).find? fun q => !decide (q.1 = p.1) && accepts q.1) =
          (putAll ps).find? fun q => accepts q.1 := by
        congr 1
        funext q
        by_cases hq : q.1 = p.1
        · simp [hq, hp]
        · simp [hq]
      simp [hother, hps, hp]

end Latest
