import Mathlib.Data.List.Induction

namespace Journal

variable {κ ν ε : Type} [DecidableEq κ] {key : ε → κ} {effect : ε → Option ν → Option ν}

/-- What is under each key once the entries of a journal have had their effects,
each on what is under its key. -/
def replay (key : ε → κ) (effect : ε → Option ν → Option ν) (start : κ → Option ν)
    (journal : List ε) : κ → Option ν :=
  journal.foldl (fun held e k => if k = key e then effect e (held k) else held k) start

theorem replay_append (start : κ → Option ν) (journal later : List ε) :
    replay key effect start (journal ++ later) =
      replay key effect (replay key effect start journal) later := List.foldl_append

theorem replay_concat (start : κ → Option ν) (journal : List ε) (e : ε) :
    replay key effect start (journal ++ [e]) = fun k =>
      if k = key e then effect e (replay key effect start journal k)
      else replay key effect start journal k := by
  rw [replay_append]
  rfl

/-- What every entry under the key keeps holds in the end. -/
theorem replay_keep {P : Option ν → Prop} (start : κ → Option ν) (hstart : P (start k))
    (h : ∀ e ∈ journal, key e = k → ∀ v, P v → P (effect e v)) :
    P (replay key effect start journal k) := by
  induction journal using List.reverseRecOn with
  | nil => exact hstart
  | append_singleton journal e ih =>
    obtain ⟨hjournal, he⟩ := List.forall_mem_append.mp h
    have hkept := ih hjournal
    simp only [replay_concat]
    split
    · next hk => exact he e (by simp) hk.symm _ hkept
    · exact hkept

/-- What is under a key is due to the last entry under it, if there is one. -/
theorem replay_last (key : ε → κ) (effect : ε → Option ν → Option ν) (start : κ → Option ν)
    (journal : List ε) (k : κ) :
    (∀ e ∈ journal, key e ≠ k) ∧ replay key effect start journal k = start k ∨
    ∃ before e later, journal = before ++ e :: later ∧ key e = k ∧
      (∀ e' ∈ later, key e' ≠ k) ∧
      replay key effect start journal k = effect e (replay key effect start before k) := by
  induction journal using List.reverseRecOn with
  | nil => exact .inl ⟨by simp, rfl⟩
  | append_singleton journal e ih =>
    by_cases hk : key e = k
    · refine .inr ⟨journal, e, [], rfl, hk, by simp, ?_⟩
      simp [replay_concat, hk]
    · have hsame :
          replay key effect start (journal ++ [e]) k = replay key effect start journal k := by
        simp [replay_concat, Ne.symm hk]
      rw [hsame]
      rcases ih with ⟨hnone, hstart⟩ | ⟨before, last, later, rfl, hlast, hlater, heffect⟩
      · refine .inl ⟨List.forall_mem_append.mpr ⟨hnone, ?_⟩, hstart⟩
        simpa using hk
      · refine .inr ⟨before, last, later ++ [e], by simp, hlast,
          List.forall_mem_append.mpr ⟨hlater, ?_⟩, heffect⟩
        simpa using hk

end Journal
