import Mathlib.Data.List.Basic

namespace Lines

variable {α : Type} {cr lf : α}

/-- Lines, each with its end, and an empty line behind the last one. -/
def block (cr lf : α) (lines : List (List α)) : List α :=
  lines.flatMap (· ++ [cr, lf]) ++ [cr, lf]

theorem block_cons (line : List α) (lines : List (List α)) :
    block cr lf (line :: lines) = line ++ cr :: lf :: block cr lf lines := by
  simp [block]

/-- What a line consists of. -/
structure IsLine (cr lf : α) (line : List α) : Prop where
  nonempty : line ≠ []
  no_cr : cr ∉ line
  no_lf : lf ∉ line

theorem block_head (h : ∀ line ∈ lines, IsLine cr lf line) (hne : lines ≠ []) :
    ∃ c rest, block cr lf lines = c :: rest ∧ c ≠ cr := by
  obtain ⟨line, lines, rfl⟩ := List.exists_cons_of_ne_nil hne
  have hline := h line List.mem_cons_self
  obtain ⟨c, line, rfl⟩ := List.exists_cons_of_ne_nil hline.nonempty
  rw [block_cons]
  refine ⟨c, _, rfl, ?_⟩
  rintro rfl
  exact hline.no_cr List.mem_cons_self

/-- Behind a line two line ends follow each other if what comes next begins with
one, or further on. -/
theorem blank_behind (hne : cr ≠ lf) (hline : IsLine cr lf line) (rest : List α) (i : Nat) :
    [cr, lf, cr, lf] <+: (line ++ cr :: lf :: rest).drop i ↔
      (i = line.length ∧ [cr, lf] <+: rest) ∨
        ∃ j, i = line.length + 2 + j ∧ [cr, lf, cr, lf] <+: rest.drop j := by
  rcases Nat.lt_trichotomy i line.length with hlt | rfl | hgt
  · refine iff_of_false (fun hp => ?_) (by rintro (⟨hi, -⟩ | ⟨j, hi, -⟩) <;> omega)
    rw [List.drop_append_of_le_length (Nat.le_of_lt hlt), List.drop_eq_getElem_cons hlt,
      List.cons_append, List.cons_prefix_cons] at hp
    exact hline.no_cr (hp.1 ▸ List.getElem_mem hlt)
  · rw [List.drop_left, List.cons_prefix_cons, List.cons_prefix_cons]
    constructor
    · rintro ⟨-, -, hp⟩
      exact .inl ⟨rfl, hp⟩
    · rintro (⟨-, hp⟩ | ⟨j, hi, -⟩)
      · exact ⟨rfl, rfl, hp⟩
      · omega
  · obtain ⟨j, rfl⟩ := Nat.exists_eq_add_of_lt hgt
    have hdrop : (line ++ cr :: lf :: rest).drop (line.length + j + 1) = (lf :: rest).drop j := by
      rw [Nat.add_assoc, ← List.drop_drop, List.drop_left, List.drop_succ_cons]
    rw [hdrop]
    cases j with
    | zero =>
      refine iff_of_false (fun hp => ?_) (by rintro (⟨hi, -⟩ | ⟨j, hi, -⟩) <;> omega)
      rw [List.drop_zero, List.cons_prefix_cons] at hp
      exact hne hp.1
    | succ j =>
      rw [List.drop_succ_cons]
      constructor
      · intro hp
        exact .inr ⟨j, by omega, hp⟩
      · rintro (⟨hi, -⟩ | ⟨k, hi, hp⟩)
        · omega
        · obtain rfl : j = k := by omega
          exact hp

/-- Two line ends follow each other at the end of the block and nowhere else. -/
theorem blank_line_once (hne : cr ≠ lf) (h : ∀ line ∈ lines, IsLine cr lf line)
    (hsome : lines ≠ []) (i : Nat) :
    [cr, lf, cr, lf] <+: (block cr lf lines).drop i ↔ i + 4 = (block cr lf lines).length := by
  induction lines generalizing i with
  | nil => exact absurd rfl hsome
  | cons line lines ih =>
    have hlines : ∀ line ∈ lines, IsLine cr lf line := fun l hl => h l (List.mem_cons_of_mem _ hl)
    have hlen : (block cr lf (line :: lines)).length =
        line.length + 2 + (block cr lf lines).length := by
      rw [block_cons, List.length_append, List.length_cons, List.length_cons]
      omega
    rw [hlen, block_cons, blank_behind hne (h line List.mem_cons_self)]
    cases lines with
    | nil =>
      have hend : block cr lf [] = [cr, lf] := rfl
      rw [hend]
      constructor
      · rintro (⟨rfl, -⟩ | ⟨j, rfl, hp⟩)
        · rfl
        · have hle := hp.length_le
          rw [List.length_drop] at hle
          simp only [List.length_cons, List.length_nil] at hle
          omega
      · intro hi
        exact .inl ⟨by simpa using hi, List.prefix_rfl⟩
    | cons next lines =>
      have hrest := ih hlines (by simp)
      constructor
      · rintro (⟨rfl, hp⟩ | ⟨j, rfl, hp⟩)
        · obtain ⟨c, rest, hblock, hc⟩ := block_head hlines (by simp)
          rw [hblock, List.cons_prefix_cons] at hp
          exact absurd hp.1.symm hc
        · rw [Nat.add_assoc, (hrest j).mp hp]
      · intro hi
        have hnext := List.length_pos_of_ne_nil (hlines next List.mem_cons_self).nonempty
        have hlong : 4 ≤ (block cr lf (next :: lines)).length := by
          rw [block_cons, List.length_append, block]
          simp only [List.length_cons, List.length_append, List.length_nil]
          omega
        refine .inr ⟨i - (line.length + 2), by omega, (hrest _).mpr (by omega)⟩

end Lines
