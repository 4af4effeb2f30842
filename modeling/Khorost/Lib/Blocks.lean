import Mathlib.Data.List.Basic
import Mathlib.Data.List.Infix

namespace Blocks

variable {α : Type} {mem front old back rest xs ys : List α}

/-- The `n` elements at a position of a memory, unless they reach past its end. -/
def read (mem : List α) (position n : Nat) : Option (List α) :=
  if position + n ≤ mem.length then some ((mem.drop position).take n) else none

/-- The memory with `xs` at a position, unless they reach past its end. -/
def write (mem : List α) (position : Nat) (xs : List α) : Option (List α) :=
  if position + xs.length ≤ mem.length then
    some (mem.take position ++ xs ++ mem.drop (position + xs.length))
  else none

/-- Copies `n` elements within the memory; the two places may overlap. -/
def move (mem : List α) (dest src n : Nat) : Option (List α) :=
  (read mem src n).bind (write mem dest)

theorem read_at (front xs back : List α) :
    read (front ++ xs ++ back) front.length xs.length = some xs := by
  have hle : front.length + xs.length ≤ (front ++ xs ++ back).length := by simp
  rw [read, if_pos hle, List.append_assoc, List.drop_left, List.take_left]

/-- What has been read is read whatever stands behind the memory. -/
theorem read_more (h : read mem position n = some xs) (behind : List α) :
    read (mem ++ behind) position n = some xs := by
  rw [read] at h
  split at h
  · rename_i hle
    have hle' : position + n ≤ (mem ++ behind).length := by
      rw [List.length_append]
      omega
    have hroom : n ≤ (mem.drop position).length := by
      rw [List.length_drop]
      omega
    rw [read, if_pos hle', List.drop_append_of_le_length (by omega),
      List.take_append_of_le_length hroom]
    exact h
  · cases h

theorem read_iff_starts (m : List α) (h : position + m.length ≤ mem.length) :
    read mem position m.length = some m ↔ m <+: mem.drop position := by
  rw [read, if_pos h, Option.some_inj, List.prefix_iff_eq_take, eq_comm]

theorem write_at (front back : List α) (h : old.length = xs.length) :
    write (front ++ old ++ back) front.length xs = some (front ++ xs ++ back) := by
  have hle : front.length + xs.length ≤ (front ++ old ++ back).length := by
    simp only [List.length_append]
    omega
  have htake : (front ++ old ++ back).take front.length = front := by
    rw [List.append_assoc, List.take_left]
  have hdrop : (front ++ old ++ back).drop (front.length + old.length) = back := by
    rw [← List.length_append, List.drop_left]
  rw [write, if_pos hle, htake, ← h, hdrop]

theorem write_length (h : write mem position xs = some ys) : ys.length = mem.length := by
  unfold write at h
  split at h
  · cases h
    simp only [List.length_append, List.length_take, List.length_drop]
    omega
  · cases h

theorem move_length (h : move mem dest src n = some ys) : ys.length = mem.length := by
  obtain ⟨xs, -, hwrite⟩ := Option.bind_eq_some_iff.mp h
  exact write_length hwrite

/-- A move of a block to the place `k` behind a front, from behind the front and `m`. -/
theorem move_block (front m back rest : List α) (k : Nat)
    (hroom : front.length + k + back.length ≤ (front ++ m ++ back ++ rest).length) :
    ∃ mid rest', mid.length = k ∧
      move (front ++ m ++ back ++ rest) (front.length + k) (front.length + m.length) back.length =
        some (front ++ mid ++ back ++ rest') := by
  have hread := read_at (front ++ m) back rest
  rw [List.length_append] at hread
  have htake : (front ++ m ++ back ++ rest).take (front.length + k) =
      front ++ (m ++ back ++ rest).take k := by
    rw [List.append_assoc, List.append_assoc, List.take_length_add_append, ← List.append_assoc]
  refine ⟨(m ++ back ++ rest).take k,
    (front ++ m ++ back ++ rest).drop (front.length + k + back.length), ?_, ?_⟩
  · simp only [List.length_append, List.length_take] at hroom ⊢
    omega
  · rw [move, hread, Option.bind_some, write, if_pos hroom, htake]

variable [DecidableEq α]

/-- The list with `r` in the place of the first occurrence of `m`. -/
def replaceFirst (m r : List α) : List α → Option (List α)
  | [] => if m = [] then some r else none
  | x :: xs =>
    if m <+: x :: xs then some (r ++ (x :: xs).drop m.length)
    else (replaceFirst m r xs).map (x :: ·)

variable {m r : List α}

theorem replace_here (h : m <+: xs) : replaceFirst m r xs = some (r ++ xs.drop m.length) := by
  cases xs with
  | nil =>
    obtain rfl := List.prefix_nil.mp h
    rw [replaceFirst, if_pos rfl, List.drop_nil, List.append_nil]
  | cons x xs => rw [replaceFirst, if_pos h]

theorem replace_later (x : α) (h : ¬ m <+: x :: xs) :
    replaceFirst m r (x :: xs) = (replaceFirst m r xs).map (x :: ·) := if_neg h

theorem replace_none_short (h : xs.length < m.length) : replaceFirst m r xs = none := by
  induction xs with
  | nil =>
    refine if_neg ?_
    rintro rfl
    cases h
  | cons x xs ih =>
    rw [replace_later x fun hm => Nat.not_le_of_lt h hm.length_le, ih (Nat.lt_of_succ_lt h)]
    rfl

/-- What is replaced is an occurrence, and none begins before it. -/
theorem replace_first_some (h : replaceFirst m r xs = some ys) :
    ∃ front back, xs = front ++ m ++ back ∧ ys = front ++ r ++ back ∧
      ∀ front' back', xs = front' ++ m ++ back' → front.length ≤ front'.length := by
  induction xs generalizing ys with
  | nil =>
    unfold replaceFirst at h
    split at h
    · next hm =>
      subst hm
      cases h
      exact ⟨[], [], rfl, by simp, fun _ _ _ => Nat.zero_le _⟩
    · cases h
  | cons x xs ih =>
    by_cases hm : m <+: x :: xs
    · rw [replace_here hm] at h
      cases h
      obtain ⟨back, hback⟩ := hm
      refine ⟨[], back, hback.symm, ?_, fun _ _ _ => Nat.zero_le _⟩
      rw [← hback, List.drop_left]
      rfl
    · rw [replace_later x hm, Option.map_eq_some_iff] at h
      obtain ⟨zs, hzs, rfl⟩ := h
      obtain ⟨front, back, rfl, rfl, hfirst⟩ := ih hzs
      refine ⟨x :: front, back, rfl, rfl, fun front' back' hsplit => ?_⟩
      cases front' with
      | nil => exact absurd ⟨back', hsplit.symm⟩ hm
      | cons y front' =>
        rw [List.cons_append, List.cons_append] at hsplit
        exact Nat.succ_le_succ (hfirst front' back' (List.cons.inj hsplit).2)

theorem replace_first_none (h : replaceFirst m r xs = none) (front back : List α) :
    xs ≠ front ++ m ++ back := by
  induction xs generalizing front with
  | nil =>
    intro hsplit
    have hm : m = [] := by
      have := congrArg List.length hsplit
      simp only [List.length_nil, List.length_append] at this
      exact List.eq_nil_of_length_eq_zero (by omega)
    rw [replaceFirst, if_pos hm] at h
    cases h
  | cons x xs ih =>
    intro hsplit
    by_cases hm : m <+: x :: xs
    · rw [replace_here hm] at h
      cases h
    · rw [replace_later x hm, Option.map_eq_none_iff] at h
      cases front with
      | nil => exact hm ⟨back, hsplit.symm⟩
      | cons y front => exact ih h front (List.cons.inj hsplit).2

/-- Looks for `m` at one position after the other up to `last`, reading as many
elements as `m` has at each; the memory begins at `position`. `none` is a read
past its end. -/
def search (m : List α) (last : Nat) : List α → Nat → Option (Option Nat)
  | [], position =>
    if last < position then some none else if m = [] then some (some position) else none
  | x :: mem, position =>
    if last < position then some none
    else do
      let xs ← read (x :: mem) 0 m.length
      if xs = m then some (some position) else search m last mem (position + 1)

/-- Where there is memory for all the reads, the first occurrence is found. -/
theorem search_spec {last : Nat} (mem : List α) (position : Nat)
    (hmem : last + m.length ≤ position + mem.length) :
    (∃ j, search m last mem position = some (some (position + j)) ∧ position + j ≤ last ∧
        m <+: mem.drop j ∧ ∀ i < j, ¬ m <+: mem.drop i) ∨
      (search m last mem position = some none ∧ ∀ i, position + i ≤ last → ¬ m <+: mem.drop i) := by
  induction mem generalizing position with
  | nil =>
    rw [search]
    by_cases hpast : last < position
    · exact .inr ⟨if_pos hpast, fun i hi => absurd hi (by omega)⟩
    · have hm : m = [] := List.eq_nil_of_length_eq_zero (by
        rw [List.length_nil] at hmem
        omega)
      rw [if_neg hpast, if_pos hm]
      exact .inl ⟨0, rfl, Nat.le_of_not_lt hpast, by simp [hm], fun i hi => absurd hi (Nat.not_lt_zero i)⟩
  | cons x mem ih =>
    rw [search]
    by_cases hpast : last < position
    · exact .inr ⟨if_pos hpast, fun i hi => absurd hi (by omega)⟩
    · have hread : read (x :: mem) 0 m.length = some ((x :: mem).take m.length) :=
        if_pos (by omega)
      rw [if_neg hpast, hread]
      simp only [Option.bind_eq_bind, Option.bind_some]
      by_cases hhere : m <+: x :: mem
      · rw [if_pos (List.prefix_iff_eq_take.mp hhere).symm]
        exact .inl ⟨0, rfl, Nat.le_of_not_lt hpast, hhere,
          fun i hi => absurd hi (Nat.not_lt_zero i)⟩
      · rw [if_neg fun he => hhere (List.prefix_iff_eq_take.mpr he.symm)]
        rw [List.length_cons] at hmem
        rcases ih (position + 1) (by omega) with
          ⟨j, hfound, hle, hat, hfirst⟩ | ⟨hfound, hnone⟩
        · refine .inl ⟨j + 1, by rw [hfound, Nat.add_right_comm]; rfl, by omega, hat,
            fun i hi => ?_⟩
          cases i with
          | zero => exact hhere
          | succ i => exact hfirst i (Nat.lt_of_succ_lt_succ hi)
        · refine .inr ⟨hfound, fun i hi => ?_⟩
          cases i with
          | zero => exact hhere
          | succ i => exact hnone i (by omega)

/-- Where a position is still to be looked at and there is less memory than `m`
takes, the first read already goes past its end. -/
theorem search_short {last : Nat} (hlen : mem.length < m.length) (h : position ≤ last) :
    search m last mem position = none := by
  have hlast : ¬ last < position := Nat.not_lt_of_le h
  cases mem with
  | nil =>
    have hm : m ≠ [] := List.ne_nil_of_length_pos hlen
    rw [search, if_neg hlast, if_neg hm]
  | cons x mem =>
    have hread : read (x :: mem) 0 m.length = none := if_neg (by omega)
    rw [search, if_neg hlast, hread]
    rfl

theorem search_past {last : Nat} (h : last < position) :
    search m last mem position = some none := by
  cases mem <;> exact if_pos h

/-- What is found with the reads that a memory allows is found in a larger one. -/
theorem search_more {last : Nat} (h : search m last mem position = some found) (behind : List α) :
    search m last (mem ++ behind) position = some found := by
  induction mem generalizing position with
  | nil =>
    rw [search] at h
    split at h
    · next hpast => rw [search_past hpast, h]
    · next hlast =>
      split at h
      · next hm =>
        subst hm
        cases behind with
        | nil => rw [List.append_nil, search, if_neg hlast, if_pos rfl, h]
        | cons x behind =>
          rw [List.nil_append, search, if_neg hlast]
          exact h
      · cases h
  | cons x mem ih =>
    rw [search] at h
    rw [List.cons_append, search]
    split at h
    · next hpast => rw [if_pos hpast, h]
    · next hlast =>
      obtain ⟨xs, hread, h⟩ := Option.bind_eq_some_iff.mp h
      rw [if_neg hlast]
      refine Option.bind_eq_some_iff.mpr ⟨xs, read_more hread behind, ?_⟩
      split at h
      · next hm => rw [if_pos hm, h]
      · next hm =>
        rw [if_neg hm]
        exact ih h

omit [DecidableEq α] in
/-- A text whose first element does not come again in it does not begin in front
of an occurrence, unless it stands there whole. -/
theorem no_overlap {c : α} (hc : c ∉ m) (hxs : ¬ c :: m <:+: xs) (hi : i < xs.length) :
    ¬ c :: m <+: (xs ++ c :: m ++ rest).drop i := by
  intro hm
  rw [List.append_assoc, List.drop_append_of_le_length (Nat.le_of_lt hi)] at hm
  have hin : (xs.drop i) <:+: xs := (List.drop_suffix i xs).isInfix
  rcases List.prefix_or_prefix_of_prefix hm (List.prefix_append _ _) with hp | ⟨tail, htail⟩
  · exact hxs (hp.isInfix.trans hin)
  · -- the text goes on into the occurrence, so its first element comes again
    obtain ⟨d, front, hfront⟩ := List.exists_cons_of_ne_nil
      (List.ne_nil_of_length_pos (by rw [List.length_drop]; omega) : xs.drop i ≠ [])
    have hmore : tail <+: c :: m ++ rest := by
      refine (List.prefix_append_right_inj (xs.drop i)).mp ?_
      rw [htail]
      exact hm
    rw [hfront, List.cons_append] at htail
    obtain ⟨-, hm'⟩ := List.cons.inj htail
    cases tail with
    | nil =>
      refine hxs (List.IsInfix.trans ?_ hin)
      rw [hfront, ← htail, List.append_nil]
    | cons e tail =>
      obtain ⟨rfl, -⟩ := List.cons_prefix_cons.mp hmore
      exact hc (hm' ▸ List.mem_append_right _ (List.mem_cons_self ..))

end Blocks
