import Khorost.Lib.Substitution

namespace Replacing

open Substitution

variable {α : Type} [DecidableEq α] {m r rest xs : List α} {d : Nat}

/-- The text with `r` in the place of every occurrence of `m`, from left to right;
occurrences that overlap one in front of them do not count. -/
def replaceAll (m r xs : List α) : List α := substitute [(m, r)] 0 xs

theorem replace_all_hit (hm : m ≠ []) (r rest : List α) :
    replaceAll m r (m ++ rest) = r ++ replaceAll m r rest :=
  substitute_hit (List.find?_cons_of_pos (by simp)) hm

theorem substitute_miss (h : ¬ m <+: x :: xs) (r : List α) :
    substitute [(m, r)] 0 (x :: xs) = x :: substitute [(m, r)] 0 xs := by
  have hnone : [(m, r)].find? (fun b => b.1 <+: x :: xs) = none := by
    rw [List.find?_cons_of_neg (by simpa using h)]
    rfl
  rw [substitute, hnone]

theorem substitute_here (h : m <+: x :: xs) (r : List α) :
    substitute [(m, r)] 0 (x :: xs) = r ++ substitute [(m, r)] (m.length - 1) xs := by
  have hsome : [(m, r)].find? (fun b => b.1 <+: x :: xs) = some (m, r) :=
    List.find?_cons_of_pos (by simpa using h)
  rw [substitute, hsome]

theorem replace_all_miss (h : ¬ m <+: x :: xs) (r : List α) :
    replaceAll m r (x :: xs) = x :: replaceAll m r xs := substitute_miss h r

theorem replace_all_clear (h : ¬ m <:+: xs) (r : List α) : replaceAll m r xs = xs := by
  refine substitute_clear xs fun i _ b hb hp => ?_
  obtain rfl := List.mem_singleton.mp hb
  exact h (hp.isInfix.trans (List.drop_suffix i xs).isInfix)

/-- With a text in its place that is not shorter a text gets no shorter. -/
theorem replace_all_length_le (hm : m ≠ []) (h : m.length ≤ r.length) (xs : List α) :
    xs.length ≤ (replaceAll m r xs).length := by
  have hpos := List.length_pos_of_ne_nil hm
  suffices hskip : ∀ skip, xs.length ≤ (substitute [(m, r)] skip xs).length + min skip xs.length by
    have := hskip 0
    rwa [Nat.zero_min] at this
  intro skip
  induction xs generalizing skip with
  | nil => exact Nat.zero_le _
  | cons x xs ih =>
    cases skip with
    | succ skip =>
      have := ih skip
      rw [substitute, List.length_cons]
      omega
    | zero =>
      by_cases hp : m <+: x :: xs
      · have := ih (m.length - 1)
        have hle := hp.length_le
        rw [substitute_here hp, List.length_append]
        rw [List.length_cons] at hle ⊢
        omega
      · have := ih 0
        rw [substitute_miss hp, List.length_cons, List.length_cons]
        omega

omit [DecidableEq α] in
/-- A text that begins in front of a foreign element ends in front of it. -/
theorem prefix_before_foreign (hy : y ∉ m) (front back : List α)
    (h : m <+: front ++ y :: back) : m <+: front := by
  rcases Nat.lt_or_ge front.length m.length with hlt | hge
  · have hat := List.prefix_iff_getElem?.mp h front.length hlt
    rw [List.getElem?_append_right (Nat.le_refl _), Nat.sub_self, List.getElem?_cons_zero] at hat
    exact absurd (Option.some.inj hat ▸ List.getElem_mem hlt) hy
  · exact List.prefix_of_prefix_length_le h (List.prefix_append _ _) hge

/-- What begins in front of a text with foreign elements in the place of its
occurrences has begun there before. -/
theorem prefix_of_substitute (hr : r ≠ []) (hforeign : ∀ x ∈ r, x ∉ m) (front xs : List α)
    (h : m <+: front ++ substitute [(m, r)] 0 xs) : m <+: front ++ xs := by
  induction xs generalizing front with
  | nil => exact h
  | cons x xs ih =>
    by_cases hp : m <+: x :: xs
    · obtain ⟨y, r', rfl⟩ := List.exists_cons_of_ne_nil hr
      rw [substitute_here hp, List.cons_append] at h
      exact (prefix_before_foreign (hforeign y List.mem_cons_self) front _ h).trans
        (List.prefix_append _ _)
    · rw [substitute_miss hp] at h
      have hmove : ∀ ys, front ++ x :: ys = front ++ [x] ++ ys := by simp
      rw [hmove] at h ⊢
      exact ih _ h

/-- With foreign elements in the place of all occurrences there are none left. -/
theorem substitute_gone (hm : m ≠ []) (hr : r ≠ []) (hforeign : ∀ x ∈ r, x ∉ m) (skip : Nat)
    (xs : List α) : ¬ m <:+: substitute [(m, r)] skip xs := by
  have hbehind : ∀ front ys : List α, (∀ x ∈ front, x ∉ m) → m <:+: front ++ ys → m <:+: ys := by
    intro front ys hfront h
    induction front with
    | nil => exact h
    | cons x front ih =>
      refine ih (fun y hy => hfront y (List.mem_cons_of_mem x hy)) ?_
      refine (List.infix_cons_iff.mp h).resolve_left fun hp => hm ?_
      exact List.prefix_nil.mp (prefix_before_foreign (hfront x List.mem_cons_self) [] _ hp)
  induction xs generalizing skip with
  | nil =>
    cases skip <;> exact fun h => hm (List.infix_nil.mp h)
  | cons x xs ih =>
    cases skip with
    | succ skip => exact ih skip
    | zero =>
      by_cases hp : m <+: x :: xs
      · rw [substitute_here hp]
        exact fun h => ih _ (hbehind r _ hforeign h)
      · rw [substitute_miss hp, List.infix_cons_iff]
        rintro (h | h)
        · exact hp (prefix_of_substitute hr hforeign [x] xs h)
        · exact ih 0 h

/-- The first element is one that has been put there or the first one before. -/
theorem head_substitute (hr : r ≠ []) (h : x ∈ (substitute [(m, r)] 0 xs).head?) :
    x ∈ r ∨ x ∈ xs.head? := by
  cases xs with
  | nil => cases h
  | cons y xs =>
    by_cases hp : m <+: y :: xs
    · obtain ⟨z, r', rfl⟩ := List.exists_cons_of_ne_nil hr
      rw [substitute_here hp] at h
      cases h
      exact .inl List.mem_cons_self
    · rw [substitute_miss hp] at h
      exact .inr h

theorem last_substitute (hr : r ≠ []) (skip : Nat)
    (h : x ∈ (substitute [(m, r)] skip xs).getLast?) : x ∈ r ∨ x ∈ xs.getLast? := by
  induction xs generalizing skip with
  | nil => cases skip <;> cases h
  | cons y xs ih =>
    have hlater : ∀ skip, x ∈ (substitute [(m, r)] skip xs).getLast? →
        x ∈ r ∨ x ∈ (y :: xs).getLast? := by
      intro skip h
      refine (ih skip h).imp id fun hlast => ?_
      rw [List.getLast?_cons, Option.mem_def.mp hlast]
      rfl
    cases skip with
    | succ skip => exact hlater skip h
    | zero =>
      by_cases hp : m <+: y :: xs
      · rw [substitute_here hp, List.getLast?_append, Option.mem_def, Option.or_eq_some_iff] at h
        rcases h with h | ⟨-, h⟩
        · exact hlater _ h
        · exact .inl (List.mem_of_getLast? h)
      · rw [substitute_miss hp] at h
        cases xs with
        | nil => exact .inr h
        | cons z xs =>
          have hne : substitute [(m, r)] 0 (z :: xs) ≠ [] := by
            by_cases hz : m <+: z :: xs
            · rw [substitute_here hz]
              exact List.append_ne_nil_of_left_ne_nil hr _
            · rw [substitute_miss hz]
              exact List.cons_ne_nil _ _
          obtain ⟨w, ws, hws⟩ := List.exists_cons_of_ne_nil hne
          refine hlater 0 ?_
          rw [hws] at h ⊢
          rwa [List.getLast?_cons_cons] at h

/-- The same with `d` elements behind each occurrence passed over. Of an
occurrence `skip` elements are still to come, and `pass` behind it. -/
def replaceSome (m r : List α) (d : Nat) : Nat → Nat → List α → List α
  | _, _, [] => []
  | skip + 1, pass, _ :: xs => replaceSome m r d skip pass xs
  | 0, pass + 1, x :: xs => x :: replaceSome m r d 0 pass xs
  | 0, 0, x :: xs =>
    if m <+: x :: xs then r ++ replaceSome m r d (m.length - 1) d xs
    else x :: replaceSome m r d 0 0 xs

/-- No occurrence begins where one is passed over. -/
def Spaced (m : List α) (d : Nat) : Nat → Nat → List α → Prop
  | _, _, [] => True
  | skip + 1, pass, _ :: xs => Spaced m d skip pass xs
  | 0, pass + 1, x :: xs => ¬ m <+: x :: xs ∧ Spaced m d 0 pass xs
  | 0, 0, x :: xs => if m <+: x :: xs then Spaced m d (m.length - 1) d xs else Spaced m d 0 0 xs

instance decideSpaced (m : List α) (d : Nat) :
    (skip pass : Nat) → (xs : List α) → Decidable (Spaced m d skip pass xs)
  | skip, pass, [] => .isTrue (by cases skip <;> cases pass <;> trivial)
  | skip + 1, pass, x :: xs => decideSpaced m d skip pass xs
  | 0, pass + 1, x :: xs =>
    have := decideSpaced m d 0 pass xs
    inferInstanceAs (Decidable (¬ m <+: x :: xs ∧ Spaced m d 0 pass xs))
  | 0, 0, x :: xs =>
    have := decideSpaced m d (m.length - 1) d xs
    have := decideSpaced m d 0 0 xs
    inferInstanceAs (Decidable
      (if m <+: x :: xs then Spaced m d (m.length - 1) d xs else Spaced m d 0 0 xs))

@[simp] theorem replace_some_nil (skip pass : Nat) : replaceSome m r d skip pass [] = [] := by
  cases skip <;> cases pass <;> rfl

theorem replace_some_skip (x : List α) (pass : Nat) (rest : List α) :
    replaceSome m r d x.length pass (x ++ rest) = replaceSome m r d 0 pass rest := by
  induction x with
  | nil => rfl
  | cons c x ih => exact ih

theorem replace_some_pass (pass : Nat) (rest : List α) :
    replaceSome m r d 0 pass rest = rest.take pass ++ replaceSome m r d 0 0 (rest.drop pass) := by
  induction pass generalizing rest with
  | zero => rfl
  | succ pass ih =>
    cases rest with
    | nil => rfl
    | cons x rest => exact congrArg (x :: ·) (ih rest)

theorem replace_some_hit (hm : m ≠ []) (r rest : List α) (d : Nat) :
    replaceSome m r d 0 0 (m ++ rest) =
      r ++ rest.take d ++ replaceSome m r d 0 0 (rest.drop d) := by
  obtain ⟨c, m', rfl⟩ := List.exists_cons_of_ne_nil hm
  have hp : c :: m' <+: c :: (m' ++ rest) := ⟨rest, rfl⟩
  rw [List.cons_append, replaceSome, if_pos hp, List.append_assoc, ← replace_some_pass d rest]
  exact congrArg (r ++ ·) (replace_some_skip m' d rest)

theorem replace_some_miss (h : ¬ m <+: x :: xs) (r : List α) (d : Nat) :
    replaceSome m r d 0 0 (x :: xs) = x :: replaceSome m r d 0 0 xs := if_neg h

theorem replace_some_clear (xs : List α) (h : ¬ m <:+: xs) : replaceSome m r d 0 0 xs = xs := by
  induction xs with
  | nil => rfl
  | cons x xs ih =>
    rw [List.infix_cons_iff, not_or] at h
    rw [replace_some_miss h.1]
    exact congrArg (x :: ·) (ih h.2)

/-- With a shorter text in its place a text gets no longer. -/
theorem replace_some_length_le (h : r.length ≤ m.length) (skip pass : Nat) (xs : List α) :
    (replaceSome m r d skip pass xs).length + min skip xs.length ≤ xs.length := by
  induction xs generalizing skip pass with
  | nil => simp
  | cons x xs ih =>
    match skip, pass with
    | skip + 1, pass =>
      have := ih skip pass
      simp only [replaceSome, List.length_cons]
      omega
    | 0, pass + 1 =>
      have := ih 0 pass
      simp only [replaceSome, List.length_cons]
      omega
    | 0, 0 =>
      rw [replaceSome]
      split
      · next hp =>
        have := ih (m.length - 1) d
        have hle := hp.length_le
        simp only [List.length_append, List.length_cons] at hle ⊢
        omega
      · have := ih 0 0
        simp only [List.length_cons]
        omega

/-- Where nothing begins in what is passed over, all occurrences are replaced. -/
theorem replace_some_spaced (skip pass : Nat) (xs : List α) (h : Spaced m d skip pass xs) :
    replaceSome m r d skip pass xs = substitute [(m, r)] skip xs := by
  induction xs generalizing skip pass with
  | nil => cases skip <;> cases pass <;> rfl
  | cons x xs ih =>
    match skip, pass with
    | skip + 1, pass => exact ih skip pass h
    | 0, pass + 1 =>
      rw [substitute_miss h.1]
      exact congrArg (x :: ·) (ih 0 pass h.2)
    | 0, 0 =>
      rw [Spaced] at h
      by_cases hp : m <+: x :: xs
      · rw [if_pos hp] at h
        rw [replaceSome, if_pos hp, substitute_here hp]
        exact congrArg (r ++ ·) (ih _ d h)
      · rw [if_neg hp] at h
        rw [replaceSome, if_neg hp, substitute_miss hp]
        exact congrArg (x :: ·) (ih 0 0 h)

theorem spaced_zero (m : List α) (skip : Nat) (xs : List α) : Spaced m 0 skip 0 xs := by
  induction xs generalizing skip with
  | nil => cases skip <;> trivial
  | cons x xs ih =>
    cases skip with
    | succ skip => exact ih skip
    | zero =>
      rw [Spaced]
      split <;> exact ih _

/-- With a text in its place that is not longer a text gets no longer. -/
theorem replace_all_length_ge (h : r.length ≤ m.length) (xs : List α) :
    (replaceAll m r xs).length ≤ xs.length := by
  have hsome := replace_some_length_le (d := 0) h 0 0 xs
  rw [replace_some_spaced 0 0 xs (spaced_zero m 0 xs), Nat.zero_min, Nat.add_zero] at hsome
  exact hsome

/-- No end of the text is also its beginning. -/
def Unbordered (m : List α) : Prop := ∀ k < m.length, 0 < k → ¬ m.drop k <+: m

instance (m : List α) : Decidable (Unbordered m) :=
  inferInstanceAs (Decidable (∀ k < m.length, 0 < k → ¬ m.drop k <+: m))

omit [DecidableEq α] in
theorem Unbordered.apart (h : Unbordered m) (hp : m <+: x :: xs) (i : Nat) (hi : i < m.length - 1) :
    ¬ m <+: xs.drop i := by
  intro hq
  refine h (i + 1) (by omega) (Nat.zero_lt_succ i) ?_
  have hend : m.drop (i + 1) <+: xs.drop i := hp.drop (i + 1)
  refine List.prefix_of_prefix_length_le hend hq ?_
  rw [List.length_drop]
  omega

/-- How many occurrences there are. -/
def count (m : List α) : List α → Nat
  | [] => 0
  | x :: xs => (if m <+: x :: xs then 1 else 0) + count m xs

/-- Every occurrence that is replaced takes `d` elements from the length. -/
theorem substitute_length (hm : Unbordered m) (hd : r.length + d = m.length) (hpos : m ≠ [])
    (skip : Nat) (xs : List α) (hskip : skip ≤ xs.length)
    (hclear : ∀ i < skip, ¬ m <+: xs.drop i) :
    (substitute [(m, r)] skip xs).length + skip + d * count m xs = xs.length := by
  have hlen := List.length_pos_of_ne_nil hpos
  induction xs generalizing skip with
  | nil =>
    obtain rfl : skip = 0 := Nat.le_zero.mp hskip
    rfl
  | cons x xs ih =>
    cases skip with
    | succ skip =>
      have hhere : ¬ m <+: x :: xs := hclear 0 (Nat.zero_lt_succ _)
      have hrest := ih skip (Nat.le_of_succ_le_succ hskip)
        fun i hi => hclear (i + 1) (Nat.succ_lt_succ hi)
      rw [substitute, count, if_neg hhere, Nat.zero_add, List.length_cons]
      omega
    | zero =>
      by_cases hp : m <+: x :: xs
      · have hle := hp.length_le
        rw [List.length_cons] at hle
        have hrest := ih (m.length - 1) (by omega) fun i hi => hm.apart hp i hi
        rw [substitute_here hp, count, if_pos hp, List.length_append, List.length_cons,
          Nat.mul_add, Nat.mul_one]
        omega
      · have hrest := ih 0 (Nat.zero_le _) fun i hi => absurd hi (Nat.not_lt_zero i)
        rw [substitute_miss hp, count, if_neg hp, Nat.zero_add, List.length_cons, List.length_cons]
        omega

/-- What is passed over does not: only where nothing is, as many are taken. -/
theorem replace_some_length (hm : Unbordered m) (hd : r.length + d = m.length) (hpos : m ≠ [])
    (hd0 : 0 < d) (skip pass : Nat) (xs : List α) (hskip : skip ≤ xs.length)
    (hclear : ∀ i < skip, ¬ m <+: xs.drop i) :
    xs.length ≤ (replaceSome m r d skip pass xs).length + skip + d * count m xs ∧
      (xs.length = (replaceSome m r d skip pass xs).length + skip + d * count m xs →
        Spaced m d skip pass xs) := by
  have hlen := List.length_pos_of_ne_nil hpos
  induction xs generalizing skip pass with
  | nil =>
    obtain rfl : skip = 0 := Nat.le_zero.mp hskip
    refine ⟨Nat.zero_le _, fun _ => ?_⟩
    cases pass <;> trivial
  | cons x xs ih =>
    match skip, pass with
    | skip + 1, pass =>
      have hhere : ¬ m <+: x :: xs := hclear 0 (Nat.zero_lt_succ _)
      obtain ⟨hle, heq⟩ := ih skip pass (Nat.le_of_succ_le_succ hskip)
        fun i hi => hclear (i + 1) (Nat.succ_lt_succ hi)
      rw [replaceSome, count, if_neg hhere, Nat.zero_add, List.length_cons, Spaced]
      exact ⟨by omega, fun h => heq (by omega)⟩
    | 0, pass + 1 =>
      obtain ⟨hle, heq⟩ := ih 0 pass (Nat.zero_le _) fun i hi => absurd hi (Nat.not_lt_zero i)
      rw [replaceSome, count, List.length_cons, List.length_cons, Spaced, Nat.mul_add]
      by_cases hp : m <+: x :: xs
      · -- an occurrence is passed over
        rw [if_pos hp, Nat.mul_one]
        exact ⟨by omega, fun h => by omega⟩
      · rw [if_neg hp, Nat.mul_zero, Nat.zero_add]
        exact ⟨by omega, fun h => ⟨hp, heq (by omega)⟩⟩
    | 0, 0 =>
      rw [replaceSome, count, List.length_cons, Spaced, Nat.mul_add]
      by_cases hp : m <+: x :: xs
      · have hle := hp.length_le
        rw [List.length_cons] at hle
        obtain ⟨hle', heq⟩ := ih (m.length - 1) d (by omega) fun i hi => hm.apart hp i hi
        rw [if_pos hp, if_pos hp, if_pos hp, List.length_append, Nat.mul_one]
        exact ⟨by omega, fun h => heq (by omega)⟩
      · obtain ⟨hle', heq⟩ := ih 0 0 (Nat.zero_le _) fun i hi => absurd hi (Nat.not_lt_zero i)
        rw [if_neg hp, if_neg hp, if_neg hp, List.length_cons, Nat.mul_zero, Nat.zero_add]
        exact ⟨by omega, fun h => heq (by omega)⟩

/-- For such a text nothing else makes up for what has been passed over. -/
theorem replace_some_eq_iff (hm : Unbordered m) (hd : r.length + d = m.length) (hpos : m ≠ [])
    (hd0 : 0 < d) (xs : List α) :
    replaceSome m r d 0 0 xs = replaceAll m r xs ↔ Spaced m d 0 0 xs := by
  refine ⟨fun h => ?_, replace_some_spaced 0 0 xs⟩
  have hall := substitute_length (r := r) hm hd hpos 0 xs (Nat.zero_le _)
    fun i hi => absurd hi (Nat.not_lt_zero i)
  obtain ⟨-, heq⟩ := replace_some_length (r := r) hm hd hpos hd0 0 0 xs (Nat.zero_le _)
    fun i hi => absurd hi (Nat.not_lt_zero i)
  rw [h] at heq
  exact heq hall.symm

end Replacing
