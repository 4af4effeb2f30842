import Mathlib.Data.List.Basic

namespace Quoted

variable [DecidableEq α] {q d : α} {inside : Bool} {x y m text : List α}

/-- Whether a place is between quotes, from whether the one before was. -/
def toggle (q : α) (inside : Bool) (c : α) : Bool := if c = q then !inside else inside

/-- Whether the place behind a text is between quotes. -/
def after (q : α) (inside : Bool) (text : List α) : Bool := text.foldl (toggle q) inside

/-- No `d` stands outside of quotes. -/
def Free (q d : α) : Bool → List α → Prop
  | _, [] => True
  | inside, c :: text => (inside = false → c ≠ d) ∧ Free q d (toggle q inside c) text

instance Free.decidable (q d : α) : (inside : Bool) → (text : List α) → Decidable (Free q d inside text)
  | _, [] => isTrue trivial
  | inside, c :: text =>
    have := Free.decidable q d (toggle q inside c) text
    inferInstanceAs (Decidable (_ ∧ _))

@[simp] theorem after_cons (q : α) (inside : Bool) (c : α) (text : List α) :
    after q inside (c :: text) = after q (toggle q inside c) text := rfl

theorem after_append (q : α) (inside : Bool) (x y : List α) :
    after q inside (x ++ y) = after q (after q inside x) y := List.foldl_append

theorem free_cons (c : α) (text : List α) :
    Free q d inside (c :: text) ↔ (inside = false → c ≠ d) ∧ Free q d (toggle q inside c) text :=
  Iff.rfl

theorem free_append (q d : α) (inside : Bool) (x y : List α) :
    Free q d inside (x ++ y) ↔ Free q d inside x ∧ Free q d (after q inside x) y := by
  induction x generalizing inside with
  | nil => exact (and_iff_right trivial).symm
  | cons c x ih => rw [List.cons_append, free_cons, free_cons, ih, and_assoc, after_cons]

theorem toggle_of_ne (h : c ≠ q) (inside : Bool) : toggle q inside c = inside := if_neg h

theorem toggle_self (q : α) (inside : Bool) : toggle q inside q = !inside := if_pos rfl

theorem after_clear (h : q ∉ x) (inside : Bool) : after q inside x = inside := by
  induction x with
  | nil => rfl
  | cons c x ih =>
    obtain ⟨hc, hx⟩ := List.ne_and_not_mem_of_not_mem_cons h
    rw [after_cons, toggle_of_ne hc.symm, ih hx]

theorem free_clear (h : d ∉ x) (inside : Bool) : Free q d inside x := by
  induction x generalizing inside with
  | nil => trivial
  | cons c x ih =>
    obtain ⟨hc, hx⟩ := List.ne_and_not_mem_of_not_mem_cons h
    exact ⟨fun _ => hc.symm, ih hx _⟩

theorem free_inside (h : q ∉ x) (d : α) : Free q d true x := by
  induction x with
  | nil => trivial
  | cons c x ih =>
    obtain ⟨hc, hx⟩ := List.ne_and_not_mem_of_not_mem_cons h
    refine ⟨nofun, ?_⟩
    rw [toggle_of_ne hc.symm]
    exact ih hx

/-- A text up to the first `d` outside of quotes. -/
theorem split_first (q d : α) (inside : Bool) (text : List α) :
    ∃ passed tail, text = passed ++ tail ∧ Free q d inside passed ∧
      (tail = [] ∨ tail.head? = some d ∧ after q inside passed = false) := by
  induction text generalizing inside with
  | nil => exact ⟨[], [], rfl, trivial, .inl rfl⟩
  | cons c text ih =>
    by_cases hc : inside = false ∧ c = d
    · obtain ⟨rfl, rfl⟩ := hc
      exact ⟨[], c :: text, rfl, trivial, .inr ⟨rfl, rfl⟩⟩
    · obtain ⟨passed, tail, rfl, hfree, hends⟩ := ih (toggle q inside c)
      exact ⟨c :: passed, tail, rfl, ⟨fun hin hd => hc ⟨hin, hd⟩, hfree⟩, hends⟩

/-- A text has no `d` outside of quotes, or a last one. -/
theorem split_last (hd : d ≠ q) (inside : Bool) (text : List α) :
    Free q d inside text ∨ ∃ before rest, text = before ++ d :: rest ∧
      after q inside before = false ∧ Free q d false rest := by
  induction text generalizing inside with
  | nil => exact .inl trivial
  | cons c text ih =>
    rcases ih (toggle q inside c) with hfree | ⟨before, rest, rfl, hafter, hfree⟩
    · by_cases hc : inside = false ∧ c = d
      · obtain ⟨rfl, rfl⟩ := hc
        rw [toggle_of_ne hd] at hfree
        exact .inr ⟨[], text, rfl, rfl, hfree⟩
      · exact .inl ⟨fun hin hd => hc ⟨hin, hd⟩, hfree⟩
    · exact .inr ⟨c :: before, rest, rfl, hafter, hfree⟩

/-- `m` stands at a position, outside of quotes. -/
def Occurs (q : α) (m text : List α) (i : Nat) : Prop :=
  after q false (text.take i) = false ∧ m <+: text.drop i ∧ m.head? ≠ some q

instance : Decidable (Occurs q m text i) := inferInstanceAs (Decidable (_ ∧ _))

/-- The first such position. -/
def First (q : α) (m text : List α) (i : Nat) : Prop :=
  Occurs q m text i ∧ ∀ j < i, ¬ Occurs q m text j

instance : Decidable (First q m text i) := inferInstanceAs (Decidable (_ ∧ _))

theorem First.unique (h : First q m text i) (h' : First q m text j) : i = j := by
  rcases Nat.lt_trichotomy i j with hlt | heq | hlt
  · exact absurd h.1 (h'.2 i hlt)
  · exact heq
  · exact absurd h'.1 (h.2 j hlt)

theorem exists_first (h : Occurs q m text i) : ∃ k, First q m text k := by
  induction i using Nat.strongRecOn with
  | _ i ih =>
    by_cases hbefore : ∀ j < i, ¬ Occurs q m text j
    · exact ⟨i, h, hbefore⟩
    · obtain ⟨j, hj⟩ := Classical.not_forall.mp hbefore
      obtain ⟨hlt, ho⟩ := Classical.not_imp.mp hj
      exact ih j hlt (Classical.not_not.mp ho)

theorem Occurs.bound (h : Occurs q m text i) (hm : m ≠ []) : i + m.length ≤ text.length := by
  have hlen := h.2.1.length_le
  have hpos := List.length_pos_iff.mpr hm
  rw [List.length_drop] at hlen
  omega

theorem after_take_succ {c : α} (h : text[i]? = some c) (inside : Bool) :
    after q inside (text.take (i + 1)) = toggle q (after q inside (text.take i)) c := by
  rw [List.take_add_one, h, after_append]
  rfl

end Quoted
