import Mathlib.Data.List.Basic

namespace LiteralRules

/-- What keeps a mark from ending a literal: that it is written twice, or that an
escape stands in front of it. -/
structure Rule where
  doubled : Bool
  escapes : Bool

variable [DecidableEq α] (mark escape : α) (r : Rule)

/-- What stands behind a literal, from behind its first mark. -/
def behind : List α → Option (List α)
  | [] => none
  | c :: text =>
    if c = mark then
      match text with
      | d :: rest => if d = mark ∧ r.doubled then behind rest else some (d :: rest)
      | [] => some []
    else if c = escape ∧ r.escapes then
      match text with
      | _ :: rest => behind rest
      | [] => none
    else behind text

/-- What stands behind the literal at the head of a text. -/
def read : List α → Option (List α)
  | [] => none
  | c :: text => if c = mark then behind mark escape r text else none

/-- Whether an odd number of escapes ends a text, from whether one was in front of it. -/
def odd (p : Bool) (text : List α) : Bool :=
  text.foldl (fun p c => if c = escape then !p else false) p

/-- Behind an odd number of escapes the text goes on, and not with a mark. -/
def Guarded (p : Bool) (text : List α) : Prop :=
  ∀ before after, text = before ++ after → odd escape p before = true →
    ∃ c rest, after = c :: rest ∧ c ≠ mark

variable {mark escape r} {p : Bool} {c d : α} {text rest : List α}

theorem behind_length (h : behind mark escape r text = some rest) : rest.length < text.length := by
  fun_induction behind mark escape r text with
  | case1 => cases h
  | case2 d tail _ ih =>
    have := ih h
    simp only [List.length_cons]
    omega
  | case3 => cases h; simp
  | case4 => cases h; simp
  | case5 c _ _ d tail ih =>
    have := ih h
    simp only [List.length_cons]
    omega
  | case6 => cases h
  | case7 c tail _ _ ih =>
    have := ih h
    simp only [List.length_cons]
    omega

theorem behind_mark (h : ∀ rest, text = mark :: rest → r.doubled = false) :
    behind mark escape r (mark :: text) = some text := by
  rw [behind.eq_def]
  dsimp only
  rw [if_pos rfl]
  match text with
  | [] => rfl
  | d :: rest =>
    refine if_neg ?_
    rintro ⟨rfl, hdoubled⟩
    rw [h rest rfl] at hdoubled
    cases hdoubled

theorem behind_marks (h : r.doubled = true) (rest : List α) :
    behind mark escape r (mark :: mark :: rest) = behind mark escape r rest := by
  rw [behind, if_pos rfl]
  exact if_pos ⟨rfl, h⟩

theorem behind_escape (hne : escape ≠ mark) (h : r.escapes = true) (c : α) (rest : List α) :
    behind mark escape r (escape :: c :: rest) = behind mark escape r rest := by
  rw [behind, if_neg hne, if_pos ⟨rfl, h⟩]

theorem behind_other (hm : c ≠ mark) (h : c = escape → r.escapes = false) (text : List α) :
    behind mark escape r (c :: text) = behind mark escape r text := by
  have hesc : ¬ (c = escape ∧ r.escapes = true) := by
    rintro ⟨hc, hescapes⟩
    rw [h hc] at hescapes
    cases hescapes
  rw [behind.eq_def]
  dsimp only
  rw [if_neg hm, if_neg hesc]

theorem read_mark (text : List α) :
    read mark escape r (mark :: text) = behind mark escape r text := if_pos rfl

/-- Nothing that stands behind a literal is all that is read. -/
theorem behind_ne_self : behind mark escape r rest ≠ some rest := fun h =>
  Nat.lt_irrefl _ (behind_length h)

theorem guarded_nil : Guarded mark escape p [] ↔ p = false := by
  constructor
  · intro h
    by_contra hp
    have hp : p = true := by simpa using hp
    obtain ⟨c, rest, hcons, -⟩ := h [] [] rfl hp
    cases hcons
  · intro hp before after hsplit hodd
    obtain ⟨rfl, rfl⟩ := List.append_eq_nil_iff.mp hsplit.symm
    rw [hp] at hodd
    cases hodd

theorem guarded_cons : Guarded mark escape p (c :: text) ↔
    (p = true → c ≠ mark) ∧ Guarded mark escape (if c = escape then !p else false) text := by
  constructor
  · intro h
    constructor
    · intro hp
      obtain ⟨_, _, hcons, hne⟩ := h [] (c :: text) rfl hp
      cases hcons
      exact hne
    · intro before after hsplit hodd
      exact h (c :: before) after (by rw [hsplit, List.cons_append]) hodd
  · rintro ⟨hc, h⟩ before after hsplit hodd
    cases before with
    | nil => exact ⟨c, text, hsplit.symm, hc hodd⟩
    | cons d before =>
      obtain ⟨rfl, htext⟩ := List.cons.inj hsplit
      exact h before after htext hodd

end LiteralRules
