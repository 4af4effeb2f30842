import Mathlib.Algebra.Ring.Nat
import Mathlib.Data.List.Basic

namespace SqlLiteral

abbrev mark : UInt8 := 39
abbrev escape : UInt8 := 92

/-- What a backslash and a byte stand for. In front of `%` and `_`, the marks of
patterns, the backslash stays. -/
def escaped (c : UInt8) : List UInt8 :=
  if c = 48 then [0]
  else if c = 98 then [8]
  else if c = 110 then [10]
  else if c = 114 then [13]
  else if c = 116 then [9]
  else if c = 90 then [26]
  else if c = 37 ∨ c = 95 then [escape, c]
  else [c]

/-- The value of a literal and what stands behind it, from behind its first mark.
A doubled mark stands for one. -/
def body : List UInt8 → Option (List UInt8 × List UInt8)
  | [] => none
  | c :: text =>
    if c = mark then
      match text with
      | [] => some ([], [])
      | d :: rest =>
        if d = mark then (body rest).map fun r => (mark :: r.1, r.2) else some ([], d :: rest)
    else if c = escape then
      match text with
      | [] => none
      | d :: rest => (body rest).map fun r => (escaped d ++ r.1, r.2)
    else (body text).map fun r => (c :: r.1, r.2)

/-- A literal at the head of a text. -/
def read : List UInt8 → Option (List UInt8 × List UInt8)
  | [] => none
  | c :: text => if c = mark then body text else none

/-- A text that is its own value: there is no mark in it, and a backslash only
where it stays. -/
def Plain : List UInt8 → Prop
  | [] => True
  | [c] => c ≠ mark ∧ c ≠ escape
  | c :: d :: text =>
    c ≠ mark ∧ if c = escape then (d = 37 ∨ d = 95) ∧ Plain text else Plain (d :: text)

instance decidePlain : (s : List UInt8) → Decidable (Plain s)
  | [] => .isTrue trivial
  | [c] => inferInstanceAs (Decidable (c ≠ mark ∧ c ≠ escape))
  | c :: d :: text =>
    have := decidePlain text
    have := decidePlain (d :: text)
    inferInstanceAs (Decidable
      (c ≠ mark ∧ if c = escape then (d = 37 ∨ d = 95) ∧ Plain text else Plain (d :: text)))

theorem escaped_length_le (c : UInt8) : (escaped c).length ≤ 2 := by
  unfold escaped
  repeat' split
  all_goals simp

/-- Only a backslash that stays makes a value as long as what is written. -/
theorem escaped_two (h : (escaped c).length = 2) : c = 37 ∨ c = 95 := by
  unfold escaped at h
  repeat' split at h
  all_goals first | assumption | simp at h

theorem escaped_stays (h : c = 37 ∨ c = 95) : escaped c = [escape, c] := by
  rcases h with rfl | rfl <;> rfl

theorem body_length (h : body text = some (value, rest)) :
    value.length + rest.length < text.length := by
  fun_induction body text generalizing value rest with
  | case1 => cases h
  | case2 => cases h; simp
  | case3 tail ih =>
    obtain ⟨⟨v, r⟩, hv, heq⟩ := Option.map_eq_some_iff.mp h
    cases heq
    have := ih hv
    simp only [List.length_cons]
    omega
  | case4 => cases h; simp
  | case5 => cases h
  | case6 d tail _ ih =>
    obtain ⟨⟨v, r⟩, hv, heq⟩ := Option.map_eq_some_iff.mp h
    cases heq
    have := ih hv
    have hle := escaped_length_le d
    simp only [List.length_cons, List.length_append]
    omega
  | case7 c tail _ _ ih =>
    obtain ⟨⟨v, r⟩, hv, heq⟩ := Option.map_eq_some_iff.mp h
    cases heq
    have := ih hv
    simp only [List.length_cons]
    omega

theorem body_marks (text : List UInt8) :
    body (mark :: mark :: text) = (body text).map fun r => (mark :: r.1, r.2) := rfl

theorem body_ends (h : d ≠ mark) (text : List UInt8) :
    body (mark :: d :: text) = some ([], d :: text) := by
  rw [body, if_pos rfl]
  exact if_neg h

theorem body_escape (d : UInt8) (text : List UInt8) :
    body (escape :: d :: text) = (body text).map fun r => (escaped d ++ r.1, r.2) := rfl

theorem body_other (hm : c ≠ mark) (he : c ≠ escape) (text : List UInt8) :
    body (c :: text) = (body text).map fun r => (c :: r.1, r.2) := by
  rw [body.eq_def]
  dsimp only
  rw [if_neg hm, if_neg he]

/-- Between two marks a text is one literal with itself as the value exactly when
it is plain. -/
theorem body_self_iff (s : List UInt8) : body (s ++ [mark]) = some (s, []) ↔ Plain s := by
  induction s using Plain.induct with
  | case1 => exact iff_of_true rfl trivial
  | case2 c =>
    by_cases hm : c = mark
    · subst hm
      exact iff_of_false (by simp [body_marks, body]) fun h => h.1 rfl
    by_cases he : c = escape
    · subst he
      exact iff_of_false (by simp [body_escape, body]) fun h => h.2 rfl
    · refine iff_of_true ?_ ⟨hm, he⟩
      rw [List.singleton_append, body_other hm he]
      rfl
  | case3 c d text ihText ih =>
    rw [Plain]
    by_cases he : c = escape
    · subst he
      rw [if_pos rfl, List.cons_append, List.cons_append, body_escape, Option.map_eq_some_iff]
      constructor
      · rintro ⟨⟨v, r⟩, hv, heq⟩
        obtain ⟨hvalue, rfl⟩ := Prod.mk.inj heq
        have hlen := body_length hv
        have htwo := congrArg List.length hvalue
        have hle := escaped_length_le d
        simp only [List.length_append, List.length_cons, List.length_nil] at hlen htwo
        have hd := escaped_two (c := d) (by omega)
        rw [escaped_stays hd] at hvalue
        obtain rfl : v = text := by simpa using hvalue
        exact ⟨by decide, hd, ihText.mp hv⟩
      · rintro ⟨-, hd, h⟩
        exact ⟨(text, []), ihText.mpr h, by rw [escaped_stays hd]; rfl⟩
    by_cases hm : c = mark
    · subst hm
      refine iff_of_false ?_ fun h => h.1 rfl
      by_cases hd : d = mark
      · subst hd
        rw [List.cons_append, List.cons_append, body_marks, Option.map_eq_some_iff]
        rintro ⟨⟨v, r⟩, hv, heq⟩
        obtain ⟨hvalue, rfl⟩ := Prod.mk.inj heq
        have hlen := body_length hv
        have htwo := congrArg List.length hvalue
        simp only [List.length_append, List.length_cons, List.length_nil] at hlen htwo
        omega
      · rw [List.cons_append, List.cons_append, body_ends hd]
        intro h
        cases h
    · rw [List.cons_append, body_other hm he, if_neg he, ← ih]
      simp [hm, Prod.ext_iff]

theorem read_mark (text : List UInt8) : read (mark :: text) = body text := by
  rw [read, if_pos rfl]

theorem read_self_iff (s : List UInt8) : read (mark :: s ++ [mark]) = some (s, []) ↔ Plain s := by
  rw [List.cons_append, read_mark, body_self_iff]

/-- A byte as it is written into a literal. -/
def escapeByte (c : UInt8) : List UInt8 :=
  if c = 0 then [escape, 48]
  else if c = 10 then [escape, 110]
  else if c = 13 then [escape, 114]
  else if c = 26 then [escape, 90]
  else if c = mark ∨ c = 34 ∨ c = escape then [escape, c]
  else [c]

def escapeText (s : List UInt8) : List UInt8 := s.flatMap escapeByte

theorem body_escape_byte (c : UInt8) (text : List UInt8) :
    body (escapeByte c ++ text) = (body text).map fun r => (c :: r.1, r.2) := by
  unfold escapeByte
  split
  · next h => subst h; rfl
  split
  · next h => subst h; rfl
  split
  · next h => subst h; rfl
  split
  · next h => subst h; rfl
  split
  · next h => rcases h with rfl | rfl | rfl <;> rfl
  · next h =>
    simp only [not_or] at h
    exact body_other h.1 h.2.2 text

theorem body_escape_text (s : List UInt8) : body (escapeText s ++ [mark]) = some (s, []) := by
  induction s with
  | nil => rfl
  | cons c s ih =>
    rw [escapeText, List.flatMap_cons, List.append_assoc, body_escape_byte]
    change (body (escapeText s ++ [mark])).map _ = _
    rw [ih]
    rfl

theorem read_escape_text (s : List UInt8) :
    read (mark :: escapeText s ++ [mark]) = some (s, []) := by
  rw [List.cons_append, read_mark, body_escape_text]

theorem escape_text_length (s : List UInt8) : (escapeText s).length ≤ 2 * s.length := by
  induction s with
  | nil => exact Nat.zero_le _
  | cons c s ih =>
    have hc : (escapeByte c).length ≤ 2 := by
      unfold escapeByte
      repeat' split
      all_goals simp
    rw [escapeText, List.flatMap_cons, List.length_append, List.length_cons]
    change _ + (escapeText s).length ≤ _
    omega

end SqlLiteral
