import Khorost.Lib.Replacing

/-- A regular expression. -/
inductive Pattern (α : Type)
  | empty
  | one (p : α → Bool)
  | many (p : α → Bool)
  | atEnd
  | seq (r s : Pattern α)
  | alt (r s : Pattern α)

namespace Pattern

open Replacing Substitution

variable {α : Type} {r s : Pattern α} {fmt text rest : List α}

/-- The lengths of the matches at the beginning of a text, those that are
preferred first: repetition is greedy. -/
def lengths : Pattern α → List α → List Nat
  | empty, _ => [0]
  | one _, [] => []
  | one p, x :: _ => if p x then [1] else []
  | many p, text => (List.range ((text.takeWhile p).length + 1)).reverse
  | atEnd, text => if text.isEmpty then [0] else []
  | seq r s, text => (r.lengths text).flatMap fun n => (s.lengths (text.drop n)).map (n + ·)
  | alt r s, text => r.lengths text ++ s.lengths text

/-- The preferred one of the matches that are not empty. -/
def consumed (r : Pattern α) (text : List α) : Option Nat := (r.lengths text).find? (0 < ·)

/-- What is put in the place of an empty match. -/
def inserted (r : Pattern α) (fmt text : List α) : List α :=
  if (r.lengths text).head? = some 0 then fmt else []

/-- From left to right, `fmt` in the place of the matches. Behind an empty match
only one that is not empty counts at the same place. Of a match that has been
replaced `skip` elements are still to come. -/
def replace (r : Pattern α) (fmt : List α) : Nat → List α → List α
  | 0, [] => r.inserted fmt []
  | _ + 1, [] => []
  | skip + 1, _ :: text => r.replace fmt skip text
  | 0, x :: text =>
    r.inserted fmt (x :: text) ++
      match r.consumed (x :: text) with
      | some n => fmt ++ r.replace fmt (n - 1) text
      | none => x :: r.replace fmt 0 text

theorem mem_seq (hn : n ∈ r.lengths text) (hk : k ∈ s.lengths (text.drop n)) :
    n + k ∈ (seq r s).lengths text :=
  List.mem_flatMap.mpr ⟨n, hn, List.mem_map.mpr ⟨k, hk, rfl⟩⟩

theorem mem_many (p : α → Bool) (text : List α) :
    (text.takeWhile p).length ∈ (many p).lengths text := by
  rw [lengths, List.mem_reverse, List.mem_range]
  exact Nat.lt_succ_self _

theorem consumed_some (hn : n ∈ r.lengths text) (hpos : 0 < n) : r.consumed text ≠ none := by
  intro hnone
  have hn := List.find?_eq_none.mp hnone n hn
  exact hn (decide_eq_true hpos)

theorem mem_inserted (h : x ∈ r.inserted fmt text) : x ∈ fmt := by
  rw [inserted] at h
  split at h
  · exact h
  · cases h

theorem mem_replace {skip : Nat} (h : x ∈ r.replace fmt skip text) :
    x ∈ fmt ∨ ∃ rest, x :: rest <:+ text ∧ r.consumed (x :: rest) = none := by
  induction text generalizing skip with
  | nil =>
    cases skip with
    | zero => exact .inl (mem_inserted h)
    | succ skip => cases h
  | cons y text ih =>
    have hlater : ∀ skip, x ∈ r.replace fmt skip text →
        x ∈ fmt ∨ ∃ rest, x :: rest <:+ y :: text ∧ r.consumed (x :: rest) = none := by
      intro skip h
      refine (ih h).imp id ?_
      rintro ⟨rest, hsuffix, hnone⟩
      exact ⟨rest, hsuffix.trans (List.suffix_cons y text), hnone⟩
    cases skip with
    | succ skip => exact hlater skip h
    | zero =>
      rw [replace, List.mem_append] at h
      rcases h with h | h
      · exact .inl (mem_inserted h)
      · split at h
        · rcases List.mem_append.mp h with h | h
          · exact .inl h
          · exact hlater _ h
        · next hnone =>
          rcases List.mem_cons.mp h with rfl | h
          · exact .inr ⟨text, List.suffix_rfl, hnone⟩
          · exact hlater 0 h

theorem replace_clear (h : ∀ rest, rest <:+ text → r.lengths rest = []) :
    r.replace fmt 0 text = text := by
  induction text with
  | nil => simp [replace, inserted, h [] List.suffix_rfl]
  | cons x text ih =>
    have hhere := h (x :: text) List.suffix_rfl
    have hlater := ih fun rest hrest => h rest (hrest.trans (List.suffix_cons x text))
    simp [replace, inserted, consumed, hhere, hlater]

variable [DecidableEq α] {m : List α}

def literal : List α → Pattern α
  | [] => empty
  | c :: m => seq (one (· = c)) (literal m)

theorem literal_lengths (m text : List α) :
    (literal m).lengths text = if m <+: text then [m.length] else [] := by
  induction m generalizing text with
  | nil => simp [literal, lengths]
  | cons c m ih =>
    cases text with
    | nil => simp [literal, lengths]
    | cons x text =>
      by_cases hc : x = c
      · subst hc
        by_cases hm : m <+: text
        · simp [literal, lengths, ih, hm, Nat.add_comm]
        · simp [literal, lengths, ih, hm]
      · have hne : ¬ c = x := fun he => hc he.symm
        simp [literal, lengths, hc, hne]

/-- The occurrences of a text are replaced one after the other. -/
theorem replace_literal (hm : m ≠ []) (skip : Nat) (text : List α) :
    (literal m).replace fmt skip text = substitute [(m, fmt)] skip text := by
  have hpos := List.length_pos_of_ne_nil hm
  have hinserted : ∀ text, (literal m).inserted fmt text = [] := by
    intro text
    rw [inserted, literal_lengths]
    refine if_neg ?_
    split
    · rw [List.head?_cons, Option.some.injEq]
      omega
    · rw [List.head?_nil]
      exact nofun
  induction text generalizing skip with
  | nil =>
    cases skip with
    | zero => exact hinserted []
    | succ skip => rfl
  | cons x text ih =>
    cases skip with
    | succ skip => exact ih skip
    | zero =>
      rw [replace, hinserted, List.nil_append, consumed, literal_lengths]
      by_cases hhere : m <+: x :: text
      · rw [if_pos hhere, substitute_here hhere, List.find?_cons_of_pos (by simpa using hpos)]
        exact congrArg (fmt ++ ·) (ih _)
      · rw [if_neg hhere, substitute_miss hhere]
        exact congrArg (x :: ·) (ih 0)

end Pattern
