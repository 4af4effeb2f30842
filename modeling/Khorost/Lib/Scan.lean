import Mathlib.Data.List.TakeWhile

namespace Scan

/-- A text that begins with a token: a run of `lead`, the token itself, and the
first stop character behind that run. -/
structure Lexeme (lead : α) (stops : List α) (text gap token : List α) (stop : α)
    (rest : List α) : Prop where
  split : text = gap ++ token ++ stop :: rest
  gap_lead : ∀ x ∈ gap, x = lead
  starts : (token ++ [stop]).head? ≠ some lead
  clear : ∀ x ∈ token, x ∉ stops
  ends : stop ∈ stops

/-- No stop character stands behind the leading run, so no token is complete. -/
def Open (lead : α) (stops text : List α) : Prop :=
  ∃ gap token, text = gap ++ token ∧ (∀ x ∈ gap, x = lead) ∧ token.head? ≠ some lead ∧
    ∀ x ∈ token, x ∉ stops

/-- A first part without a stop character is cut off wherever the text ends or
the first stop character stands. -/
theorem clear_or_split (stops text : List α) :
    (∀ x ∈ text, x ∉ stops) ∨
      ∃ token stop rest, text = token ++ stop :: rest ∧ (∀ x ∈ token, x ∉ stops) ∧ stop ∈ stops := by
  induction text with
  | nil => simp
  | cons c cs ih =>
    by_cases hc : c ∈ stops
    · exact .inr ⟨[], c, cs, rfl, by simp, hc⟩
    · rcases ih with ih | ⟨token, stop, rest, rfl, ht, hs⟩
      · left
        intro x hx
        rcases List.mem_cons.mp hx with rfl | hx
        · exact hc
        · exact ih x hx
      · refine .inr ⟨c :: token, stop, rest, rfl, ?_, hs⟩
        intro x hx
        rcases List.mem_cons.mp hx with rfl | hx
        · exact hc
        · exact ht x hx

theorem lead_split [DecidableEq α] (lead : α) (text : List α) :
    ∃ gap rest, text = gap ++ rest ∧ (∀ x ∈ gap, x = lead) ∧ rest.head? ≠ some lead := by
  induction text with
  | nil => exact ⟨[], [], rfl, by simp, by simp⟩
  | cons c cs ih =>
    by_cases hc : c = lead
    · obtain ⟨gap, rest, he, hg, hr⟩ := ih
      refine ⟨c :: gap, rest, by rw [he]; rfl, ?_, hr⟩
      intro x hx
      rcases List.mem_cons.mp hx with rfl | hx
      · exact hc
      · exact hg x hx
    · exact ⟨[], c :: cs, rfl, by simp, by simpa using hc⟩

/-- Every text either begins with a complete token or is open. -/
theorem token_or_open [DecidableEq α] (lead : α) (stops text : List α) :
    (∃ gap token stop rest, Lexeme lead stops text gap token stop rest) ∨ Open lead stops text := by
  obtain ⟨gap, tail, rfl, hg, hl⟩ := lead_split lead text
  rcases clear_or_split stops tail with hc | ⟨token, stop, rest, rfl, hc, hs⟩
  · exact .inr ⟨gap, tail, rfl, hg, hl, hc⟩
  · refine .inl ⟨gap, token, stop, rest, by simp, hg, ?_, hc, hs⟩
    cases token <;> simpa using hl

/-- What has arrived of a text either stops short of a given character or goes
past it. -/
theorem prefix_split {p before tail : List α} (h : p <+: before ++ c :: tail) :
    p <+: before ∨ ∃ q, p = before ++ c :: q ∧ q <+: tail := by
  rcases List.prefix_or_prefix_of_prefix h (List.prefix_append before (c :: tail)) with hp | hp
  · exact .inl hp
  · obtain ⟨q, rfl⟩ := hp
    have hq : q <+: c :: tail := (List.prefix_append_right_inj before).mp h
    cases q with
    | nil => exact .inl (by simp)
    | cons d q =>
      obtain ⟨rfl, ht⟩ := List.cons_prefix_cons.mp hq
      exact .inr ⟨q, rfl, ht⟩

theorem append_split {p rest before tail : List α} (h : p ++ rest = before ++ c :: tail) :
    p <+: before ∨ ∃ q, p = before ++ c :: q ∧ q ++ rest = tail := by
  rcases prefix_split (c := c) ⟨rest, h⟩ with hp | ⟨q, rfl, -⟩
  · exact .inl hp
  · rw [List.append_assoc] at h
    exact .inr ⟨q, rfl, (List.cons.inj (List.append_cancel_left h)).2⟩

theorem open_of_clear [DecidableEq α] (lead : α) (hc : ∀ x ∈ p, x ∉ stops) : Open lead stops p := by
  obtain ⟨gap, rest, rfl, hg, hr⟩ := lead_split lead p
  exact ⟨gap, rest, rfl, hg, hr, fun x hx => hc x (List.mem_append_right _ hx)⟩

/-- So is a text of which less than the first token has arrived. -/
theorem open_in_part [DecidableEq α] (lead : α) (hp : p <+: token) (hc : ∀ x ∈ token, x ∉ stops) :
    Open lead stops p :=
  open_of_clear lead (fun x hx => hc x (hp.subset hx))

/-- A token that has been cut off a text. -/
structure Cut (α : Type) where
  gap : List α
  token : List α
  stop : α
  rest : List α

/-- Cuts the first token off, if it is complete. -/
def cut [DecidableEq α] (lead : α) (stops text : List α) : Option (Cut α) :=
  let tail := text.dropWhile (· = lead)
  match tail.dropWhile (· ∉ stops) with
  | [] => none
  | stop :: rest => some ⟨text.takeWhile (· = lead), tail.takeWhile (· ∉ stops), stop, rest⟩

theorem lead_run [DecidableEq α] {lead : α} {gap tail : List α} (hg : ∀ x ∈ gap, x = lead)
    (ht : tail.head? ≠ some lead) : (gap ++ tail).takeWhile (· = lead) = gap ∧
      (gap ++ tail).dropWhile (· = lead) = tail := by
  have htail : tail.takeWhile (· = lead) = [] ∧ tail.dropWhile (· = lead) = tail := by
    cases tail with
    | nil => exact ⟨rfl, rfl⟩
    | cons c tail =>
      have hc : ¬ c = lead := fun he => ht (by rw [he]; rfl)
      simp [hc]
  have hgap : ∀ x ∈ gap, decide (x = lead) = true := fun x hx => decide_eq_true (hg x hx)
  rw [List.takeWhile_append_of_pos hgap, List.dropWhile_append_of_pos hgap, htail.1, htail.2,
    List.append_nil]
  exact ⟨rfl, rfl⟩

theorem cut_lexeme [DecidableEq α] {lead stop : α} {stops text gap token rest : List α}
    (h : Lexeme lead stops text gap token stop rest) :
    cut lead stops text = some ⟨gap, token, stop, rest⟩ := by
  obtain ⟨rfl, hg, hstart, hclear, hend⟩ := h
  have hhead : (token ++ stop :: rest).head? ≠ some lead := by
    cases token with
    | nil => exact hstart
    | cons c token => exact hstart
  obtain ⟨htake, hdrop⟩ := lead_run hg hhead
  have htoken : ∀ x ∈ token, decide (x ∉ stops) = true := fun x hx => decide_eq_true (hclear x hx)
  rw [List.append_assoc]
  simp only [cut, htake, hdrop, List.dropWhile_append_of_pos htoken,
    List.takeWhile_append_of_pos htoken]
  simp [hend]

theorem cut_open [DecidableEq α] {lead : α} {stops text : List α} (h : Open lead stops text) :
    cut lead stops text = none := by
  obtain ⟨gap, token, rfl, hg, hstart, hclear⟩ := h
  obtain ⟨-, hdrop⟩ := lead_run hg hstart
  have htoken : token.dropWhile (· ∉ stops) = [] := by
    rw [List.dropWhile_eq_nil_iff]
    exact fun x hx => decide_eq_true (hclear x hx)
  simp only [cut, hdrop, htoken]

theorem lexeme_of_cut [DecidableEq α] {lead : α} {stops text : List α} {c : Cut α}
    (h : cut lead stops text = some c) : Lexeme lead stops text c.gap c.token c.stop c.rest := by
  rcases token_or_open lead stops text with ⟨gap, token, stop, rest, ht⟩ | ho
  · rw [cut_lexeme ht] at h
    obtain rfl := Option.some.inj h
    exact ht
  · rw [cut_open ho] at h
    cases h

theorem open_of_cut [DecidableEq α] {lead : α} {stops text : List α}
    (h : cut lead stops text = none) : Open lead stops text := by
  rcases token_or_open lead stops text with ⟨gap, token, stop, rest, ht⟩ | ho
  · rw [cut_lexeme ht] at h
    cases h
  · exact ho

/-- A token that does not contain the leading element begins at once. -/
theorem Lexeme.of_clear {lead : α} {stops : List α} (token rest : List α) (stop : α)
    (hlead : ∀ c ∈ token, c ≠ lead) (hstop : stop ≠ lead ∨ token ≠ [])
    (hc : ∀ c ∈ token, c ∉ stops) (hs : stop ∈ stops) :
    Lexeme lead stops (token ++ stop :: rest) [] token stop rest := by
  refine ⟨rfl, by simp, ?_, hc, hs⟩
  cases token with
  | nil => simpa using hstop
  | cons c token => simpa using hlead c (by simp)

theorem clear_of_subset {token all stops : List α} (h : ∀ c ∈ token, c ∉ all)
    (hsub : stops ⊆ all) : ∀ c ∈ token, c ∉ stops :=
  fun c hc hs => h c hc (hsub hs)

/-- What arrives behind a complete token stays behind it. -/
theorem Lexeme.extend {lead stop : α} {stops text gap token rest : List α}
    (h : Lexeme lead stops text gap token stop rest) (more : List α) :
    Lexeme lead stops (text ++ more) gap token stop (rest ++ more) :=
  ⟨by rw [h.split]; simp, h.gap_lead, h.starts, h.clear, h.ends⟩

theorem Lexeme.length {lead stop : α} {stops text gap token rest : List α}
    (h : Lexeme lead stops text gap token stop rest) :
    text.length = gap.length + token.length + 1 + rest.length := by
  rw [h.split]
  simp only [List.length_append, List.length_cons]
  omega

/-- More of the text changes only what stands behind the token. -/
theorem cut_extend [DecidableEq α] {lead : α} {stops text : List α} {c : Cut α}
    (h : cut lead stops text = some c) (more : List α) :
    cut lead stops (text ++ more) = some { c with rest := c.rest ++ more } :=
  cut_lexeme ((lexeme_of_cut h).extend more)

theorem cut_shorter [DecidableEq α] {lead : α} {stops text : List α} {c : Cut α}
    (h : cut lead stops text = some c) : c.rest.length < text.length := by
  have hlen := (lexeme_of_cut h).length
  omega

end Scan
