import Khorost.Lib.Pattern
import Khorost.Util.CString

namespace Khorost.Data

def findFirstNotOf (str chars : List UInt8) : Option Nat := str.findIdx? fun c => c ∉ chars

def findLastNotOf (chars : List UInt8) : List UInt8 → Option Nat
  | [] => none
  | c :: str =>
    match findLastNotOf chars str with
    | some k => some (k + 1)
    | none => if c ∈ chars then none else some 0

def trim (str newline : List UInt8) : List UInt8 :=
  match findFirstNotOf str newline, findLastNotOf newline str with
  | some strBegin, some strEnd => (str.drop strBegin).take (strEnd - strBegin + 1)
  | _, _ => []

abbrev lessThan : UInt8 := 60
abbrev greaterThan : UInt8 := 62

/-- `<[^>]*(>|$)`. -/
def stripFormatting : Pattern UInt8 :=
  .seq (.one (· = lessThan))
    (.seq (.many (· ≠ greaterThan)) (.alt (.one (· = greaterThan)) .atEnd))

/-- `&nbsp;`. -/
def noBreakSpace : List UInt8 := ascii "&nbsp;"

def clearHtmlTags (source : List UInt8) : List UInt8 :=
  let s1 := stripFormatting.replace [] 0 source
  let s2 := trim s1 (ascii "\r\n")
  (Pattern.literal noBreakSpace).replace [space] 0 s2

/-- No character of `chars` stands at either end. -/
structure Trimmed (chars text : List UInt8) : Prop where
  head : ∀ c ∈ text.head?, c ∉ chars
  last : ∀ c ∈ text.getLast?, c ∉ chars

theorem find_first_not_some (h : findFirstNotOf str chars = some k) :
    ∃ c, str[k]? = some c ∧ c ∉ chars := by
  obtain ⟨hlt, hc, -⟩ := List.findIdx?_eq_some_iff_getElem.mp h
  exact ⟨_, List.getElem?_eq_getElem hlt, by simpa using hc⟩

theorem find_last_not_none (h : findLastNotOf chars str = none) : ∀ c ∈ str, c ∈ chars := by
  induction str with
  | nil => exact nofun
  | cons x str ih =>
    rw [findLastNotOf] at h
    cases hlater : findLastNotOf chars str with
    | some k =>
      rw [hlater] at h
      cases h
    | none =>
      rw [hlater] at h
      rw [List.forall_mem_cons]
      refine ⟨?_, ih hlater⟩
      by_contra hx
      simp [hx] at h

/-- It is the last one: those behind it are among the characters. -/
theorem find_last_not_some (h : findLastNotOf chars str = some k) :
    (∃ c, str[k]? = some c ∧ c ∉ chars) ∧ ∀ c ∈ str.drop (k + 1), c ∈ chars := by
  induction str generalizing k with
  | nil => cases h
  | cons x str ih =>
    rw [findLastNotOf] at h
    cases hlater : findLastNotOf chars str with
    | some j =>
      rw [hlater] at h
      cases h
      exact ih hlater
    | none =>
      simp only [hlater, Option.ite_none_left_eq_some] at h
      obtain ⟨hx, hk⟩ := h
      cases hk
      exact ⟨⟨x, rfl, hx⟩, find_last_not_none hlater⟩

theorem find_last_not_behind (h : d ∉ chars) (str : List UInt8) :
    findLastNotOf chars (str ++ [d]) = some str.length := by
  induction str with
  | nil => simp [findLastNotOf, h]
  | cons c str ih => rw [List.cons_append, findLastNotOf, ih, List.length_cons]

theorem mem_trim (h : c ∈ trim str chars) : c ∈ str := by
  rw [trim] at h
  split at h
  · exact List.mem_of_mem_drop (List.mem_of_mem_take h)
  · cases h

theorem trim_trimmed (str chars : List UInt8) : Trimmed chars (trim str chars) := by
  rw [trim]
  split
  · next strBegin strEnd hbegin hend =>
    obtain ⟨c, hc, hfirst⟩ := find_first_not_some hbegin
    obtain ⟨⟨d, hd, hlast⟩, hbehind⟩ := find_last_not_some hend
    have hle : strBegin ≤ strEnd := by
      by_contra hlt
      refine hfirst (hbehind c (List.mem_iff_getElem?.mpr ⟨strBegin - (strEnd + 1), ?_⟩))
      rw [List.getElem?_drop, Nat.add_sub_cancel' (by omega)]
      exact hc
    have hlen := (List.getElem?_eq_some_iff.mp hd).1
    refine ⟨fun x hx => ?_, fun x hx => ?_⟩
    · rw [List.head?_take, if_neg (Nat.succ_ne_zero _), List.head?_drop, hc] at hx
      cases hx
      exact hfirst
    · rw [List.getLast?_take, if_neg (Nat.succ_ne_zero _), Nat.add_sub_cancel, List.getElem?_drop,
        Nat.add_sub_cancel' hle, hd] at hx
      cases hx
      exact hlast
  · exact ⟨nofun, nofun⟩

theorem trim_of_trimmed (h : Trimmed chars str) : trim str chars = str := by
  rcases List.eq_nil_or_concat str with rfl | ⟨front, d, hconcat⟩
  · rfl
  · rw [List.concat_eq_append] at hconcat
    subst hconcat
    obtain ⟨c, text, hcons⟩ := List.exists_cons_of_ne_nil (show front ++ [d] ≠ [] by simp)
    have hc : c ∉ chars := h.head c (by rw [hcons]; rfl)
    have hbegin : findFirstNotOf (front ++ [d]) chars = some 0 := by
      rw [findFirstNotOf, hcons, List.findIdx?_cons, if_pos (decide_eq_true hc)]
    have hend := find_last_not_behind (h.last d (by simp)) front
    rw [trim, hbegin, hend]
    exact List.take_of_length_le (by simp)

theorem strip_none (h : lessThan ∉ text) : stripFormatting.lengths text = [] := by
  cases text with
  | nil => rfl
  | cons c text =>
    have hc : decide (c = lessThan) = false :=
      decide_eq_false fun he => h (he ▸ List.mem_cons_self)
    simp only [stripFormatting, Pattern.lengths, hc]
    rfl

theorem strip_some (rest : List UInt8) : stripFormatting.consumed (lessThan :: rest) ≠ none := by
  have hdrop : rest.drop (rest.takeWhile (· ≠ greaterThan)).length =
      rest.dropWhile (· ≠ greaterThan) := by
    have hsplit := List.takeWhile_append_dropWhile (p := (· ≠ greaterThan)) (l := rest)
    nth_rewrite 2 [← hsplit]
    exact List.drop_left
  -- it goes up to the next closing character or to the end of the text
  have hend : ∃ n, n ∈ (Pattern.alt (.one (· = greaterThan)) .atEnd).lengths
      (rest.drop (rest.takeWhile (· ≠ greaterThan)).length) := by
    rw [hdrop]
    cases hbehind : rest.dropWhile (· ≠ greaterThan) with
    | nil => exact ⟨0, List.mem_singleton_self 0⟩
    | cons c text =>
      have hnot := List.head?_dropWhile_not (· ≠ greaterThan) rest
      rw [hbehind, List.head?_cons] at hnot
      have hc : c = greaterThan := by simpa using hnot
      subst hc
      exact ⟨1, List.mem_singleton_self 1⟩
  obtain ⟨n, hn⟩ := hend
  have hbehind := Pattern.mem_seq (Pattern.mem_many (· ≠ greaterThan) rest) hn
  have hopen : 1 ∈ (Pattern.one (· = lessThan)).lengths (lessThan :: rest) :=
    List.mem_singleton_self 1
  exact Pattern.consumed_some (Pattern.mem_seq hopen hbehind) (by omega)

theorem strip_cleared (source : List UInt8) : lessThan ∉ stripFormatting.replace [] 0 source := by
  intro h
  rcases Pattern.mem_replace h with h | ⟨rest, -, hnone⟩
  · cases h
  · exact strip_some rest hnone

theorem strip_cleared_same (h : lessThan ∉ text) : stripFormatting.replace [] 0 text = text :=
  Pattern.replace_clear fun _ hrest => strip_none fun hmem => h (hrest.subset hmem)

theorem mem_literal_replace (h : c ∈ (Pattern.literal noBreakSpace).replace [space] 0 text) :
    c = space ∨ c ∈ text := by
  rcases Pattern.mem_replace h with h | ⟨rest, hsuffix, -⟩
  · exact .inl (List.mem_singleton.mp h)
  · exact .inr (hsuffix.subset List.mem_cons_self)

/-- Spaces in the place of the entities do not make it possible to trim more. -/
theorem trimmed_literal_replace (h : Trimmed (ascii "\r\n") text) :
    Trimmed (ascii "\r\n") ((Pattern.literal noBreakSpace).replace [space] 0 text) := by
  have hspace : ∀ c ∈ [space], c ∉ ascii "\r\n" := by decide +kernel
  rw [Pattern.replace_literal (by decide)]
  refine ⟨fun c hc => ?_, fun c hc => ?_⟩
  · exact (Replacing.head_substitute (List.cons_ne_nil _ _) hc).elim (hspace c) (h.head c)
  · exact (Replacing.last_substitute (List.cons_ne_nil _ _) 0 hc).elim (hspace c) (h.last c)

/-- No tag and no entity is left of a text, and clearing it again changes nothing. -/
theorem clear_html_tags_settles (source : List UInt8) :
    lessThan ∉ clearHtmlTags source ∧ ¬ noBreakSpace <:+: clearHtmlTags source ∧
      clearHtmlTags (clearHtmlTags source) = clearHtmlTags source := by
  have hopen : lessThan ∉ clearHtmlTags source := by
    intro h
    rcases mem_literal_replace h with h | h
    · exact absurd h (by decide)
    · exact strip_cleared source (mem_trim h)
  have hentity : ¬ noBreakSpace <:+: clearHtmlTags source := by
    rw [clearHtmlTags, Pattern.replace_literal (by decide)]
    exact Replacing.substitute_gone (by decide) (by decide) (by decide +kernel) 0 _
  have htrimmed : Trimmed (ascii "\r\n") (clearHtmlTags source) :=
    trimmed_literal_replace (trim_trimmed _ _)
  refine ⟨hopen, hentity, ?_⟩
  generalize clearHtmlTags source = text at hopen hentity htrimmed
  rw [clearHtmlTags, strip_cleared_same hopen, trim_of_trimmed htrimmed,
    Pattern.replace_literal (by decide)]
  exact Replacing.replace_all_clear hentity [space]

example : clearHtmlTags (ascii "\n<b>x&nb<i>sp;y</b\n") = ascii "x y" := by decide +kernel

end Khorost.Data
