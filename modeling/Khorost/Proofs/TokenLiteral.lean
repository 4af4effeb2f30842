import Khorost.App.Tokens
import Khorost.Db.LinkedPostgres
import Khorost.Lib.LiteralRules
import Khorost.Lib.SqlLiteral

namespace Khorost.Server

open LiteralRules LinkedPostgres
open SqlLiteral (mark escape)

def standardRule : Rule := ⟨true, false⟩

/-- A backslash takes the next character with it. -/
def backslashRule (doubled : Bool) : Rule := ⟨doubled, true⟩

/-- An id between quotes is one literal, alone and in the statement of `load_token`. -/
structure Encloses (r : Rule) (tokenId : List UInt8) : Prop where
  alone : read mark escape r (mark :: tokenId ++ [mark]) = some []
  query : ∀ isAccessToken, read mark escape r
    ((loadTokenQuery isAccessToken tokenId).drop (loadTokenHead isAccessToken).length) =
      some (ascii " ")

theorem encloses_iff (h : ∀ rest, (∀ tail, rest ≠ mark :: tail) →
      (behind mark escape r (tokenId ++ mark :: rest) = some rest ↔ P)) :
    Encloses r tokenId ↔ P := by
  have halone : read mark escape r (mark :: tokenId ++ [mark]) = some [] ↔ P := by
    rw [List.cons_append, read_mark]
    exact h [] fun tail => nofun
  have hquery : ∀ isAccessToken, read mark escape r
      ((loadTokenQuery isAccessToken tokenId).drop (loadTokenHead isAccessToken).length) =
        some (ascii " ") ↔ P := by
    intro isAccessToken
    have htext : (loadTokenQuery isAccessToken tokenId).drop (loadTokenHead isAccessToken).length =
        mark :: (tokenId ++ mark :: ascii " ") := by
      simp only [loadTokenQuery, List.append_assoc, List.drop_left]
      rfl
    rw [htext, read_mark]
    exact h (ascii " ") fun tail heq => absurd (List.cons.inj heq).1 (by decide)
  constructor
  · exact fun he => halone.mp he.alone
  · exact fun hp => ⟨halone.mpr hp, fun isAccessToken => (hquery isAccessToken).mpr hp⟩

theorem escape_mark (s : List UInt8) :
    escapeString (mark :: s) = escape :: mark :: escapeString s := rfl

theorem escape_lf (s : List UInt8) : escapeString (lf :: s) = escape :: 110 :: escapeString s := rfl

theorem escape_cr (s : List UInt8) : escapeString (cr :: s) = escapeString s := rfl

theorem escape_other (hm : c ≠ mark) (hlf : c ≠ lf) (hcr : c ≠ cr) (s : List UInt8) :
    escapeString (c :: s) = c :: escapeString s := by
  rw [escapeString, List.flatMap_cons, if_neg hm, if_neg hlf, if_neg hcr]
  rfl

theorem escape_head (s rest : List UInt8) : escapeString s ≠ mark :: rest := by
  induction s with
  | nil => nofun
  | cons c s ih =>
    by_cases hm : c = mark
    · subst hm
      rw [escape_mark]
      exact fun h => absurd (List.cons.inj h).1 (by decide)
    by_cases hlf : c = lf
    · subst hlf
      rw [escape_lf]
      exact fun h => absurd (List.cons.inj h).1 (by decide)
    by_cases hcr : c = cr
    · subst hcr
      exact ih
    · rw [escape_other hm hlf hcr]
      exact fun h => hm (List.cons.inj h).1

/-- Behind a text without a backslash stands an escaped text. -/
theorem escape_split (h : escapeString s = x ++ y) (hx : escape ∉ x) :
    ∃ t, y = escapeString t := by
  induction s generalizing x with
  | nil =>
    obtain ⟨rfl, rfl⟩ := List.append_eq_nil_iff.mp h.symm
    exact ⟨[], rfl⟩
  | cons c s ih =>
    cases x with
    | nil => exact ⟨c :: s, h.symm⟩
    | cons d x =>
      obtain ⟨hd, hx'⟩ := List.ne_and_not_mem_of_not_mem_cons hx
      by_cases hm : c = mark
      · subst hm
        exact absurd (List.cons.inj h).1 hd
      by_cases hlf : c = lf
      · subst hlf
        exact absurd (List.cons.inj h).1 hd
      by_cases hcr : c = cr
      · subst hcr
        exact ih h hx
      · rw [escape_other hm hlf hcr] at h
        exact ih (List.cons.inj h).2 hx'

theorem request_token_escaped (h : requestTokenId http = some tokenId) :
    ∃ s, tokenId = escapeString s := by
  unfold requestTokenId at h
  split at h
  · next headerAuthorization _ =>
    dsimp only at h
    split at h
    · cases h
    · next hmask =>
      cases h
      rw [not_or, not_not] at hmask
      refine escape_split (List.take_append_drop tokenMask.length _).symm ?_
      rw [hmask.2]
      decide
  · cases h
    exact ⟨_, rfl⟩

variable {rest : List UInt8}

/-- A quote in front of an escaped text ends the literal too early or not at all. -/
theorem behind_early (r : Rule) (s rest : List UInt8) :
    behind mark escape r (mark :: (escapeString s ++ mark :: rest)) ≠ some rest := by
  cases hs : escapeString s with
  | nil =>
    cases hdoubled : r.doubled with
    | false =>
      rw [List.nil_append, behind_mark fun _ _ => hdoubled]
      intro h
      exact absurd (congrArg List.length (Option.some.inj h)) (by simp)
    | true =>
      rw [List.nil_append, behind_marks hdoubled]
      exact behind_ne_self
  | cons c t =>
    have hc : c ≠ mark := by
      rintro rfl
      exact escape_head s t hs
    rw [List.cons_append, behind_mark fun tail heq => absurd (List.cons.inj heq).1 hc]
    intro h
    have hlen := congrArg List.length (Option.some.inj h)
    simp only [List.length_append, List.length_cons] at hlen
    omega

theorem behind_plain (hm : c ≠ mark) (text : List UInt8) :
    behind mark escape standardRule (c :: text) = behind mark escape standardRule text :=
  behind_other hm (fun _ => rfl) text

theorem behind_taken (doubled : Bool) (c : UInt8) (text : List UInt8) :
    behind mark escape (backslashRule doubled) (escape :: c :: text) =
      behind mark escape (backslashRule doubled) text := behind_escape (by decide) rfl c text

theorem behind_standard (s : List UInt8) (hrest : ∀ tail, rest ≠ mark :: tail) :
    behind mark escape standardRule (escapeString s ++ mark :: rest) = some rest ↔ mark ∉ s := by
  induction s with
  | nil =>
    refine iff_of_true ?_ List.not_mem_nil
    exact behind_mark fun tail heq => absurd heq (hrest tail)
  | cons c s ih =>
    by_cases hm : c = mark
    · subst hm
      refine iff_of_false ?_ fun h => h (List.mem_cons_self ..)
      rw [escape_mark, List.cons_append, behind_plain (by decide), List.cons_append]
      exact behind_early standardRule s rest
    rw [List.mem_cons, not_or, and_iff_right (Ne.symm hm), ← ih]
    by_cases hlf : c = lf
    · subst hlf
      rw [escape_lf, List.cons_append, behind_plain (by decide), List.cons_append,
        behind_plain (by decide)]
    by_cases hcr : c = cr
    · rw [hcr, escape_cr]
    · rw [escape_other hm hlf hcr, List.cons_append, behind_plain hm]

/-- The escaped text from behind a backslash on, or from elsewhere on. -/
theorem behind_backslash (doubled p : Bool) (s : List UInt8) (hrest : ∀ tail, rest ≠ mark :: tail) :
    behind mark escape (backslashRule doubled)
        ((if p then [escape] else []) ++ escapeString s ++ mark :: rest) = some rest ↔
      Guarded mark escape p (s.filter (· ≠ cr)) := by
  induction s generalizing p with
  | nil =>
    rw [List.filter_nil, guarded_nil]
    cases p with
    | false => exact iff_of_true (behind_mark fun tail heq => absurd heq (hrest tail)) rfl
    | true =>
      refine iff_of_false ?_ nofun
      exact (behind_taken doubled mark rest).symm ▸ behind_ne_self
  | cons c s ih =>
    by_cases hcr : c = cr
    · subst hcr
      rw [escape_cr, ih, List.filter_cons_of_neg (by decide)]
    rw [List.filter_cons_of_pos (by simpa using hcr), guarded_cons]
    have ihFree := ih false
    have ihTaken := ih true
    simp only [Bool.false_eq_true, if_false, if_true, List.nil_append, List.cons_append] at ihFree ihTaken
    by_cases hesc : c = escape
    · subst hesc
      rw [escape_other (by decide) (by decide) hcr, if_pos rfl,
        and_iff_right fun _ => (by decide)]
      cases p with
      | false => exact ihTaken
      | true =>
        rw [Bool.not_true, ← ihFree]
        exact Iff.of_eq (congrArg (· = some rest) (behind_taken doubled escape _))
    rw [if_neg hesc]
    by_cases hm : c = mark
    · subst hm
      rw [escape_mark]
      cases p with
      | false =>
        rw [and_iff_right nofun, ← ihFree]
        exact Iff.of_eq (congrArg (· = some rest) (behind_taken doubled mark _))
      | true =>
        refine iff_of_false ?_ fun h => h.1 rfl rfl
        exact (behind_taken doubled escape _).symm ▸ behind_early _ s rest
    rw [and_iff_right fun _ => hm, ← ihFree]
    by_cases hlf : c = lf
    · subst hlf
      rw [escape_lf]
      cases p with
      | false => exact Iff.of_eq (congrArg (· = some rest) (behind_taken doubled 110 _))
      | true =>
        refine Iff.of_eq (congrArg (· = some rest) ((behind_taken doubled escape _).trans ?_))
        exact behind_other (by decide) (fun h => absurd h (by decide)) _
    rw [escape_other hm hlf hcr]
    cases p with
    | false =>
      refine Iff.of_eq (congrArg (· = some rest) ?_)
      exact behind_other hm (fun h => absurd h hesc) _
    | true => exact Iff.of_eq (congrArg (· = some rest) (behind_taken doubled c _))

/-- An escaped text between quotes is one literal by the standard rule exactly if
there is no quote in it, and where a backslash takes the next character with it
exactly if, the carriage returns left out, no odd number of backslashes stands in
front of a quote or at the end. The id of a request is such a text. -/
theorem escape_encloses_iff (s : List UInt8) (doubled : Bool) :
    ((Encloses standardRule (escapeString s) ↔ mark ∉ s) ∧
      (Encloses (backslashRule doubled) (escapeString s) ↔
        Guarded mark escape false (s.filter (· ≠ cr)))) ∧
    ∀ http tokenId, requestTokenId http = some tokenId → ∃ s, tokenId = escapeString s := by
  refine ⟨⟨?_, ?_⟩, fun http tokenId => request_token_escaped⟩
  · exact encloses_iff fun rest hrest => behind_standard s hrest
  · exact encloses_iff fun rest hrest => behind_backslash doubled false s hrest

/-- A quote ends the literal by the one rule, a backslash by the other. -/
theorem escape_not_enclosed :
    ¬ ∃ r, (r = standardRule ∨ ∃ doubled, r = backslashRule doubled) ∧
      ∀ s, Encloses r (escapeString s) := by
  rintro ⟨r, hr, h⟩
  obtain rfl | ⟨doubled, rfl⟩ := hr
  · exact absurd (h [mark]).alone (by decide)
  · have hend := (h [escape]).alone
    revert hend
    cases doubled <;> decide

end Khorost.Server
