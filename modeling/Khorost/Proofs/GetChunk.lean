import Khorost.Lib.Scan
import Khorost.Proofs.Forward

namespace Khorost

open Scan

theorem skip_lead_run (lead : UInt8) (gap tail stale : List UInt8) (hg : ∀ x ∈ gap, x = lead)
    (ht : tail.head? ≠ some lead) :
    skipLead lead (gap ++ tail ++ stale) (gap ++ tail).length = some gap.length := by
  induction gap with
  | nil =>
    cases tail with
    | nil => cases stale <;> rfl
    | cons c tail =>
      have hc : c ≠ lead := by simpa using ht
      simp [skipLead, hc]
  | cons c gap ih =>
    have hc : c = lead := hg c (by simp)
    have h := ih (fun x hx => hg x (List.mem_cons_of_mem c hx))
    simp only [List.cons_append, List.length_cons, skipLead, hc, if_true, h, Option.map_some]

theorem find_stop_clear (div token stale : List UInt8) (hc : ∀ x ∈ token, x ∉ div) :
    findStop div (token ++ stale) token.length = some none := by
  induction token with
  | nil => cases stale <;> rfl
  | cons c token ih =>
    have hn : c ∉ div := hc c (by simp)
    have h := ih (fun x hx => hc x (List.mem_cons_of_mem c hx))
    simp only [List.cons_append, List.length_cons, findStop, hn, if_false, h, Option.map_some,
      Option.map_none]

theorem find_stop_at (div token : List UInt8) (stop : UInt8) (rest stale : List UInt8)
    (hc : ∀ x ∈ token, x ∉ div) (hs : stop ∈ div) :
    findStop div (token ++ stop :: rest ++ stale) (token ++ stop :: rest).length =
      some (some token.length) := by
  induction token with
  | nil => simp [findStop, hs]
  | cons c token ih =>
    have hn : c ∉ div := hc c (by simp)
    have h := ih (fun x hx => hc x (List.mem_cons_of_mem c hx))
    simp only [List.cons_append, List.length_cons, findStop, hn, if_false] at h ⊢
    rw [h]
    rfl

/-- A target behind which a chunk has been stored, with a terminator in the place
of its stop character. -/
def withChunk (target : AutoBuffer UInt8) (gap token : List UInt8) (stop : UInt8) :
    AutoBuffer UInt8 :=
  (target.append (gap ++ token ++ [stop])).set (target.fillSize + (gap.length + token.length)) nul

/-- A chunk that stands whole in the data is found there, whatever the memory
behind the data holds. -/
theorem get_chunk_token (h : Lexeme lead div p gap token stop rest) (stale : List UInt8)
    (target : AutoBuffer UInt8) :
    getChunk ⟨p ++ stale, p.length⟩ lead div target = some (some {
      target := withChunk target gap token stop
      reference := target.fillSize + gap.length
      chunkSize := gap.length + token.length + 1
      cursor := ⟨rest ++ stale, rest.length⟩ }) := by
  obtain ⟨rfl, hg, ht, hc, hs⟩ := h
  have htail : (token ++ stop :: rest).head? ≠ some lead := by
    cases token <;> simpa using ht
  have hskip := skip_lead_run lead gap (token ++ stop :: rest) stale hg htail
  have hfind := find_stop_at div token stop rest stale hc hs
  have hlen : (gap ++ token ++ [stop]).length = gap.length + token.length + 1 := by simp [Nat.add_assoc]
  have hmem : gap ++ (token ++ stop :: rest) ++ stale =
      (gap ++ token ++ [stop]) ++ (rest ++ stale) := by simp
  have htake : (gap ++ (token ++ stop :: rest) ++ stale).take (gap.length + token.length + 1) =
      gap ++ token ++ [stop] := by
    rw [hmem, ← hlen, List.take_left]
  have hadv : Cursor.advance ⟨gap ++ (token ++ stop :: rest) ++ stale,
      (gap ++ (token ++ stop :: rest)).length⟩ (gap.length + token.length + 1) =
      ⟨rest ++ stale, rest.length⟩ := by
    rw [Cursor.advance, hmem, ← hlen, List.drop_left]
    have hsize : (gap ++ (token ++ stop :: rest)).length - (gap ++ token ++ [stop]).length =
        rest.length := by
      simp only [List.length_append, List.length_cons, List.length_nil]
      omega
    rw [hsize]
  have hdrop : (gap ++ (token ++ stop :: rest) ++ stale).drop gap.length =
      token ++ stop :: rest ++ stale := by
    rw [List.append_assoc gap, List.drop_left]
  have hsize : (gap ++ (token ++ stop :: rest)).length - gap.length =
      (token ++ stop :: rest).length := by simp
  rw [List.append_assoc gap token, getChunk, hskip]
  simp only [Option.bind_eq_bind, Option.bind_some, hdrop, hsize, hfind, htake, hadv, withChunk]

/-- While no stop character has arrived there is no chunk. -/
theorem get_chunk_open (h : Open lead div p) (stale : List UInt8) (target : AutoBuffer UInt8) :
    getChunk ⟨p ++ stale, p.length⟩ lead div target = some none := by
  obtain ⟨gap, token, rfl, hg, ht, hc⟩ := h
  have hskip := skip_lead_run lead gap token stale hg ht
  have hdrop : (gap ++ token ++ stale).drop gap.length = token ++ stale := by
    rw [List.append_assoc, List.drop_left]
  have hsize : (gap ++ token).length - gap.length = token.length := by simp
  rw [getChunk, hskip]
  simp only [Option.bind_eq_bind, Option.bind_some, hdrop, hsize, find_stop_clear div token stale hc]

/-- What a chunk adds to its target: the bytes up to the stop character, and a
terminator in its place. -/
theorem chunk_content (target : AutoBuffer UInt8) (gap token : List UInt8) (stop : UInt8) :
    (withChunk target gap token stop).content = target.content ++ gap ++ token ++ [nul] := by
  have hlen : (target.content ++ gap ++ token).length =
      target.fillSize + (gap.length + token.length) := by
    simp only [List.length_append, AutoBuffer.content_length]
    omega
  rw [withChunk, AutoBuffer.content_set, AutoBuffer.content_append, ← List.append_assoc, ← List.append_assoc,
    ← hlen, List.set_append_right _ _ (Nat.le_refl _), Nat.sub_self]
  rfl

/-- What `get_chunk` has found: the target got the text, the pointer stands
behind the stop character. -/
structure Found (c : ChunkFound) (target : AutoBuffer UInt8) (gap token rest stale : List UInt8) :
    Prop where
  content : c.target.content = target.content ++ gap ++ token ++ [nul]
  reference : c.reference = (target.content ++ gap).length
  size : c.chunkSize = gap.length + token.length + 1
  cursor : c.cursor = ⟨rest ++ stale, rest.length⟩

theorem get_chunk_found (h : Lexeme lead div p gap token stop rest) (stale : List UInt8)
    (target : AutoBuffer UInt8) :
    ∃ c, getChunk ⟨p ++ stale, p.length⟩ lead div target = some (some c) ∧
      Found c target gap token rest stale := by
  refine ⟨_, get_chunk_token h stale target, chunk_content target gap token stop, ?_, rfl, rfl⟩
  rw [List.length_append, AutoBuffer.content_length]

/-- The reference of a chunk leads to its token, up to a NUL in it. -/
theorem Found.str_there (h : Found c target gap token rest stale) :
    StrAt c.target.content c.reference (cStr token) := by
  obtain ⟨after, ha⟩ := c_str_split token []
  refine ⟨target.content ++ gap, after, ?_, h.reference.symm, c_str_clear token⟩
  rw [h.content, List.append_assoc _ token, ha, ← List.append_assoc]

theorem Found.extends (h : Found c target gap token rest stale) :
    target.content <+: c.target.content := by
  rw [h.content, List.append_assoc, List.append_assoc]
  exact List.prefix_append _ _

end Khorost
