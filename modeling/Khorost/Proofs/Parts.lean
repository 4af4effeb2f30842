import Khorost.Proofs.GetChunk
import Khorost.Proofs.View

namespace Khorost.HttpHeader

open Scan

/-- The locals with the rest of the data at the pointer. -/
def localsAt (rest stale : List UInt8) (processByte chunkSize : Nat) : Locals :=
  ⟨⟨rest ++ stale, rest.length⟩, processByte, chunkSize⟩

variable {h : HttpHeader} {v : View} {p rest gap token : List UInt8} {stop : UInt8}

theorem method_skip (hs : Shows h v) (hv : v.method = some m) (l : Locals) :
    methodPart h l = some (.next h l) := by
  have hm : h.queryMethod.isSome := by rw [rel_isSome hs.method, hv]; rfl
  rw [methodPart, if_pos hm]

theorem method_open (hs : Shows h v) (hv : v.method = none) (ho : Open space [space] p)
    (stale : List UInt8) (n u : Nat) :
    methodPart h (localsAt p stale n u) = some (.ret h n) := by
  have hm : ¬ h.queryMethod.isSome := by rw [rel_isSome hs.method, hv]; simp
  rw [methodPart, if_neg hm, localsAt, get_chunk_open ho stale]
  rfl

theorem method_found (hs : Shows h v) (hv : v.method = none)
    (ht : Lexeme space [space] p gap token stop rest) (stale : List UInt8) (n u : Nat) :
    ∃ h', methodPart h (localsAt p stale n u) =
        some (.next h' (localsAt rest stale (n + (gap.length + token.length + 1))
          (gap.length + token.length + 1))) ∧
      Shows h' { v with method := some (cStr token) } := by
  have hm : ¬ h.queryMethod.isSome := by rw [rel_isSome hs.method, hv]; simp
  obtain ⟨c, hc, hf⟩ := get_chunk_found ht stale h.abHeader
  refine ⟨{ h with abHeader := c.target, queryMethod := some c.reference }, ?_, ?_⟩
  · rw [methodPart, if_neg hm, localsAt, hc]
    simp only [Option.bind_eq_bind, Option.bind_some, hf.cursor, hf.size, localsAt]
  · exact { hs.grow c.target hf.extends with method := .some hf.str_there }

theorem uri_skip (hs : Shows h v) (hv : v.uri = some m) (l : Locals) :
    uriPart h l = some (.next h l) := by
  have hm : h.queryUri.isSome := by rw [rel_isSome hs.uri, hv]; rfl
  rw [uriPart, if_pos hm]

theorem uri_open (hs : Shows h v) (hv : v.uri = none) (ho : Open space [question, space] p)
    (stale : List UInt8) (n u : Nat) :
    uriPart h (localsAt p stale n u) = some (.ret h n) := by
  have hm : ¬ h.queryUri.isSome := by rw [rel_isSome hs.uri, hv]; simp
  rw [uriPart, if_neg hm, localsAt, get_chunk_open ho stale]
  rfl

/-- A URI that ends with a space is taken with the space, one that ends with a
question mark without it. -/
theorem uri_found (hs : Shows h v) (hv : v.uri = none)
    (ht : Lexeme space [question, space] p gap token stop rest) (stale : List UInt8) (n u : Nat) :
    ∃ h', uriPart h (localsAt p stale n u) =
        some (.next h' (if stop = question then
          localsAt (question :: rest) stale (n + (gap.length + token.length))
            (gap.length + token.length)
        else localsAt rest stale (n + (gap.length + token.length + 1))
          (gap.length + token.length + 1))) ∧
      Shows h' { v with uri := some (cStr token) } := by
  have hm : ¬ h.queryUri.isSome := by rw [rel_isSome hs.uri, hv]; simp
  obtain ⟨c, hc, hf⟩ := get_chunk_found ht stale h.abHeader
  have hmem : p ++ stale = (gap ++ token) ++ (stop :: rest ++ stale) := by
    rw [ht.split]
    simp
  have hlen : (gap ++ token).length = gap.length + token.length := by simp
  have hlast : (p ++ stale)[gap.length + token.length + 1 - 1]? = some stop := by
    rw [hmem, Nat.add_sub_cancel, ← hlen]
    simp
  have hback : (p ++ stale).drop (gap.length + token.length) = stop :: rest ++ stale := by
    rw [hmem, ← hlen, List.drop_left]
  refine ⟨{ h with abHeader := c.target, queryUri := some c.reference }, ?_, ?_⟩
  · rw [uriPart, if_neg hm, localsAt, hc]
    simp only [Option.bind_eq_bind, Option.bind_some, hf.cursor, hf.size, hlast]
    by_cases hq : stop = question
    · simp only [hq, if_true, Nat.add_sub_cancel, hback, localsAt, List.length_cons]
    · simp only [hq, if_false, localsAt]
  · exact { hs.grow c.target hf.extends with uri := .some hf.str_there }

theorem params_skip_filled (hs : Shows h v) (hv : v.params ≠ []) (l : Locals) :
    paramsPart h l = some (.next h l) := by
  have hf : h.abParams.fillSize ≠ 0 := by
    intro hf
    rw [AutoBuffer.fill_zero_iff, hs.params] at hf
    exact hv hf
  rw [paramsPart, if_neg hf]

/-- The byte at the pointer is read even when it lies behind the data. -/
theorem params_skip_other (hs : Shows h v) (hv : v.params = []) (stale : List UInt8)
    (hc : (p ++ stale)[0]? = some c) (hq : c ≠ question) (n u : Nat) :
    paramsPart h (localsAt p stale n u) = some (.next h (localsAt p stale n u)) := by
  have hf : h.abParams.fillSize = 0 := by rw [AutoBuffer.fill_zero_iff, hs.params, hv]
  rw [paramsPart, if_pos hf, localsAt, hc]
  simp only [Option.bind_eq_bind, Option.bind_some, if_neg hq]

theorem step_question (p stale : List UInt8) :
    Cursor.step ⟨question :: p ++ stale, (question :: p).length⟩ = ⟨p ++ stale, p.length⟩ := by
  rw [Cursor.step, if_neg (by simp)]
  rfl

theorem params_open (hs : Shows h v) (hv : v.params = []) (ho : Open question [space] p)
    (stale : List UInt8) (n u : Nat) :
    paramsPart h (localsAt (question :: p) stale n u) = some (.ret h n) := by
  have hf : h.abParams.fillSize = 0 := by rw [AutoBuffer.fill_zero_iff, hs.params, hv]
  rw [paramsPart, if_pos hf, localsAt, step_question, get_chunk_open ho stale]
  rfl

theorem params_found (hs : Shows h v) (hv : v.params = []) (hp : v.pairs = [])
    (ht : Lexeme question [space] p gap token stop rest) (stale : List UInt8) (n u : Nat) :
    ∃ h', paramsPart h (localsAt (question :: p) stale n u) =
        some (.next h' (localsAt rest stale (n + (gap.length + token.length + 1) + 1)
          (gap.length + token.length + 1))) ∧
      Shows h' { v with params := gap ++ token ++ [nul] } := by
  have hf : h.abParams.fillSize = 0 := by rw [AutoBuffer.fill_zero_iff, hs.params, hv]
  have hempty : h.abParams.content = [] := by rw [hs.params, hv]
  have hpairs : h.paramsValue = [] := by
    have := hs.pairs
    rw [hp] at this
    exact List.forall₂_nil_right_iff.mp this
  obtain ⟨c, hc, hfound⟩ := get_chunk_found ht stale h.abParams
  refine ⟨{ h with abParams := c.target }, ?_, ?_⟩
  · rw [paramsPart, if_pos hf, localsAt, step_question, hc]
    simp only [Option.bind_eq_bind, Option.bind_some, hfound.cursor, hfound.size, localsAt]
    rfl
  · have hcontent : c.target.content = gap ++ token ++ [nul] := by
      rw [hfound.content, hempty, List.nil_append]
    exact { hs with params := hcontent, pairs := by rw [hpairs, hp]; exact .nil }

theorem skip_line_end_lf (rest stale : List UInt8) (n : Nat) :
    skipLineEnd ⟨lf :: rest ++ stale, (lf :: rest).length⟩ n =
      some (⟨rest ++ stale, rest.length⟩, n + 1) := by
  rw [skipLineEnd, if_pos (by simp)]
  rfl

theorem skip_line_end_nil (stale : List UInt8) (n : Nat) :
    skipLineEnd ⟨[] ++ stale, ([] : List UInt8).length⟩ n = some (⟨[] ++ stale, 0⟩, n) := by
  rw [skipLineEnd, if_neg (by simp)]
  rfl

theorem version_open (hs : Shows h v) (hv : v.version = none) (ho : Open space [cr, lf] p)
    (stale : List UInt8) (n u : Nat) :
    versionPart h (localsAt p stale n u) = some (.ret h n) := by
  have hm : ¬ h.queryVersion.isSome := by rw [rel_isSome hs.version, hv]; simp
  rw [versionPart, if_neg hm, localsAt, get_chunk_open ho stale]
  rfl

/-- The line feed behind the version is taken with it if it has arrived. -/
theorem version_found (hs : Shows h v) (hv : v.version = none)
    (ht : Lexeme space [cr, lf] p gap token stop rest) (stale : List UInt8)
    (hskip : skipLineEnd ⟨rest ++ stale, rest.length⟩ (gap.length + token.length + 1) =
      some (⟨left ++ stale, left.length⟩, size)) (n u : Nat) :
    ∃ h', versionPart h (localsAt p stale n u) =
        some (.next h' (localsAt left stale (n + size) size)) ∧
      Shows h' { v with version := some (cStr token), headerProcess := .processingNext } := by
  have hm : ¬ h.queryVersion.isSome := by rw [rel_isSome hs.version, hv]; simp
  obtain ⟨c, hc, hf⟩ := get_chunk_found ht stale h.abHeader
  refine ⟨{ h with
    abHeader := c.target
    queryVersion := some c.reference
    headerProcess := .processingNext }, ?_, ?_⟩
  · rw [versionPart, if_neg hm, localsAt, hc]
    simp only [Option.bind_eq_bind, Option.bind_some, hf.cursor, hf.size, hskip, localsAt]
  · exact { hs.grow c.target hf.extends with
      version := .some hf.str_there
      headerProcess := rfl }

end Khorost.HttpHeader
