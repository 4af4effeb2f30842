import Khorost.Proofs.HeaderLines
import Khorost.Proofs.Reached

namespace Khorost.HttpHeader

open Scan

/-- A call leaves the same behind whatever memory stands behind the data `p` and
whatever its uninitialised variable holds. It does without memory behind the
data, and counts no byte that is not there. -/
def Local (h : HttpHeader) (p : List UInt8) : Prop :=
  (∀ stale stale' u u',
    h.processData (p ++ stale) p.length u = h.processData (p ++ stale') p.length u') ∧
  ∀ u, ∃ h' n, h.processData p p.length u = some (h', n) ∧ n ≤ p.length

def MethodEnds (h : HttpHeader) (p rest : List UInt8) : Prop :=
  if h.queryMethod.isSome then rest = p
  else ∃ gap token stop, Lexeme space [space] p gap token stop rest

def UriEnds (h : HttpHeader) (p rest : List UInt8) : Prop :=
  if h.queryUri.isSome then rest = p
  else ∃ gap token stop behind, Lexeme space [question, space] p gap token stop behind ∧
    rest = if stop = question then question :: behind else behind

/-- The data end with the URI, and there are no parameters yet. -/
structure UriExhausts (h : HttpHeader) (p : List UInt8) : Prop where
  first : h.headerProcess = .processingFirst
  params : h.abParams.fillSize = 0
  ends : ∃ rest, MethodEnds h p rest ∧ UriEnds h rest []

/-- The data begin with a part of a header name. -/
structure ReadsChunkSize (h : HttpHeader) (p : List UInt8) : Prop where
  next : h.headerProcess = .processingNext
  two : 2 ≤ p.length
  line : ¬ [cr, lf] <+: p
  name : colon ∉ p

/-- A step that does the same for all memory behind the data, for all counts and
for all values of `chunk_size`. -/
def Uniform (p : List UInt8) (step : Locals → Option (HttpHeader × Nat)) : Prop :=
  ∃ h' n, n ≤ p.length ∧ ∀ stale start u, step (localsAt p stale start u) = some (h', start + n)

/-- A part of `process_data` goes on at `rest`. -/
structure Goes (part : HttpHeader → Locals → Option Flow) (h : HttpHeader) (p : List UInt8)
    (h' : HttpHeader) (rest : List UInt8) : Prop where
  shorter : rest.length ≤ p.length
  goes : ∀ stale start u, ∃ u', part h (localsAt p stale start u) =
    some (.next h' (localsAt rest stale (start + (p.length - rest.length)) u'))

def Returns (part : HttpHeader → Locals → Option Flow) (h : HttpHeader) (p : List UInt8) : Prop :=
  ∀ stale start u, part h (localsAt p stale start u) = some (.ret h start)

variable {h h' : HttpHeader} {p rest : List UInt8}

theorem Uniform.is_local {step : Locals → Option (HttpHeader × Nat)} (hu : Uniform p step)
    (he : ∀ stale u, h.processData (p ++ stale) p.length u = step (localsAt p stale 0 u)) :
    Local h p := by
  obtain ⟨h', n, hn, hstep⟩ := hu
  have hall : ∀ stale u, h.processData (p ++ stale) p.length u = some (h', n) := by
    intro stale u
    rw [he, hstep, Nat.zero_add]
  refine ⟨fun stale stale' u u' => by rw [hall, hall], fun u => ⟨h', n, ?_, hn⟩⟩
  rw [← hall [] u, List.append_nil]

theorem Uniform.returns {part : HttpHeader → Locals → Option Flow}
    {next : HttpHeader → Locals → Option (HttpHeader × Nat)} (hr : Returns part h p) :
    Uniform p (fun l => Flow.andThen (part h l) next) := by
  refine ⟨h, 0, Nat.zero_le _, fun stale start u => ?_⟩
  change Flow.andThen (part h (localsAt p stale start u)) next = _
  rw [hr]
  rfl

theorem Uniform.goes {part : HttpHeader → Locals → Option Flow}
    {next : HttpHeader → Locals → Option (HttpHeader × Nat)} (hg : Goes part h p h' rest)
    (hu : Uniform rest (next h')) : Uniform p (fun l => Flow.andThen (part h l) next) := by
  obtain ⟨h'', n, hn, hnext⟩ := hu
  have hle := hg.shorter
  refine ⟨h'', p.length - rest.length + n, by omega, fun stale start u => ?_⟩
  obtain ⟨u', hgo⟩ := hg.goes stale start u
  change Flow.andThen (part h (localsAt p stale start u)) next = _
  rw [hgo]
  change next h' (localsAt rest stale _ u') = _
  rw [hnext, Nat.add_assoc]

theorem method_known_goes (hv : h.queryMethod.isSome) (p : List UInt8) :
    Goes methodPart h p h p := by
  refine ⟨Nat.le_refl _, fun stale start u => ⟨u, ?_⟩⟩
  rw [methodPart, if_pos hv, Nat.sub_self]
  rfl

theorem method_token_goes (hv : ¬ h.queryMethod.isSome)
    (ht : Lexeme space [space] p gap token stop rest) : Goes methodPart h p { h with
      abHeader := withChunk h.abHeader gap token stop
      queryMethod := some (h.abHeader.fillSize + gap.length) } rest := by
  have hlen := ht.length
  have hsize : p.length - rest.length = gap.length + token.length + 1 := by omega
  refine ⟨by omega, fun stale start u => ⟨gap.length + token.length + 1, ?_⟩⟩
  rw [methodPart, if_neg hv, localsAt, get_chunk_token ht, hsize]
  rfl

theorem method_goes (hm : MethodEnds h p rest) : ∃ h', Goes methodPart h p h' rest ∧
    h'.abParams = h.abParams ∧ h'.queryUri = h.queryUri ∧ h'.queryVersion = h.queryVersion := by
  unfold MethodEnds at hm
  split at hm
  · rename_i hv
    subst hm
    exact ⟨h, method_known_goes hv _, rfl, rfl, rfl⟩
  · rename_i hv
    obtain ⟨gap, token, stop, ht⟩ := hm
    exact ⟨_, method_token_goes hv ht, rfl, rfl, rfl⟩

theorem method_cases (h : HttpHeader) (p : List UInt8) :
    (∃ rest, MethodEnds h p rest) ∨ Returns methodPart h p := by
  by_cases hv : h.queryMethod.isSome
  · exact .inl ⟨p, by rw [MethodEnds, if_pos hv]⟩
  · rcases token_or_open space [space] p with ⟨gap, token, stop, rest, ht⟩ | ho
    · exact .inl ⟨rest, by rw [MethodEnds, if_neg hv]; exact ⟨gap, token, stop, ht⟩⟩
    · right
      intro stale start u
      rw [methodPart, if_neg hv, localsAt, get_chunk_open ho]
      rfl

theorem uri_known_goes (hv : h.queryUri.isSome) (p : List UInt8) : Goes uriPart h p h p := by
  refine ⟨Nat.le_refl _, fun stale start u => ⟨u, ?_⟩⟩
  rw [uriPart, if_pos hv, Nat.sub_self]
  rfl

theorem uri_token_goes (hv : ¬ h.queryUri.isSome)
    (ht : Lexeme space [question, space] p gap token stop behind) : Goes uriPart h p { h with
      abHeader := withChunk h.abHeader gap token stop
      queryUri := some (h.abHeader.fillSize + gap.length) }
      (if stop = question then question :: behind else behind) := by
  have hmem : ∀ stale, p ++ stale = (gap ++ token) ++ (stop :: behind ++ stale) := by
    intro stale
    rw [ht.split]
    simp
  have hlen := ht.length
  have hlast : ∀ stale, (p ++ stale)[gap.length + token.length]? = some stop := by
    intro stale
    rw [hmem, ← List.length_append]
    simp
  have hback : ∀ stale, (p ++ stale).drop (gap.length + token.length) =
      stop :: behind ++ stale := by
    intro stale
    rw [hmem, ← List.length_append, List.drop_left]
  by_cases hq : stop = question
  · subst hq
    have hsize : p.length - (question :: behind).length = gap.length + token.length := by
      rw [List.length_cons]
      omega
    rw [if_pos rfl]
    refine ⟨by rw [List.length_cons]; omega, fun stale start u => ⟨gap.length + token.length, ?_⟩⟩
    rw [uriPart, if_neg hv, localsAt, get_chunk_token ht, hsize]
    simp only [Option.bind_eq_bind, Option.bind_some, Nat.add_sub_cancel, hlast, if_true, hback,
      localsAt, List.length_cons]
  · have hsize : p.length - behind.length = gap.length + token.length + 1 := by omega
    rw [if_neg hq]
    refine ⟨by omega, fun stale start u => ⟨gap.length + token.length + 1, ?_⟩⟩
    rw [uriPart, if_neg hv, localsAt, get_chunk_token ht, hsize]
    simp only [Option.bind_eq_bind, Option.bind_some, Nat.add_sub_cancel, hlast, hq, if_false,
      localsAt]

theorem uri_goes (hm : UriEnds h p rest) : ∃ h', Goes uriPart h p h' rest ∧
    h'.abParams = h.abParams ∧ h'.queryVersion = h.queryVersion := by
  unfold UriEnds at hm
  split at hm
  · rename_i hv
    subst hm
    exact ⟨h, uri_known_goes hv _, rfl, rfl⟩
  · rename_i hv
    obtain ⟨gap, token, stop, behind, ht, rfl⟩ := hm
    exact ⟨_, uri_token_goes hv ht, rfl, rfl⟩

theorem uri_cases (h : HttpHeader) (p : List UInt8) :
    (∃ rest, UriEnds h p rest) ∨ Returns uriPart h p := by
  by_cases hv : h.queryUri.isSome
  · exact .inl ⟨p, by rw [UriEnds, if_pos hv]⟩
  · rcases token_or_open space [question, space] p with ⟨gap, token, stop, behind, ht⟩ | ho
    · exact .inl ⟨_, by rw [UriEnds, if_neg hv]; exact ⟨gap, token, stop, behind, ht, rfl⟩⟩
    · right
      intro stale start u
      rw [uriPart, if_neg hv, localsAt, get_chunk_open ho]
      rfl

theorem params_known_goes (hf : ¬ h.abParams.fillSize = 0) (p : List UInt8) :
    Goes paramsPart h p h p := by
  refine ⟨Nat.le_refl _, fun stale start u => ⟨u, ?_⟩⟩
  rw [paramsPart, if_neg hf, Nat.sub_self]
  rfl

theorem params_other_goes (hf : h.abParams.fillSize = 0) (hc : c ≠ question) (p : List UInt8) :
    Goes paramsPart h (c :: p) h (c :: p) := by
  have hfirst : ∀ stale, (c :: p ++ stale)[0]? = some c := fun _ => rfl
  refine ⟨Nat.le_refl _, fun stale start u => ⟨u, ?_⟩⟩
  rw [paramsPart, if_pos hf, localsAt, hfirst, Nat.sub_self]
  exact if_neg hc

theorem params_token_goes (hf : h.abParams.fillSize = 0)
    (ht : Lexeme question [space] p gap token stop rest) : Goes paramsPart h (question :: p)
      { h with abParams := withChunk h.abParams gap token stop } rest := by
  have hlen := ht.length
  have hsize : (question :: p).length - rest.length = gap.length + token.length + 1 + 1 := by
    rw [List.length_cons]
    omega
  refine ⟨by rw [List.length_cons]; omega, fun stale start u => ?_⟩
  refine ⟨gap.length + token.length + 1, ?_⟩
  rw [paramsPart, if_pos hf, localsAt, step_question, get_chunk_token ht, hsize]
  rfl

theorem params_open_returns (hf : h.abParams.fillSize = 0) (ho : Open question [space] p) :
    Returns paramsPart h (question :: p) := by
  intro stale start u
  rw [paramsPart, if_pos hf, localsAt, step_question, get_chunk_open ho]
  rfl

/-- Where a byte is there or the parameters are filled, the query is read or left. -/
theorem params_cases (h : HttpHeader) (hp : h.abParams.fillSize = 0 → p ≠ []) :
    (∃ h' rest, Goes paramsPart h p h' rest ∧ h'.queryVersion = h.queryVersion) ∨
      Returns paramsPart h p := by
  by_cases hf : h.abParams.fillSize = 0
  · obtain ⟨c, p, rfl⟩ := List.exists_cons_of_ne_nil (hp hf)
    by_cases hc : c = question
    · subst hc
      rcases token_or_open question [space] p with ⟨gap, token, stop, rest, ht⟩ | ho
      · exact .inl ⟨_, rest, params_token_goes hf ht, rfl⟩
      · exact .inr (params_open_returns hf ho)
    · exact .inl ⟨h, c :: p, params_other_goes hf hc p, rfl⟩
  · exact .inl ⟨h, p, params_known_goes hf p, rfl⟩

theorem skip_line_end_cases (rest : List UInt8) : ∃ left k, k + left.length = rest.length ∧
    ∀ stale n, skipLineEnd ⟨rest ++ stale, rest.length⟩ n =
      some (⟨left ++ stale, left.length⟩, n + k) := by
  cases rest with
  | nil => exact ⟨[], 0, rfl, fun stale n => skip_line_end_nil stale n⟩
  | cons c rest =>
    have hc : ∀ stale n, skipLineEnd ⟨c :: rest ++ stale, (c :: rest).length⟩ n =
        if c = cr ∨ c = lf then some (⟨rest ++ stale, rest.length⟩, n + 1)
        else some (⟨c :: rest ++ stale, (c :: rest).length⟩, n) := fun stale n => rfl
    by_cases hend : c = cr ∨ c = lf
    · refine ⟨rest, 1, by rw [List.length_cons, Nat.add_comm], fun stale n => ?_⟩
      rw [hc, if_pos hend]
    · refine ⟨c :: rest, 0, Nat.zero_add _, fun stale n => ?_⟩
      rw [hc, if_neg hend]
      rfl

theorem version_token_goes (hv : h.queryVersion = none)
    (ht : Lexeme space [cr, lf] p gap token stop rest)
    (hskip : skipLineEnd ⟨rest ++ stale, rest.length⟩ (gap.length + token.length + 1) =
      some (⟨left ++ stale, left.length⟩, size)) (start u : Nat) :
    versionPart h (localsAt p stale start u) = some (.next { h with
      abHeader := withChunk h.abHeader gap token stop
      queryVersion := some (h.abHeader.fillSize + gap.length)
      headerProcess := .processingNext } (localsAt left stale (start + size) size)) := by
  have hnone : ¬ h.queryVersion.isSome := by rw [hv]; simp
  rw [versionPart, if_neg hnone, localsAt, get_chunk_token ht]
  simp only [Option.bind_eq_bind, Option.bind_some, hskip, localsAt]

theorem version_open_returns (hv : h.queryVersion = none) (ho : Open space [cr, lf] p) :
    Returns versionPart h p := by
  intro stale start u
  have hnone : ¬ h.queryVersion.isSome := by rw [hv]; simp
  rw [versionPart, if_neg hnone, localsAt, get_chunk_open ho]
  rfl

/-- A version that is found sets `chunk_size`, whatever it was. -/
theorem version_cases (hv : h.queryVersion = none) (p : List UInt8) :
    (∃ h' rest size, rest.length ≤ p.length ∧ ∀ stale start u,
      versionPart h (localsAt p stale start u) =
        some (.next h' (localsAt rest stale (start + (p.length - rest.length)) size))) ∨
      Returns versionPart h p := by
  rcases token_or_open space [cr, lf] p with ⟨gap, token, stop, rest, ht⟩ | ho
  · left
    obtain ⟨left, k, hk, hskip⟩ := skip_line_end_cases rest
    have hlen := ht.length
    have hsize : p.length - left.length = gap.length + token.length + 1 + k := by omega
    refine ⟨{ h with
      abHeader := withChunk h.abHeader gap token stop
      queryVersion := some (h.abHeader.fillSize + gap.length)
      headerProcess := .processingNext }, left, gap.length + token.length + 1 + k, by omega,
      fun stale start u => ?_⟩
    rw [version_token_goes hv ht (hskip stale _), hsize]
  · exact .inr (version_open_returns hv ho)

/-- The value of a `Cookie` is split up to its terminator at the latest. -/
theorem add_header_total (hv : Found value target gap text rest stale) (h : HttpHeader) (key : Nat) :
    ∃ h', addHeader { h with abHeader := value.target } key value.reference value.chunkSize =
      some h' := by
  unfold addHeader
  dsimp only
  split
  · exact ⟨_, rfl⟩
  · split
    · obtain ⟨b, pairs, he, -⟩ := cookie_value hv h.cookies
      exact ⟨_, by rw [he]; rfl⟩
    · exact ⟨_, rfl⟩

/-- A part of a name waits; `chunk_size` is read as it is. -/
theorem loop_name_open (h : HttpHeader) (hp : 2 ≤ p.length) (hc : ¬ [cr, lf] <+: p)
    (ho : Open space [colon] p) (stale : List UInt8) (start u fuel : Nat) :
    headerLoop (fuel + 1) h (localsAt p stale start u) =
      some ({ h with abHeader := h.abHeader.decrementFreeSize u }, localsAt p stale start u) := by
  rw [loop_line h hp hc, headerLine, localsAt, get_chunk_open ho]
  rfl

/-- A part of a value waits behind its name, which has been stored. -/
theorem loop_text_open (h : HttpHeader) (hp : 2 ≤ p.length) (hc : ¬ [cr, lf] <+: p)
    (hk : Lexeme space [colon] p gap name stop rest) (ho : Open space [cr, lf] rest)
    (stale : List UInt8) (start u fuel : Nat) :
    headerLoop (fuel + 1) h (localsAt p stale start u) =
      some ({ h with
          abHeader :=
            (withChunk h.abHeader gap name stop).decrementFreeSize (gap.length + name.length + 1) },
        localsAt rest stale start (gap.length + name.length + 1)) := by
  rw [loop_line h hp hc, headerLine, localsAt, get_chunk_token hk]
  simp only [Option.bind_eq_bind, Option.bind_some, get_chunk_open ho, Bool.false_eq_true,
    if_false, localsAt]

/-- A whole line is added, and the loop goes on behind it. -/
theorem loop_whole (h : HttpHeader) (hp : 2 ≤ p.length) (hc : ¬ [cr, lf] <+: p)
    (hk : Lexeme space [colon] p gap₁ name stop₁ rest₁)
    (hv : Lexeme space [cr, lf] rest₁ gap₂ text stop₂ rest₂)
    (hskip : skipLineEnd ⟨rest₂ ++ stale, rest₂.length⟩ (gap₁.length + name.length + 1) =
      some (⟨left ++ stale, left.length⟩, size))
    (hadd : addHeader { h with
        abHeader := withChunk (withChunk h.abHeader gap₁ name stop₁) gap₂ text stop₂ }
      (h.abHeader.fillSize + gap₁.length)
      ((withChunk h.abHeader gap₁ name stop₁).fillSize + gap₂.length)
      (gap₂.length + text.length + 1) = some h') (start u fuel : Nat) :
    headerLoop (fuel + 1) h (localsAt p stale start u) = headerLoop fuel h'
      (localsAt left stale (start + (size + (gap₂.length + text.length + 1))) size) := by
  rw [loop_line h hp hc, headerLine, localsAt, get_chunk_token hk]
  simp only [Option.bind_eq_bind, Option.bind_some, get_chunk_token hv, hskip, localsAt]
  rw [hadd]
  rfl

theorem add_token_total (hv : Lexeme space [cr, lf] p gap text stop rest) (h : HttpHeader)
    (key : Nat) : ∃ h', addHeader { h with abHeader := withChunk h.abHeader gap text stop } key
      (h.abHeader.fillSize + gap.length) (gap.length + text.length + 1) = some h' := by
  obtain ⟨value, hvalue, hfound⟩ := get_chunk_found hv [] h.abHeader
  rw [get_chunk_token hv] at hvalue
  obtain rfl := Option.some.inj (Option.some.inj hvalue)
  exact add_header_total hfound h key

theorem colon_of_name (hk : Lexeme space [colon] p gap name stop rest) : colon ∈ p := by
  rw [hk.split, ← List.mem_singleton.mp hk.ends]
  simp

/-- A pass of the loop that does not find the blank line: a part of a name waits
and is the only case in which `chunk_size` is read; a part of a value waits; a
whole line is added. -/
theorem loop_pass (h : HttpHeader) (hp : 2 ≤ p.length) (hc : ¬ [cr, lf] <+: p) :
    (colon ∉ p ∧ ∀ stale start u fuel, headerLoop (fuel + 1) h (localsAt p stale start u) =
      some ({ h with abHeader := h.abHeader.decrementFreeSize u }, localsAt p stale start u)) ∨
    (∃ h' rest size, colon ∈ p ∧ rest.length < p.length ∧ ∀ stale start u fuel,
      headerLoop (fuel + 1) h (localsAt p stale start u) =
        some (h', localsAt rest stale start size)) ∨
    (∃ h' rest size, colon ∈ p ∧ rest.length < p.length ∧ ∀ stale start u fuel,
      headerLoop (fuel + 1) h (localsAt p stale start u) =
        headerLoop fuel h' (localsAt rest stale (start + (p.length - rest.length)) size)) := by
  rcases token_or_open space [colon] p with ⟨gap₁, name, stop₁, rest₁, hk⟩ | ho
  · right
    have hcolon := colon_of_name hk
    have hlen₁ := hk.length
    rcases token_or_open space [cr, lf] rest₁ with ⟨gap₂, text, stop₂, rest₂, hv⟩ | ho
    · right
      have hlen₂ := hv.length
      obtain ⟨left, k, hleft, hskip⟩ := skip_line_end_cases rest₂
      let key := withChunk h.abHeader gap₁ name stop₁
      obtain ⟨h', hadd⟩ := add_token_total hv { h with abHeader := key }
        (h.abHeader.fillSize + gap₁.length)
      have hsize : p.length - left.length =
          gap₁.length + name.length + 1 + k + (gap₂.length + text.length + 1) := by omega
      refine ⟨h', left, gap₁.length + name.length + 1 + k, hcolon, by omega,
        fun stale start u fuel => ?_⟩
      rw [loop_whole h hp hc hk hv (hskip stale _) hadd, hsize]
    · exact .inl ⟨_, rest₁, _, hcolon, by omega, loop_text_open h hp hc hk ho⟩
  · exact .inl ⟨open_no_colon ho, loop_name_open h hp hc ho⟩

theorem blank_pass (h : HttpHeader) (rest stale : List UInt8) (start u fuel : Nat) :
    headerLoop (fuel + 1) h (localsAt (cr :: lf :: rest) stale start u) =
      some ({ h with headerProcess := .successful, bodyProcess := .processingFirst },
        localsAt rest stale (start + 2) u) := by
  rw [headerLoop, localsAt, if_pos (by simp)]
  rfl

theorem loop_fixed (p : List UInt8) (h : HttpHeader) (u : Nat) :
    ∃ h' rest n size, n + rest.length ≤ p.length ∧ ∀ stale start fuel, p.length ≤ fuel →
      headerLoop (fuel + 1) h (localsAt p stale start u) =
        some (h', localsAt rest stale (start + n) size) := by
  induction hlen : p.length using Nat.strongRecOn generalizing p h u with
  | _ len ih =>
    subst hlen
    by_cases hp : 2 ≤ p.length
    · by_cases hc : [cr, lf] <+: p
      · obtain ⟨rest, rfl⟩ := hc
        exact ⟨_, rest, 2, u, by simp; omega, fun stale start fuel _ =>
          blank_pass h rest stale start u fuel⟩
      · rcases loop_pass h hp hc with ⟨-, hopen⟩ | ⟨h', rest, size, -, hlt, hwait⟩ |
          ⟨h', rest, size, -, hlt, hline⟩
        · exact ⟨_, p, 0, u, by omega, fun stale start fuel _ => hopen stale start u fuel⟩
        · exact ⟨h', rest, 0, size, by omega, fun stale start fuel _ => hwait stale start u fuel⟩
        · obtain ⟨h'', rest', n, size', hn, hloop⟩ := ih rest.length hlt rest h' size rfl
          refine ⟨h'', rest', p.length - rest.length + n, size', by omega,
            fun stale start fuel hfuel => ?_⟩
          obtain ⟨fuel, rfl⟩ : ∃ k, fuel = k + 1 := ⟨fuel - 1, by omega⟩
          rw [hline, hloop stale _ fuel (by omega), Nat.add_assoc]
    · exact ⟨h, p, 0, u, by omega, fun stale start fuel _ =>
        loop_short h (Nat.lt_of_not_le hp) stale start u fuel⟩

/-- Without trimming the loop reads no byte outside its buffer. -/
theorem parse_untrimmed (div : UInt8) (size : Nat) (b : AutoBuffer UInt8) (t k : Nat)
    (v : Option Nat) (target : ListPairs) (hb : t + size ≤ b.buffer.length) :
    ∃ r, parseLoop div false size b t k v target = some r := by
  induction size generalizing b t k v target with
  | zero => exact ⟨_, rfl⟩
  | succ size ih =>
    have hat : b.buffer[t]? = some b.buffer[t] := List.getElem?_eq_getElem (by omega)
    have hset : t + 1 + size ≤ (b.set t nul).buffer.length := by
      simp only [AutoBuffer.set, List.length_set]
      omega
    rw [parseLoop, hat]
    simp only [Option.bind_eq_bind, Option.bind_some, namePosition, Bool.false_eq_true, if_false]
    split
    · exact ⟨_, rfl⟩
    · split
      · exact ih _ _ _ _ _ hset
      · split
        · exact ih _ _ _ _ _ hset
        · exact ih b _ _ _ _ (by omega)

theorem take_body_uniform (h : HttpHeader) (p : List UInt8) : Uniform p (takeBody h) := by
  by_cases hnone : h.contentLength = npos ∨ (p.length = 0 ∧ h.contentLength = 0)
  · exact ⟨_, 0, Nat.zero_le _, fun stale start u => if_pos hnone⟩
  · by_cases hsize : min p.length h.contentLength ≠ 0
    · have hle : min p.length h.contentLength ≤ p.length := Nat.min_le_left _ _
      have htake : ∀ stale, (p ++ stale).take (min p.length h.contentLength) =
          p.take (min p.length h.contentLength) := fun _ => List.take_append_of_le_length hle
      have hthere : ∀ stale, ¬ (p ++ stale).length < min p.length h.contentLength := by
        intro stale
        rw [List.length_append]
        omega
      have hsome : ∃ h', takeBody h (localsAt p [] 0 0) =
          some (h', 0 + min p.length h.contentLength) := by
        simp only [takeBody, localsAt, if_neg hnone, if_pos hsize, if_neg (hthere _), htake]
        exact ⟨_, rfl⟩
      obtain ⟨h', he⟩ := hsome
      refine ⟨h', min p.length h.contentLength, hle, fun stale start u => ?_⟩
      simp only [takeBody, localsAt, if_neg hnone, if_pos hsize, if_neg (hthere _), htake,
        Option.some.injEq, Prod.mk.injEq] at he ⊢
      exact ⟨he.1, trivial⟩
    · exact ⟨h, 0, Nat.zero_le _, fun stale start u =>
        (if_neg hnone).trans (if_neg hsize)⟩

theorem body_uniform (h : HttpHeader) (p : List UInt8) : Uniform p (bodyPart h) := by
  by_cases hb : h.bodyProcess = .processingFirst ∨ h.bodyProcess = .processingNext
  · obtain ⟨h', n, hn, htake⟩ := take_body_uniform h p
    by_cases hdone : h'.bodyProcess = .successful
    · obtain ⟨r, hr⟩ := parse_untrimmed ampersand h'.abParams.fillSize h'.abParams 0 0 none
        h'.paramsValue (by rw [Nat.zero_add]; exact h'.abParams.ready_le)
      refine ⟨{ h' with abParams := r.1, paramsValue := r.2 }, n, hn, fun stale start u => ?_⟩
      rw [bodyPart, if_pos hb, htake]
      simp only [Option.bind_eq_bind, Option.bind_some, if_pos hdone, parseString, hr]
    · refine ⟨h', n, hn, fun stale start u => ?_⟩
      rw [bodyPart, if_pos hb, htake]
      exact if_neg hdone
  · exact ⟨h, 0, Nat.zero_le _, fun stale start u => if_neg hb⟩

/-- The header lines and the body, where `chunk_size` is not read. -/
theorem next_uniform (h : HttpHeader) (hn : 2 ≤ p.length → ¬ [cr, lf] <+: p → colon ∈ p) :
    Uniform p (nextPart h) := by
  -- the loop hands over to the body
  have hand : ∀ h' rest n, n + rest.length ≤ p.length → (∀ stale start u, ∃ size,
      headerLoop ((p ++ stale).length + 1) h (localsAt p stale start u) =
        some (h', localsAt rest stale (start + n) size)) → Uniform p (nextPart h) := by
    intro h' rest n hle hloop
    obtain ⟨h'', k, hk, hbody⟩ := body_uniform h' rest
    refine ⟨h'', n + k, by omega, fun stale start u => ?_⟩
    obtain ⟨size, hl⟩ := hloop stale start u
    change (headerLoop ((p ++ stale).length + 1) h (localsAt p stale start u)).bind _ = _
    rw [hl, ← Nat.add_assoc]
    exact hbody stale _ size
  by_cases hp : 2 ≤ p.length
  · by_cases hc : [cr, lf] <+: p
    · obtain ⟨rest, rfl⟩ := hc
      exact hand _ rest 2 (by simp; omega) fun stale start u =>
        ⟨u, blank_pass h rest stale start u _⟩
    · rcases loop_pass h hp hc with ⟨hname, -⟩ | ⟨h', rest, size, -, hlt, hwait⟩ |
        ⟨h', rest, size, -, hlt, hline⟩
      · exact absurd (hn hp hc) hname
      · exact hand h' rest 0 (by omega) fun stale start u => ⟨size, hwait stale start u _⟩
      · obtain ⟨h'', rest', n, size', hn', hloop⟩ := loop_fixed rest h' size
        refine hand h'' rest' (p.length - rest.length + n) (by omega) fun stale start u =>
          ⟨size', ?_⟩
        rw [hline, ← Nat.add_assoc]
        obtain ⟨fuel, hfuel⟩ : ∃ k, (p ++ stale).length = k + 1 :=
          ⟨(p ++ stale).length - 1, by rw [List.length_append]; omega⟩
        have hle : rest.length ≤ fuel := by
          rw [List.length_append] at hfuel
          omega
        rw [hfuel]
        exact hloop stale _ fuel hle
  · exact hand h p 0 (by omega) fun stale start u =>
      ⟨u, loop_short h (Nat.lt_of_not_le hp) stale start u _⟩

theorem version_uniform (hv : h.queryVersion = none) (p : List UInt8) :
    Uniform p (fun l => Flow.andThen (versionPart h l) nextPart) := by
  rcases version_cases hv p with ⟨h₁, rest, size, hle, hgo⟩ | hr
  · obtain ⟨h₂, left, n, size', hn, hloop⟩ := loop_fixed rest h₁ size
    obtain ⟨h₃, k, hk, hbody⟩ := body_uniform h₂ left
    refine ⟨h₃, p.length - rest.length + n + k, by omega, fun stale start u => ?_⟩
    have hend := hloop stale (start + (p.length - rest.length)) (rest ++ stale).length
      (by rw [List.length_append]; omega)
    change Flow.andThen (versionPart h (localsAt p stale start u)) nextPart = _
    rw [hgo]
    change (headerLoop ((rest ++ stale).length + 1) h₁ (localsAt rest stale _ size)).bind _ = _
    rw [hend, ← Nat.add_assoc, ← Nat.add_assoc]
    exact hbody stale _ size'
  · exact .returns hr

theorem first_uniform (hv : h.queryVersion = none)
    (hu : h.abParams.fillSize = 0 → ∀ rest, MethodEnds h p rest → ¬ UriEnds h rest []) :
    Uniform p (fun l => Flow.andThen (methodPart h l) fun h l => Flow.andThen (uriPart h l)
      fun h l => Flow.andThen (paramsPart h l) fun h l => Flow.andThen (versionPart h l) nextPart) := by
  rcases method_cases h p with ⟨p₁, hm⟩ | hr
  · obtain ⟨h₁, hgo₁, hparams₁, huri₁, hv₁⟩ := method_goes hm
    refine .goes hgo₁ ?_
    rcases uri_cases h₁ p₁ with ⟨p₂, hm₂⟩ | hr
    · obtain ⟨h₂, hgo₂, hparams₂, hv₂⟩ := uri_goes hm₂
      refine .goes hgo₂ ?_
      have hthere : h₂.abParams.fillSize = 0 → p₂ ≠ [] := by
        rintro h0 rfl
        rw [hparams₂, hparams₁] at h0
        refine hu h0 p₁ hm ?_
        unfold UriEnds at hm₂ ⊢
        rwa [huri₁] at hm₂
      rcases params_cases h₂ hthere with ⟨h₃, p₃, hgo₃, hv₃⟩ | hr
      · exact .goes hgo₃ (version_uniform (by rw [hv₃, hv₂, hv₁, hv]) p₃)
      · exact .returns hr
    · exact .returns hr
  · exact .returns hr

theorem UriExhausts.fails (hu : UriExhausts h p) (u : Nat) : h.processData p p.length u = none := by
  obtain ⟨p₁, hm, hm₂⟩ := hu.ends
  obtain ⟨h₁, hgo₁, hparams₁, huri₁, -⟩ := method_goes hm
  have hends : UriEnds h₁ p₁ [] := by
    unfold UriEnds at hm₂ ⊢
    rwa [huri₁]
  obtain ⟨h₂, hgo₂, hparams₂, -⟩ := uri_goes hends
  have hempty : h₂.abParams.fillSize = 0 := by rw [hparams₂, hparams₁, hu.params]
  obtain ⟨u₁, he₁⟩ := hgo₁.goes [] 0 u
  obtain ⟨u₂, he₂⟩ := hgo₂.goes [] (0 + (p.length - p₁.length)) u₁
  have hlocals : (⟨⟨p, p.length⟩, 0, u⟩ : Locals) = localsAt p [] 0 u := by
    rw [localsAt, List.append_nil]
  rw [processData, hu.first]
  simp only [hlocals, he₁, Flow.andThen, he₂, paramsPart, if_pos hempty]
  rfl

theorem ReadsChunkSize.differs (hr : ReadsChunkSize h p) (hs : Staged h) :
    ¬ ∀ u u', h.processData p p.length u = h.processData p p.length u' := by
  intro hall
  have hbody := hs.body (.inr hr.next)
  have hcall : ∀ u, h.processData p p.length u =
      some ({ h with abHeader := h.abHeader.decrementFreeSize u }, 0) := by
    intro u
    rcases loop_pass h hr.two hr.line with ⟨-, hopen⟩ | ⟨_, _, _, hname, -⟩ | ⟨_, _, _, hname, -⟩
    · have hloop := hopen [] 0 u p.length
      rw [localsAt, List.append_nil] at hloop
      have hnext : h.processData p p.length u = nextPart h ⟨⟨p, p.length⟩, 0, u⟩ := by
        rw [processData, hr.next]
      rw [hnext]
      simp only [nextPart, hloop, Option.bind_eq_bind, Option.bind_some]
      exact body_idle_before (h := { h with abHeader := h.abHeader.decrementFreeSize u }) hbody _
    · exact absurd hname hr.name
    · exact absurd hname hr.name
  have hroom : 0 < h.abHeader.fullSize := hs.room (by rw [hr.next]; exact Phase.noConfusion)
  obtain ⟨n, hn⟩ := h.abHeader.decrement_back hroom
  have hsame := hall n 0
  rw [hcall, hcall] at hsame
  exact hn (congrArg (fun h : HttpHeader => h.abHeader.readyPosition)
    (Prod.mk.inj (Option.some.inj hsame)).1)

/-- In every state a parser can be in: a call depends on its data alone exactly if
these do not end with the URI while there are no parameters, and do not begin
with a part of a header name. -/
theorem local_iff (hr : Reached h) (p : List UInt8) :
    Local h p ↔ ¬ UriExhausts h p ∧ ¬ ReadsChunkSize h p := by
  constructor
  · intro hl
    refine ⟨fun hu => ?_, fun hc => ?_⟩
    · obtain ⟨_, _, he, -⟩ := hl.2 0
      rw [hu.fails] at he
      cases he
    · refine hc.differs hr.staged (fun u u' => ?_)
      simpa using hl.1 [] [] u u'
  · rintro ⟨hu, hc⟩
    cases hp : h.headerProcess with
    | processingFirst =>
      refine (first_uniform (hr.staged.version hp) (fun h0 rest hm hm' => ?_)).is_local
        (fun stale u => by rw [processData, hp]; rfl)
      exact hu ⟨hp, h0, rest, hm, hm'⟩
    | processingNext =>
      refine (next_uniform (p := p) h (fun htwo hline => ?_)).is_local
        (fun stale u => by rw [processData, hp]; rfl)
      exact Decidable.by_contra (fun hname => hc ⟨hp, htwo, hline, hname⟩)
    | none | successful | error =>
      exact (body_uniform h p).is_local (fun stale u => by rw [processData, hp]; rfl)

/-- A new parser takes a part of a method without reading anything else. -/
theorem new_local : Local (.new fun _ => 0) (ascii "GET") := by
  refine (local_iff (.new _) _).mpr ⟨fun hu => ?_, fun hc => ?_⟩
  · obtain ⟨rest, hm, -⟩ := hu.ends
    obtain ⟨gap, token, stop, ht⟩ :
        ∃ gap token stop, Lexeme space [space] (ascii "GET") gap token stop rest := hm
    have hspace : space ∈ ascii "GET" := by
      rw [ht.split, ← List.mem_singleton.mp ht.ends]
      simp
    exact absurd hspace (by decide)
  · cases hc.next

/-- With the space behind its URI as the last byte of its data a parser reads the
byte behind them. -/
theorem space_read_past : ¬ ∀ (h : HttpHeader) (p : List UInt8), Reached h → Local h p := by
  intro hall
  obtain ⟨h', n, he, -⟩ := (hall _ (ascii "GET / ") (.new fun _ => 0)).2 0
  have hnone : (processData (.new fun _ => 0) (ascii "GET / ") (ascii "GET / ").length 0).isNone := by
    decide +kernel
  rw [he] at hnone
  cases hnone

end Khorost.HttpHeader
