import Khorost.Proofs.Echoes
import Khorost.Proofs.Locality
import Khorost.Proofs.Reading

namespace Khorost

open Scan

namespace AutoBuffer

def appendAll (b : AutoBuffer α) (chunks : List (List α)) : AutoBuffer α := chunks.foldl append b

/-- What a demand makes of the allocation depends on its size alone. -/
theorem SameSize.check_size {b b' : AutoBuffer α} (h : SameSize b b') (n : Nat) :
    SameSize (b.checkSize n) (b'.checkSize n) := by
  have hready : b.readyPosition = b'.readyPosition := h.fill
  have hrealloc : ∀ m, (b.realloc m).fullSize = (b'.realloc m).fullSize := by
    intro m
    have hfull : b.buffer.length = b'.buffer.length := h.full
    simp only [realloc, fullSize, List.length_append, List.length_map, List.length_range', hfull]
  refine ⟨by rw [fillSize, fillSize, check_size_ready, check_size_ready, hready], ?_⟩
  simp only [checkSize, hready, h.full]
  repeat' split
  all_goals first | exact hrealloc _ | exact h.full

theorem append_full (b : AutoBuffer α) (xs : List α) : (b.append xs).fullSize =
    (if b.freeSize < xs.length then b.checkSize (b.fillSize + xs.length) else b).fullSize := by
  have hready := b.ready_le
  simp only [append, fullSize, fillSize]
  split
  · have hroom := b.check_size_full xs.length
    have hfill : (b.checkSize (b.readyPosition + xs.length)).fillSize = b.readyPosition :=
      check_size_ready b _
    simp only [fillSize, fullSize] at hroom hfill
    simp only [List.length_append, List.length_take, List.length_drop]
    omega
  · rename_i hroom
    simp only [freeSize, fullSize, fillSize] at hroom
    simp only [List.length_append, List.length_take, List.length_drop]
    omega

theorem SameSize.append {b b' : AutoBuffer α} (h : SameSize b b') (xs : List α) :
    SameSize (b.append xs) (b'.append xs) := by
  refine ⟨congrArg (· + xs.length) h.fill, ?_⟩
  rw [append_full, append_full, h.free, h.fill]
  split
  · exact (h.check_size _).full
  · exact h.full

theorem SameSize.append_all {b b' : AutoBuffer α} (h : SameSize b b') (chunks : List (List α)) :
    SameSize (b.appendAll chunks) (b'.appendAll chunks) := by
  induction chunks generalizing b b' with
  | nil => exact h
  | cons chunk chunks ih => exact ih (h.append chunk)

theorem append_all_append (b : AutoBuffer α) (chunks chunks' : List (List α)) :
    b.appendAll (chunks ++ chunks') = (b.appendAll chunks).appendAll chunks' :=
  List.foldl_append

/-- Moving the fill forward changes nothing only where it moves by nothing. -/
theorem decrement_fill_iff (b : AutoBuffer α) (hn : b.NoWrap n) :
    (b.decrementFreeSize n).fillSize = b.fillSize ↔ n = 0 ∨ b.freeSize = 0 := by
  have hready : b.fillSize ≤ b.fullSize := b.ready_le
  have hmove : (b.decrementFreeSize n).fillSize = min (b.fillSize + n) b.fullSize :=
    b.decrement_ready hn
  rw [hmove, freeSize]
  omega

theorem decrement_content (b : AutoBuffer α) (n : Nat)
    (h : (b.decrementFreeSize n).fillSize = b.fillSize) :
    (b.decrementFreeSize n).content = b.content :=
  congrArg b.buffer.take h

end AutoBuffer

theorem with_chunk_same (b : AutoBuffer UInt8) (gap token : List UInt8) (stop : UInt8) :
    AutoBuffer.SameSize (withChunk b gap token stop) (b.append (gap ++ token ++ [stop])) :=
  AutoBuffer.same_set _ _ _

theorem with_chunk_fill (b : AutoBuffer UInt8) (gap token : List UInt8) (stop : UInt8) :
    (withChunk b gap token stop).fillSize = b.fillSize + (gap.length + token.length + 1) := by
  rw [(with_chunk_same b gap token stop).fill]
  change b.fillSize + (gap ++ token ++ [stop]).length = _
  simp only [List.length_append, List.length_singleton]

theorem with_chunk_kept (b : AutoBuffer UInt8) (gap token : List UInt8) (stop : UInt8) :
    Kept b.content (withChunk b gap token stop).content := by
  rw [chunk_content, List.append_assoc, List.append_assoc]
  exact Kept.append _ _

namespace HttpHeader

/-- Whole header lines, with `q` behind them, and what is appended for each: the
name with its colon, and the value with the first byte of its line end. -/
inductive Lines (q : List UInt8) : List UInt8 → List (List UInt8) → Prop
  | none : Lines q [] []
  | line (hc : ¬ [cr, lf] <+: c) (hk : Lexeme space [colon] c gap₁ name stop₁ rest₁)
      (hv : Lexeme space [cr, lf] rest₁ gap₂ text stop₂ rest₂)
      (hend : afterLineEnd (rest₂ ++ q) = rest ++ q) (hl : Lines q rest chunks) :
      Lines q c ((gap₁ ++ name ++ [stop₁]) :: (gap₂ ++ text ++ [stop₂]) :: chunks)

/-- A text that ends inside a header line: in its name or in its value. -/
structure InLine (q : List UInt8) : Prop where
  not_blank : ¬ [cr, lf] <+: q
  openEnd : Open space [colon] q ∨
    ∃ gap name stop rest, Lexeme space [colon] q gap name stop rest ∧ Open space [cr, lf] rest

inductive MethodTaken (h : HttpHeader) (c : List UInt8) :
    List (List UInt8) → List UInt8 → Prop
  | known (hv : h.queryMethod.isSome) : MethodTaken h c [] c
  | token (hv : ¬ h.queryMethod.isSome) (ht : Lexeme space [space] c gap token stop rest) :
      MethodTaken h c [gap ++ token ++ [stop]] rest

/-- The question mark behind a URI is appended and is not passed. -/
inductive UriTaken (h : HttpHeader) (c : List UInt8) : List (List UInt8) → List UInt8 → Prop
  | known (hv : h.queryUri.isSome) : UriTaken h c [] c
  | token (hv : ¬ h.queryUri.isSome)
      (ht : Lexeme space [question, space] c gap token stop rest) :
      UriTaken h c [gap ++ token ++ [stop]] (if stop = question then question :: rest else rest)

/-- The parameters do not stand in the header buffer. -/
inductive ParamsTaken (h : HttpHeader) : List UInt8 → List UInt8 → Prop
  | known (hf : ¬ h.abParams.fillSize = 0) (c : List UInt8) : ParamsTaken h c c
  | other (hf : h.abParams.fillSize = 0) (hd : d ≠ question) (c : List UInt8) :
      ParamsTaken h (d :: c) (d :: c)
  | token (hf : h.abParams.fillSize = 0) (ht : Lexeme question [space] c gap token stop rest) :
      ParamsTaken h (question :: c) rest

/-- What is missing of the first line, with `rest` and `q` behind it. -/
inductive FirstLine (h : HttpHeader) (q : List UInt8) :
    List UInt8 → List (List UInt8) → List UInt8 → Prop
  | ends (hm : MethodTaken h c method p₁) (hu : UriTaken h p₁ uri p₂) (hp : ParamsTaken h p₂ p₃)
      (hv : Lexeme space [cr, lf] p₃ gap version stop p₄)
      (hend : afterLineEnd (p₄ ++ q) = rest ++ q) :
      FirstLine h q c (method ++ (uri ++ [gap ++ version ++ [stop]])) rest

/-- The part of a call in front of `q` is complete, and what of it is appended to
the header buffer. -/
def Complete (h : HttpHeader) (q c : List UInt8) (chunks : List (List UInt8)) : Prop :=
  if h.headerProcess = .processingFirst then
    ∃ first rest lines, FirstLine h q c first rest ∧ Lines q rest lines ∧ chunks = first ++ lines
  else Lines q c chunks

/-- Whatever is behind the data and whatever `chunk_size` holds, a call that ends
inside a line consumes the complete lines only, and leaves in the header buffer
what a call with these lines alone leaves there. -/
def Undoes (h : HttpHeader) (c q : List UInt8) : Prop :=
  ∀ stale stale' u u', ∃ h₁ h₂,
    h.processData (c ++ stale) c.length u = some (h₁, c.length) ∧
    h.processData (c ++ q ++ stale') (c ++ q).length u' = some (h₂, c.length) ∧
    h₂.abHeader.fillSize = h₁.abHeader.fillSize ∧ h₂.abHeader.content = h₁.abHeader.content

variable {h h' : HttpHeader} {q c p rest : List UInt8} {chunks : List (List UInt8)}

/-- A line end that `q` does not tear ends in the same place without `q`. -/
theorem line_end_alone (hend : afterLineEnd (p ++ q) = rest ++ q) (ht : t = [] ∨ t = q) :
    afterLineEnd (p ++ t) = rest ++ t := by
  rcases ht with rfl | rfl
  · rw [List.append_nil, List.append_nil]
    cases p with
    | nil =>
      have hle := after_line_end_length q
      rw [List.nil_append] at hend
      rw [hend, List.length_append] at hle
      exact (List.eq_nil_of_length_eq_zero (by omega)).symm
    | cons d p =>
      rw [List.cons_append, afterLineEnd] at hend
      rw [afterLineEnd]
      split at hend
      · rename_i hd
        rw [if_pos hd]
        exact List.append_cancel_right hend
      · rename_i hd
        rw [if_neg hd]
        exact List.append_cancel_right hend
  · exact hend

theorem not_blank_more (hc : ¬ [cr, lf] <+: c) (hlen : 2 ≤ c.length) (t : List UInt8) :
    ¬ [cr, lf] <+: c ++ t :=
  fun hp => hc (List.prefix_of_prefix_length_le hp (List.prefix_append c t) hlen)

theorem line_fill (hadd : addHeader { h with
      abHeader := withChunk (withChunk h.abHeader gap₁ name stop₁) gap₂ text stop₂ } key value n =
        some h') :
    h'.abHeader.fillSize = h.abHeader.fillSize + (gap₁.length + name.length + 1) +
      (gap₂.length + text.length + 1) := by
  rw [(add_header_same hadd).fill, with_chunk_fill, with_chunk_fill]

/-- What `chunk_size` holds behind the lines `c`: without any what it has held before,
else the size of a chunk. -/
def Leaves (c : List UInt8) (h h' : HttpHeader) (u size : Nat) : Prop :=
  c = [] ∧ h' = h ∧ size = u ∨ c ≠ [] ∧ 0 < size ∧ size ≤ h'.abHeader.fillSize

/-- The header loop goes past the complete lines to what stands behind them. -/
theorem lines_pass (hl : Lines q c chunks) (h : HttpHeader) :
    ∃ h', Keeps h h' ∧ AutoBuffer.SameSize h'.abHeader (h.abHeader.appendAll chunks) ∧
      ∀ t, t = [] ∨ t = q → ∀ stale start u fuel, (c ++ t).length ≤ fuel →
        ∃ size fuel', Leaves c h h' u size ∧
          headerLoop (fuel + 1) h (localsAt (c ++ t) stale start u) =
            headerLoop (fuel' + 1) h' (localsAt t stale (start + c.length) size) := by
  induction hl generalizing h with
  | none =>
    exact ⟨h, .refl h, .refl _, fun t _ stale start u fuel _ =>
      ⟨u, fuel, .inl ⟨rfl, rfl, rfl⟩, rfl⟩⟩
  | @line c gap₁ name stop₁ rest₁ gap₂ text stop₂ rest₂ rest chunks hc hk hv hend hl ih =>
    have hlen₁ := hk.length
    have hlen₂ := hv.length
    let key := withChunk h.abHeader gap₁ name stop₁
    obtain ⟨h₁, hadd⟩ := add_token_total hv { h with abHeader := key }
      (h.abHeader.fillSize + gap₁.length)
    obtain ⟨h', hkeeps, hsame, hloop⟩ := ih h₁
    have hfill := line_fill hadd
    have hkeeps₁ : Keeps h h₁ := by
      have hk := add_header_keeps hadd
      exact .of_fill (by omega) hk.version hk.headerProcess hk.bodyProcess
    have hsame₁ : AutoBuffer.SameSize h₁.abHeader
        ((h.abHeader.append (gap₁ ++ name ++ [stop₁])).append (gap₂ ++ text ++ [stop₂])) :=
      ((add_header_same hadd).trans (with_chunk_same key gap₂ text stop₂)).trans
        ((with_chunk_same h.abHeader gap₁ name stop₁).append _)
    refine ⟨h', hkeeps₁.trans hkeeps, hsame.trans (hsame₁.append_all chunks),
      fun t ht stale start u fuel hfuel => ?_⟩
    have hleft := line_end_alone hend ht
    have hle := after_line_end_length (rest₂ ++ t)
    have hskip := skip_line_end (rest₂ ++ t) stale (gap₁.length + name.length + 1)
    rw [hleft] at hle hskip
    simp only [List.length_append] at hle hfuel
    obtain ⟨fuel, rfl⟩ : ∃ k, fuel = k + 1 := ⟨fuel - 1, by omega⟩
    have hp : 2 ≤ (c ++ t).length := by
      rw [List.length_append]
      omega
    rw [loop_whole h hp (not_blank_more hc (by omega) t) (hk.extend t) (hv.extend t) hskip hadd]
    obtain ⟨size, fuel', hsize, he⟩ := hloop t ht stale _ _ fuel
      (by rw [List.length_append]; omega)
    refine ⟨size, fuel', .inr ⟨?_, ?_⟩, he.trans ?_⟩
    · rintro rfl
      rw [List.length_nil] at hlen₁
      omega
    · have hassigned := HttpHeader.skip_line_end_size hskip
      rcases hsize with ⟨-, rfl, rfl⟩ | ⟨-, hpos, hpart⟩
      · rw [hfill]
        omega
      · exact ⟨hpos, hpart⟩
    · congr 2
      simp only [List.length_append]
      omega

/-- A run that starts with the text `c` in front of `t` comes to the header loop
there, with the size of a chunk in `chunk_size`. -/
def Arrives (run : Locals → Option (HttpHeader × Nat)) (c : List UInt8) (h' : HttpHeader)
    (t : List UInt8) : Prop :=
  ∀ stale start u, ∃ size fuel, (0 < size ∧ size ≤ h'.abHeader.fillSize) ∧
    run (localsAt (c ++ t) stale start u) =
      (headerLoop (fuel + 1) h' (localsAt t stale (start + c.length) size)).bind fun (h, l) =>
        bodyPart h l

theorem Arrives.goes {part : HttpHeader → Locals → Option Flow}
    {next : HttpHeader → Locals → Option (HttpHeader × Nat)}
    (hg : Goes part h (c ++ t) h₁ (rest ++ t)) (ha : Arrives (next h₁) rest h' t) :
    Arrives (fun l => Flow.andThen (part h l) next) c h' t := by
  intro stale start u
  obtain ⟨u', hgo⟩ := hg.goes stale start u
  have hle := hg.shorter
  obtain ⟨size, fuel, hpos, he⟩ := ha stale (start + ((c ++ t).length - (rest ++ t).length)) u'
  refine ⟨size, fuel, hpos, ?_⟩
  change Flow.andThen (part h (localsAt (c ++ t) stale start u)) next = _
  rw [hgo]
  change next h₁ _ = _
  rw [he]
  simp only [List.length_append] at hle ⊢
  congr 3
  omega

/-- A part of the first line takes the same from `c` whatever stands behind it. -/
structure PartTaken (part : HttpHeader → Locals → Option Flow) (h : HttpHeader) (c : List UInt8)
    (h' : HttpHeader) (rest : List UInt8) (chunks : List (List UInt8)) : Prop where
  goes : ∀ t, Goes part h (c ++ t) h' (rest ++ t)
  keeps : Keeps h h'
  values : h'.headerValues = h.headerValues
  kept : Kept h.abHeader.content h'.abHeader.content
  same : AutoBuffer.SameSize h'.abHeader (h.abHeader.appendAll chunks)

theorem PartTaken.passed {part : HttpHeader → Locals → Option Flow}
    (hgo : ∀ t, Goes part h (c ++ t) h (rest ++ t)) : PartTaken part h c h rest [] :=
  ⟨hgo, .refl h, rfl, Kept.refl _, .refl _⟩

theorem chunk_keeps (hb : h'.abHeader = withChunk h.abHeader gap token stop)
    (hv : h'.queryVersion = h.queryVersion) (hp : h'.headerProcess = h.headerProcess)
    (hbody : h'.bodyProcess = h.bodyProcess) : Keeps h h' := by
  refine .of_fill ?_ hv hp hbody
  rw [hb, with_chunk_fill]
  omega

theorem MethodTaken.taken (hm : MethodTaken h c chunks rest) :
    ∃ h', PartTaken methodPart h c h' rest chunks ∧ (Begun h → 0 < h'.abHeader.fillSize) ∧
      h'.queryUri = h.queryUri ∧ h'.abParams = h.abParams := by
  cases hm with
  | known hv => exact ⟨h, .passed fun t => method_known_goes hv _, fun hb => hb hv, rfl, rfl⟩
  | token hv ht =>
    exact ⟨_, ⟨fun t => method_token_goes hv (ht.extend t), chunk_keeps rfl rfl rfl rfl, rfl,
      with_chunk_kept _ _ _ _, with_chunk_same _ _ _ _⟩,
      fun _ => by rw [with_chunk_fill]; omega, rfl, rfl⟩

theorem UriTaken.taken (hu : UriTaken h c chunks rest) :
    ∃ h', PartTaken uriPart h c h' rest chunks ∧ h'.abParams = h.abParams := by
  cases hu with
  | known hv => exact ⟨h, .passed fun t => uri_known_goes hv _, rfl⟩
  | @token gap token stop rest hv ht =>
    have hgo : ∀ t, Goes uriPart h (c ++ t) { h with
        abHeader := withChunk h.abHeader gap token stop
        queryUri := some (h.abHeader.fillSize + gap.length) }
        ((if stop = question then question :: rest else rest) ++ t) := by
      intro t
      have hgo := uri_token_goes hv (ht.extend t)
      by_cases hq : stop = question
      · rw [if_pos hq] at hgo ⊢
        exact hgo
      · rw [if_neg hq] at hgo ⊢
        exact hgo
    exact ⟨_, ⟨hgo, chunk_keeps rfl rfl rfl rfl, rfl, with_chunk_kept _ _ _ _,
      with_chunk_same _ _ _ _⟩, rfl⟩

theorem ParamsTaken.taken (hp : ParamsTaken h c rest) :
    ∃ h', PartTaken paramsPart h c h' rest [] := by
  cases hp with
  | known hf c => exact ⟨h, .passed fun t => params_known_goes hf _⟩
  | other hf hd c => exact ⟨h, .passed fun t => params_other_goes hf hd _⟩
  | token hf ht =>
    exact ⟨_, fun t => params_token_goes hf (ht.extend t), ⟨fun _ => id, rfl, rfl, rfl, id⟩, rfl,
      Kept.refl _, .refl _⟩

/-- What is taken from one state is taken from another in which the same is known. -/
theorem UriTaken.of_known (hu : UriTaken h c chunks rest) (hk : h'.queryUri = h.queryUri) :
    UriTaken h' c chunks rest := by
  cases hu with
  | known hv => exact .known (by rwa [hk])
  | token hv ht => exact .token (by rwa [hk]) ht

theorem ParamsTaken.of_params (hp : ParamsTaken h c rest) (hk : h'.abParams = h.abParams) :
    ParamsTaken h' c rest := by
  cases hp with
  | known hf c => exact .known (by rwa [hk]) c
  | other hf hd c => exact .other (by rwa [hk]) hd c
  | token hf ht => exact .token (by rwa [hk]) ht

theorem first_line_pass (hf : FirstLine h q c first rest) (hl : Lines q rest lines)
    (hs : Staged h) (hn : h.headerProcess = .processingFirst) :
    c ≠ [] ∧ ∃ h', h'.bodyProcess = h.bodyProcess ∧
      AutoBuffer.SameSize h'.abHeader (h.abHeader.appendAll (first ++ lines)) ∧
      ∀ t, t = [] ∨ t = q → Arrives (fun l => Flow.andThen (methodPart h l) fun h l =>
        Flow.andThen (uriPart h l) fun h l => Flow.andThen (paramsPart h l) fun h l =>
        Flow.andThen (versionPart h l) nextPart) c h' t := by
  obtain @⟨method, p₁, uri, p₂, p₃, gap, version, stop, p₄, _, hm, hu, hp, ht, hend⟩ := hf
  obtain ⟨h₁, hgo₁, hmethod, huri, hparams⟩ := hm.taken
  obtain ⟨h₂, hgo₂, hparams'⟩ := (hu.of_known huri).taken
  obtain ⟨h₃, hgo₃⟩ := (hp.of_params (hparams'.trans hparams)).taken
  have hkeeps := (hgo₁.keeps.trans hgo₂.keeps).trans hgo₃.keeps
  have hnone : h₃.queryVersion = none := hkeeps.version.trans (hs.version hn)
  have hbegun : 0 < h₃.abHeader.fillSize := (hgo₂.kept.trans hgo₃.kept).filled (hmethod (hs.begun hn))
  have hsome : c ≠ [] := by
    rintro rfl
    have hlen := ht.length
    have hshort := ((hgo₃.goes []).shorter.trans (hgo₂.goes []).shorter).trans (hgo₁.goes []).shorter
    rw [List.append_nil, List.length_append, List.length_nil] at hshort
    omega
  obtain ⟨h', hkeeps', hsame, hloop⟩ := lines_pass hl { h₃ with
    abHeader := withChunk h₃.abHeader gap version stop
    queryVersion := some (h₃.abHeader.fillSize + gap.length)
    headerProcess := .processingNext }
  refine ⟨hsome, h', hkeeps'.bodyProcess.trans hkeeps.bodyProcess, ?_, fun t htail => ?_⟩
  · have hsame₃ : AutoBuffer.SameSize h₃.abHeader
        ((h.abHeader.appendAll method).appendAll uri) :=
      (hgo₃.same.trans hgo₂.same).trans (hgo₁.same.append_all uri)
    have hsame₄ := (with_chunk_same h₃.abHeader gap version stop).trans (hsame₃.append _)
    simp only [AutoBuffer.append_all_append]
    exact hsame.trans (hsame₄.append_all lines)
  · refine .goes (hgo₁.goes t) (.goes (hgo₂.goes t) (.goes (hgo₃.goes t) ?_))
    intro stale start u
    have hleft := line_end_alone hend htail
    have hle := after_line_end_length (p₄ ++ t)
    have hskip := skip_line_end (p₄ ++ t) stale (gap.length + version.length + 1)
    have hlen := ht.length
    rw [hleft] at hle hskip
    let first := gap.length + version.length + 1 + ((p₄ ++ t).length - (rest ++ t).length)
    have hfirst : 0 < first := by
      dsimp only [first]
      omega
    obtain ⟨size, fuel, hsize, he⟩ := hloop t htail stale (start + first) first
      (rest ++ t ++ stale).length (by simp only [List.length_append]; omega)
    have hassigned := HttpHeader.skip_line_end_size hskip
    refine ⟨size, fuel, ?_, ?_⟩
    · rcases hsize with ⟨-, rfl, rfl⟩ | ⟨-, hpart⟩
      · refine ⟨hfirst, ?_⟩
        dsimp only
        rw [with_chunk_fill]
        omega
      · exact hpart
    change Flow.andThen (versionPart h₃ (localsAt (p₃ ++ t) stale start u)) nextPart = _
    rw [version_token_goes hnone (ht.extend t) hskip]
    change (headerLoop ((rest ++ t ++ stale).length + 1) _
      (localsAt (rest ++ t) stale (start + first) first)).bind _ = _
    rw [he]
    congr 3
    simp only [first, List.length_append] at hle ⊢
    omega

/-- A call comes to the header loop behind the complete lines. -/
theorem complete_pass (hs : Staged h)
    (hn : h.headerProcess = .processingFirst ∨ h.headerProcess = .processingNext)
    (hc : Complete h q c chunks) : ∃ h', (c = [] → h.headerProcess = .processingNext) ∧
      h'.bodyProcess = .none ∧
      AutoBuffer.SameSize h'.abHeader (h.abHeader.appendAll chunks) ∧
      ∀ t, t = [] ∨ t = q → ∀ stale u, ∃ size fuel, Leaves c h h' u size ∧
        h.processData (c ++ t ++ stale) (c ++ t).length u =
          (headerLoop (fuel + 1) h' (localsAt t stale c.length size)).bind fun (h, l) =>
            bodyPart h l := by
  have hbody := hs.body hn
  rcases hn with hn | hn
  · rw [Complete, if_pos hn] at hc
    obtain ⟨first, rest, lines, hf, hl, rfl⟩ := hc
    obtain ⟨hsome, h', hkeep, hsame, hgo⟩ := first_line_pass hf hl hs hn
    refine ⟨h', fun hnone => absurd hnone hsome, hkeep.trans hbody, hsame, fun t ht stale u => ?_⟩
    obtain ⟨size, fuel, hpos, he⟩ := hgo t ht stale 0 u
    refine ⟨size, fuel, .inr ⟨hsome, hpos⟩, ?_⟩
    rw [processData, hn]
    rw [Nat.zero_add] at he
    exact he
  · rw [Complete, if_neg (by rw [hn]; decide)] at hc
    obtain ⟨h', hkeeps, hsame, hloop⟩ := lines_pass hc h
    refine ⟨h', fun _ => hn, hkeeps.bodyProcess.trans hbody, hsame, fun t ht stale u => ?_⟩
    obtain ⟨size, fuel, hsize, he⟩ := hloop t ht stale 0 u (c ++ t ++ stale).length
      (by simp only [List.length_append]; omega)
    refine ⟨size, fuel, hsize, ?_⟩
    rw [processData, hn]
    change (headerLoop ((c ++ t ++ stale).length + 1) h (localsAt (c ++ t) stale 0 u)).bind _ = _
    rw [he, Nat.zero_add]

/-- Before the end of the header there is no body to take. -/
theorem loop_then_body (hb : h.bodyProcess = .none) {result : Option (HttpHeader × Locals)}
    (he : result = some ({ h with abHeader := b }, l)) :
    (result.bind fun (h, l) => bodyPart h l) = some ({ h with abHeader := b }, l.processByte) := by
  rw [he]
  exact body_idle_before (h := { h with abHeader := b }) hb l

/-- The code moves the fill forward where it means to take it back: what is left
behind is the same only where it cannot move. -/
theorem undoes_line_iff (hr : Reached h)
    (hn : h.headerProcess = .processingFirst ∨ h.headerProcess = .processingNext)
    (hc : Complete h q c chunks) (hq : InLine q) :
    Undoes h c q ↔
      q.length < 2 ∨ colon ∉ q ∧ c ≠ [] ∧ (h.abHeader.appendAll chunks).freeSize = 0 := by
  obtain ⟨h', hnext, hbody, hsame, hpass⟩ := complete_pass hr.staged hn hc
  have hwhole : ∀ stale u, h.processData (c ++ stale) c.length u = some (h', c.length) := by
    intro stale u
    obtain ⟨size, fuel, -, he⟩ := hpass [] (.inl rfl) stale u
    rw [List.append_nil] at he
    exact he.trans (loop_then_body hbody (loop_short h' (by decide) stale _ _ _))
  by_cases hlen : q.length < 2
  · refine iff_of_true (fun stale stale' u u' => ⟨h', h', hwhole stale u, ?_, rfl, rfl⟩) (.inl hlen)
    obtain ⟨size, fuel, -, he⟩ := hpass q (.inr rfl) stale' u'
    exact he.trans (loop_then_body hbody (loop_short h' hlen stale' _ _ _))
  have hlen : 2 ≤ q.length := Nat.le_of_not_lt hlen
  rcases hq.openEnd with ho | ⟨gap, name, stop, rest, hk, ho⟩
  · -- a part of a name moves the fill by whatever `chunk_size` holds
    have hpart : ∀ stale u, ∃ size, Leaves c h h' u size ∧
        h.processData (c ++ q ++ stale) (c ++ q).length u =
          some ({ h' with abHeader := h'.abHeader.decrementFreeSize size }, c.length) := by
      intro stale u
      obtain ⟨size, fuel, hsize, he⟩ := hpass q (.inr rfl) stale u
      have hopen := loop_name_open h' hlen hq.not_blank ho stale c.length size fuel
      exact ⟨size, hsize, he.trans (loop_then_body hbody hopen)⟩
    constructor
    · intro hu
      refine .inr ⟨open_no_colon ho, ?_⟩
      by_cases hnone : c = []
      · -- `chunk_size` may hold a number that moves the fill
        have hroom : 0 < h.abHeader.fullSize := hr.staged.room (by rw [hnext hnone]; nofun)
        obtain ⟨u, hmoves⟩ := h.abHeader.decrement_back hroom
        obtain ⟨h₁, h₂, he₁, he₂, hfill, -⟩ := hu [] [] 0 u
        obtain ⟨size, hsize, he⟩ := hpart [] u
        obtain ⟨-, rfl, rfl⟩ | ⟨hsome, -⟩ := hsize
        · rw [hwhole] at he₁
          rw [he] at he₂
          cases he₁
          cases he₂
          refine absurd (hfill.trans ?_) hmoves
          exact (h'.abHeader.decrement_fill_iff (.inl (Nat.zero_le _))).mpr (.inl rfl) |>.symm
        · exact absurd hnone hsome
      · refine ⟨hnone, ?_⟩
        obtain ⟨h₁, h₂, he₁, he₂, hfill, -⟩ := hu [] [] 0 0
        obtain ⟨size, hsize, he⟩ := hpart [] 0
        obtain ⟨hempty, -⟩ | ⟨-, hpos, hle⟩ := hsize
        · exact absurd hempty hnone
        · rw [hwhole] at he₁
          rw [he] at he₂
          cases he₁
          cases he₂
          rw [← hsame.free]
          have hmoved := (h'.abHeader.decrement_fill_iff (AutoBuffer.no_wrap_of_fill hle)).mp hfill
          exact hmoved.resolve_left (by omega)
    · rintro (hshort | ⟨-, hsome, hfree⟩)
      · omega
      · intro stale stale' u u'
        obtain ⟨size, hsize, he⟩ := hpart stale' u'
        obtain ⟨hempty, -⟩ | ⟨-, -, hle⟩ := hsize
        · exact absurd hempty hsome
        · have hfill := (h'.abHeader.decrement_fill_iff (AutoBuffer.no_wrap_of_fill hle)).mpr
            (.inr (hsame.free.trans hfree))
          exact ⟨h', _, hwhole stale u, he, hfill, h'.abHeader.decrement_content size hfill⟩
  · -- behind a part of a value its name stays, and more is taken over
    refine iff_of_false (fun hu => ?_) ?_
    · obtain ⟨h₁, h₂, he₁, he₂, hfill, -⟩ := hu [] [] 0 0
      obtain ⟨size, fuel, -, he⟩ := hpass q (.inr rfl) [] 0
      have hopen := loop_text_open h' hlen hq.not_blank hk ho [] c.length size fuel
      rw [hwhole] at he₁
      rw [he.trans (loop_then_body hbody hopen)] at he₂
      cases he₁
      cases he₂
      have hstored := (with_chunk_same h'.abHeader gap name stop).fill
      have hstored' := with_chunk_fill h'.abHeader gap name stop
      have hmoved := (withChunk h'.abHeader gap name stop).decrement_ready
        (AutoBuffer.no_wrap_of_fill (n := gap.length + name.length + 1) (by omega))
      have hroom : (withChunk h'.abHeader gap name stop).fillSize ≤
        (withChunk h'.abHeader gap name stop).fullSize := AutoBuffer.ready_le _
      have happend : (h'.abHeader.append (gap ++ name ++ [stop])).fillSize =
        h'.abHeader.fillSize + (gap ++ name ++ [stop]).length := rfl
      simp only [AutoBuffer.fillSize, List.length_append, List.length_singleton] at *
      omega
    · rintro (hshort | ⟨hname, -⟩)
      · omega
      · exact hname (colon_of_name hk)

def started : HttpHeader :=
  let text := ascii "GET / HTTP/1.1\r\n"
  (((HttpHeader.new fun _ => 0).processData text text.length 0).map Prod.fst).getD
    (HttpHeader.new fun _ => 0)

theorem reached_started : Reached started := (parsed_forward (ascii "GET / HTTP/1.1\r\n")).reached

theorem started_next : started.headerProcess = .processingNext := by decide +kernel

/-- Behind a complete line one byte of the next one changes nothing. -/
theorem one_byte_undone : Undoes started (ascii "A:b\r\n") (ascii "H") := by
  have hname : Lexeme space [colon] (ascii "A:b\r\n") [] (ascii "A") colon (ascii "b\r\n") :=
    ⟨rfl, by simp, by decide +kernel, by decide +kernel, by decide +kernel⟩
  have hvalue : Lexeme space [cr, lf] (ascii "b\r\n") [] (ascii "b") cr (ascii "\n") :=
    ⟨rfl, by simp, by decide +kernel, by decide +kernel, by decide +kernel⟩
  have hline : Complete started (ascii "H") (ascii "A:b\r\n") [ascii "A:", ascii "b\r"] := by
    rw [Complete, if_neg (by rw [started_next]; decide)]
    exact .line (by decide) hname hvalue rfl .none
  have hq : InLine (ascii "H") :=
    ⟨by decide, .inl (open_of_clear space (by decide +kernel))⟩
  exact (undoes_line_iff reached_started (.inr started_next) hline hq).mpr (.inl (by decide))

/-- The name in front of a part of a value stays in the header buffer, and more
behind it. -/
theorem name_left_behind : ¬ ∀ (h : HttpHeader) q c chunks, Reached h →
    h.headerProcess = .processingFirst ∨ h.headerProcess = .processingNext →
    Complete h q c chunks → InLine q → Undoes h c q := by
  intro hall
  have hline : InLine (ascii "Host: a") := by
    refine ⟨by decide +kernel, .inr ⟨[], ascii "Host", colon, ascii " a",
      ⟨rfl, by simp, by decide +kernel, by decide +kernel, by decide +kernel⟩, ?_⟩⟩
    exact ⟨[space], ascii "a", rfl, by simp, by decide +kernel, by decide +kernel⟩
  have hnone : Complete started (ascii "Host: a") [] [] := by
    rw [Complete, if_neg (by rw [started_next]; decide)]
    exact .none
  obtain ⟨h₁, h₂, he₁, he₂, hfill, -⟩ :=
    hall started _ _ _ reached_started (.inr started_next) hnone hline [] [] 0 0
  have hfill₁ : (started.processData [] 0 0).map (fun r => r.1.abHeader.fillSize) = some 15 := by
    decide +kernel
  have hfill₂ : (started.processData (ascii "Host: a") 7 0).map (fun r => r.1.abHeader.fillSize) =
      some 25 := by
    decide +kernel
  have he₁ : started.processData [] 0 0 = some (h₁, 0) := he₁
  have he₂ : started.processData (ascii "Host: a") 7 0 = some (h₂, 0) := he₂
  rw [he₁, Option.map_some, Option.some.injEq] at hfill₁
  rw [he₂, Option.map_some, Option.some.injEq] at hfill₂
  exact absurd (hfill₂.symm.trans (hfill.trans hfill₁)) (by decide)

end HttpHeader

end Khorost
