import Khorost.Proofs.Locality

namespace Khorost

open Scan

/-- What decides how a call divides its data: everything but the header buffer and the
positions in it. -/
structure Frame where
  method : Bool
  uri : Bool
  version : Bool
  abParams : AutoBuffer UInt8
  abBody : AutoBuffer UInt8
  headerProcess : Phase
  bodyProcess : Phase
  contentLength : Nat

/-- The first field that gives a length gives that of the body. -/
def Frame.addField (f : Frame) (name text : List UInt8) : Frame :=
  { f with contentLength := if f.contentLength = npos ∧ name = ascii "Content-Length" then
      sizeT (atoi text) else f.contentLength }

/-- The chunk and the cursor behind it are the same for every target. -/
inductive ChunkCases (i : Cursor) (lead : UInt8) (div : List UInt8) : Prop
  | outside (he : ∀ b, getChunk i lead div b = none)
  | waits (he : ∀ b, getChunk i lead div b = some none)
  | found (gap token : List UInt8) (cursor : Cursor)
      (he : ∀ b, ∃ c, getChunk i lead div b = some (some c) ∧ c.cursor = cursor ∧
        Found { c with cursor := ⟨[], 0⟩ } b gap token [] [])

theorem chunk_cases (i : Cursor) (lead : UInt8) (div : List UInt8) : ChunkCases i lead div := by
  cases hskip : skipLead lead i.buffer i.bufferSize with
  | none => exact .outside fun b => by rw [getChunk, hskip]; rfl
  | some s =>
    cases hstop : findStop div (i.buffer.drop s) (i.bufferSize - s) with
    | none =>
      refine .outside fun b => ?_
      rw [getChunk, hskip]
      simp only [Option.bind_eq_bind, Option.bind_some, hstop, Option.bind_none]
    | some stop =>
      cases stop with
      | none =>
        refine .waits fun b => ?_
        rw [getChunk, hskip]
        simp only [Option.bind_eq_bind, Option.bind_some, hstop]
      | some m =>
        have hthere := find_stop_there hstop
        rw [List.length_drop] at hthere
        have hgap : (i.buffer.take s).length = s := by
          rw [List.length_take]
          omega
        have htoken : ((i.buffer.drop s).take m).length = m := by
          rw [List.length_take, List.length_drop]
          omega
        obtain ⟨c, tail, hc⟩ := List.exists_cons_of_ne_nil
          (List.drop_eq_nil_iff.not.mpr (Nat.not_le.mpr (show s + m < i.buffer.length by omega)))
        have htake : i.buffer.take (s + m + 1) =
            i.buffer.take s ++ (i.buffer.drop s).take m ++ [c] := by
          rw [List.take_add, List.take_add, hc]
          rfl
        refine .found (i.buffer.take s) ((i.buffer.drop s).take m) (i.advance (s + m + 1)) fun b =>
          ⟨⟨withChunk b (i.buffer.take s) ((i.buffer.drop s).take m) c, b.fillSize + s, s + m + 1,
            i.advance (s + m + 1)⟩, ?_, rfl, chunk_content _ _ _ _, ?_, ?_, rfl⟩
        · rw [getChunk, hskip]
          simp only [Option.bind_eq_bind, Option.bind_some, hstop, withChunk, htake, hgap, htoken]
        · rw [List.length_append, AutoBuffer.content_length, hgap]
        · rw [hgap, htoken]

namespace HttpHeader

def frame (h : HttpHeader) : Frame where
  method := h.queryMethod.isSome
  uri := h.queryUri.isSome
  version := h.queryVersion.isSome
  abParams := h.abParams
  abBody := h.abBody
  headerProcess := h.headerProcess
  bodyProcess := h.bodyProcess
  contentLength := h.contentLength

/-- Two parsers that have come to the same body. Whether it was merged into the
parameters depends on what the lookup of the `Content-Type` reads in the header buffer. -/
structure EndsAlike (h k : HttpHeader) : Prop where
  headerProcess : h.headerProcess = k.headerProcess
  bodyProcess : h.bodyProcess = k.bodyProcess
  abBody : h.abBody = k.abBody

theorem EndsAlike.symm (h : EndsAlike h₁ h₂) : EndsAlike h₂ h₁ :=
  ⟨h.headerProcess.symm, h.bodyProcess.symm, h.abBody.symm⟩

theorem EndsAlike.trans (h : EndsAlike h₁ h₂) (h' : EndsAlike h₂ h₃) : EndsAlike h₁ h₃ :=
  ⟨h.headerProcess.trans h'.headerProcess, h.bodyProcess.trans h'.bodyProcess,
    h.abBody.trans h'.abBody⟩

/-- Two flows that go on in the same way but for `chunk_size`. -/
inductive FlowTwin : Flow → Flow → Prop
  | ret {h k : HttpHeader} {n : Nat} (hf : h.frame = k.frame) : FlowTwin (.ret h n) (.ret k n)
  | next {h k : HttpHeader} {i : Cursor} {n u w : Nat} (hf : h.frame = k.frame) :
      FlowTwin (.next h ⟨i, n, u⟩) (.next k ⟨i, n, w⟩)

/-- On parsers of one frame the part does the same, whatever `chunk_size` is. -/
def PartTwin (part : HttpHeader → Locals → Option Flow) : Prop :=
  ∀ {h k : HttpHeader} {i : Cursor} {n w : Nat} {g : Flow} (u : Nat), h.frame = k.frame →
    part k ⟨i, n, w⟩ = some g → ∃ f, part h ⟨i, n, u⟩ = some f ∧ FlowTwin f g

theorem method_twin : PartTwin methodPart := by
  intro h k i n w g u hf hg
  have hm : h.queryMethod.isSome = k.queryMethod.isSome := congrArg Frame.method hf
  unfold methodPart at hg ⊢
  rw [hm]
  by_cases hv : k.queryMethod.isSome
  · rw [if_pos hv] at hg ⊢
    cases hg
    exact ⟨_, rfl, .next hf⟩
  · rw [if_neg hv] at hg ⊢
    cases chunk_cases i space [space] with
    | outside he =>
      rw [he] at hg
      cases hg
    | waits he =>
      rw [he] at hg ⊢
      cases hg
      exact ⟨_, rfl, .ret hf⟩
    | found gap token cursor he =>
      obtain ⟨c, hc, rfl, hfound⟩ := he h.abHeader
      obtain ⟨d, hd, hcursor, hfound'⟩ := he k.abHeader
      have hsize : d.chunkSize = c.chunkSize := hfound'.size.trans hfound.size.symm
      rw [hd] at hg
      rw [hc]
      cases hg
      refine ⟨_, rfl, ?_⟩
      rw [hcursor, hsize]
      exact .next (congrArg (fun f : Frame => { f with method := true }) hf)

theorem uri_twin : PartTwin uriPart := by
  intro h k i n w g u hf hg
  have hm : h.queryUri.isSome = k.queryUri.isSome := congrArg Frame.uri hf
  unfold uriPart at hg ⊢
  rw [hm]
  by_cases hv : k.queryUri.isSome
  · rw [if_pos hv] at hg ⊢
    cases hg
    exact ⟨_, rfl, .next hf⟩
  · rw [if_neg hv] at hg ⊢
    cases chunk_cases i space [question, space] with
    | outside he =>
      rw [he] at hg
      cases hg
    | waits he =>
      rw [he] at hg ⊢
      cases hg
      exact ⟨_, rfl, .ret hf⟩
    | found gap token cursor he =>
      obtain ⟨c, hc, rfl, hfound⟩ := he h.abHeader
      obtain ⟨d, hd, hcursor, hfound'⟩ := he k.abHeader
      have hsize : d.chunkSize = c.chunkSize := hfound'.size.trans hfound.size.symm
      have huri := congrArg (fun f : Frame => { f with uri := true }) hf
      rw [hd] at hg
      rw [hc]
      simp only [Option.bind_eq_bind, Option.bind_some, hsize, hcursor] at hg ⊢
      obtain ⟨last, hlast, hg⟩ := Option.bind_eq_some_iff.mp hg
      rw [hlast, Option.bind_some]
      split at hg
      · rename_i hq
        cases hg
        exact ⟨_, if_pos hq, .next huri⟩
      · rename_i hq
        cases hg
        exact ⟨_, if_neg hq, .next huri⟩

theorem params_twin : PartTwin paramsPart := by
  intro h k i n w g u hf hg
  have hp : h.abParams = k.abParams := congrArg Frame.abParams hf
  unfold paramsPart at hg ⊢
  rw [hp]
  split at hg
  · rename_i hfill
    obtain ⟨first, hfirst, hg⟩ := Option.bind_eq_some_iff.mp hg
    rw [if_pos hfill, hfirst]
    simp only [Option.bind_eq_bind, Option.bind_some]
    split at hg
    · rename_i hq
      obtain ⟨c, hc, hg⟩ := Option.bind_eq_some_iff.mp hg
      rw [if_pos hq, hc, Option.bind_some]
      cases c with
      | none =>
        cases hg
        exact ⟨_, rfl, .ret hf⟩
      | some c =>
        cases hg
        exact ⟨_, rfl, .next (congrArg (fun f : Frame => { f with abParams := c.target }) hf)⟩
    · rename_i hq
      cases hg
      exact ⟨_, if_neg hq, .next hf⟩
  · rename_i hfill
    cases hg
    exact ⟨_, if_neg hfill, .next hf⟩

theorem version_twin : PartTwin versionPart := by
  intro h k i n w g u hf hg
  have hm : h.queryVersion.isSome = k.queryVersion.isSome := congrArg Frame.version hf
  unfold versionPart at hg ⊢
  rw [hm]
  by_cases hv : k.queryVersion.isSome
  · rw [if_pos hv] at hg ⊢
    cases hg
    exact ⟨_, rfl, .next hf⟩
  · rw [if_neg hv] at hg ⊢
    cases chunk_cases i space [cr, lf] with
    | outside he =>
      rw [he] at hg
      cases hg
    | waits he =>
      rw [he] at hg ⊢
      cases hg
      exact ⟨_, rfl, .ret hf⟩
    | found gap token cursor he =>
      obtain ⟨c, hc, rfl, hfound⟩ := he h.abHeader
      obtain ⟨d, hd, hcursor, hfound'⟩ := he k.abHeader
      have hsize : d.chunkSize = c.chunkSize := hfound'.size.trans hfound.size.symm
      rw [hd] at hg
      rw [hc]
      simp only [Option.bind_eq_bind, Option.bind_some, hsize, hcursor] at hg ⊢
      obtain ⟨⟨j, m⟩, hskip, hg⟩ := Option.bind_eq_some_iff.mp hg
      rw [hskip]
      cases hg
      exact ⟨_, rfl, .next (congrArg (fun f : Frame =>
        { f with version := true, headerProcess := .processingNext }) hf)⟩

/-- Both texts of a header line can be read where they have been stored. -/
theorem stored_texts (hk : Found key b gap₁ name rest₁ stale₁)
    (hv : Found value key.target gap₂ text rest₂ stale₂) :
    cStr (value.target.buffer.drop key.reference) = cStr name ∧
      cStr (value.target.buffer.drop value.reference) = cStr text := by
  obtain ⟨more, hmore⟩ := hv.extends
  have hname := hk.str_there.extend more
  rw [hmore] at hname
  exact ⟨str_read _ hname, str_read _ hv.str_there⟩

/-- Of the frame a header line changes the length only. -/
theorem add_header_frame (he : addHeader h key value size = some h')
    (hname : h.headerText key = name) (htext : h.headerText value = text) :
    h'.frame = h.frame.addField name text := by
  have hkey : cStr (h.abHeader.buffer.drop key) = name := hname
  have hvalue : cStr (h.abHeader.buffer.drop value) = text := htext
  unfold addHeader at he
  simp only [headerText, hkey, hvalue] at he
  split at he
  · rename_i hl
    cases he
    exact congrArg (fun n => { h.frame with contentLength := n }) (if_pos hl).symm
  · rename_i hl
    have hsame : h.frame = h.frame.addField name text :=
      congrArg (fun n => { h.frame with contentLength := n }) (if_neg hl).symm
    rw [← hsame]
    split at he
    · obtain ⟨r, -, he⟩ := Option.bind_eq_some_iff.mp he
      cases he
      rfl
    · cases he
      rfl

/-- A header line is the same line for both, and both store what it says of the length. -/
theorem header_line_twin (u : Nat) (hf : h.frame = k.frame)
    (he : headerLine k ⟨i, n, w⟩ = some (k', ⟨j, m, w'⟩, whole)) :
    ∃ h' u', headerLine h ⟨i, n, u⟩ = some (h', ⟨j, m, u'⟩, whole) ∧ h'.frame = k'.frame := by
  unfold headerLine at he ⊢
  cases chunk_cases i space [colon] with
  | outside hc =>
    rw [hc] at he
    cases he
  | waits hc =>
    rw [hc] at he ⊢
    cases he
    exact ⟨_, _, rfl, hf⟩
  | found gap₁ name cursor hc =>
    obtain ⟨key, hkey, rfl, hname⟩ := hc h.abHeader
    obtain ⟨key', hkey', hcursor, hname'⟩ := hc k.abHeader
    have hsize : key'.chunkSize = key.chunkSize := hname'.size.trans hname.size.symm
    rw [hkey'] at he
    rw [hkey]
    simp only [Option.bind_eq_bind, Option.bind_some, hcursor] at he ⊢
    cases chunk_cases key.cursor space [cr, lf] with
    | outside hc =>
      rw [hc] at he
      cases he
    | waits hc =>
      rw [hc] at he ⊢
      cases he
      exact ⟨_, _, rfl, hf⟩
    | found gap₂ text cursor hc =>
      obtain ⟨value, hvalue, rfl, htext⟩ := hc key.target
      obtain ⟨value', hvalue', hcursor', htext'⟩ := hc key'.target
      have hsize' : value'.chunkSize = value.chunkSize := htext'.size.trans htext.size.symm
      rw [hvalue'] at he
      rw [hvalue]
      simp only [Option.bind_some, hcursor', hsize, hsize'] at he ⊢
      obtain ⟨⟨j', m'⟩, hskip, he⟩ := Option.bind_eq_some_iff.mp he
      obtain ⟨k₁, hadd', he⟩ := Option.bind_eq_some_iff.mp he
      obtain ⟨h₁, hadd⟩ := add_header_total htext h key.reference
      obtain ⟨hread, hread'⟩ := stored_texts hname htext
      obtain ⟨hread₂, hread₂'⟩ := stored_texts hname' htext'
      have hframe := add_header_frame hadd hread hread'
      have hframe' := add_header_frame hadd' hread₂ hread₂'
      rw [hskip]
      simp only [Option.bind_some, hadd]
      cases he
      refine ⟨h₁, _, rfl, ?_⟩
      rw [hframe, hframe']
      exact congrArg (Frame.addField · (cStr name) (cStr text)) hf

theorem header_loop_twin (u : Nat) (hf : h.frame = k.frame)
    (he : headerLoop fuel k ⟨i, n, w⟩ = some (k', ⟨j, m, w'⟩)) :
    ∃ h' u', headerLoop fuel h ⟨i, n, u⟩ = some (h', ⟨j, m, u'⟩) ∧ h'.frame = k'.frame := by
  induction fuel generalizing h k i n u w with
  | zero => cases he
  | succ fuel ih =>
    unfold headerLoop at he ⊢
    split at he
    · rename_i hlong
      rw [if_pos hlong]
      obtain ⟨blank, hblank, he⟩ := Option.bind_eq_some_iff.mp he
      dsimp only at hblank ⊢
      rw [hblank]
      simp only [Option.bind_eq_bind, Option.bind_some]
      split at he
      · rename_i hb
        cases he
        exact ⟨_, _, if_pos hb, congrArg (fun f : Frame =>
          { f with headerProcess := .successful, bodyProcess := .processingFirst }) hf⟩
      · rename_i hb
        obtain ⟨⟨k₁, ⟨j₁, m₁, w₁⟩, whole⟩, hline, he⟩ := Option.bind_eq_some_iff.mp he
        obtain ⟨h₁, u₁, hline', hf₁⟩ := header_line_twin u hf hline
        rw [if_neg hb, hline', Option.bind_some]
        dsimp only at he ⊢
        split at he
        · rename_i hwhole
          rw [if_pos hwhole]
          exact ih u₁ hf₁ he
        · rename_i hwhole
          cases he
          exact ⟨_, _, if_neg hwhole, hf₁⟩
    · rename_i hshort
      cases he
      exact ⟨_, _, if_neg hshort, hf⟩

/-- Merging touches the parameters and the length only. -/
theorem merged_ends (h : HttpHeader) : EndsAlike (if h.isForm then h.mergeForm else h) h := by
  split
  · unfold mergeForm
    dsimp only
    split <;> exact ⟨rfl, rfl, rfl⟩
  · exact ⟨rfl, rfl, rfl⟩

theorem merged_alike {h k : HttpHeader} (hm : EndsAlike h k) :
    EndsAlike (if h.isForm then h.mergeForm else h) (if k.isForm then k.mergeForm else k) :=
  (merged_ends h).trans (hm.trans (merged_ends k).symm)

/-- The two parsers divide their data in the same way, or are both done with the body. -/
def Twin (h k : HttpHeader) : Prop :=
  h.frame = k.frame ∨ k.bodyProcess = .successful ∧ EndsAlike h k

theorem Twin.ends (h : Twin h₁ h₂) : EndsAlike h₁ h₂ := by
  rcases h with h | ⟨-, h⟩
  · exact ⟨congrArg Frame.headerProcess h, congrArg Frame.bodyProcess h, congrArg Frame.abBody h⟩
  · exact h

theorem Twin.ready (h : Twin h₁ h₂) : h₁.isReady = h₂.isReady := by
  rw [isReady, isReady, h.ends.headerProcess, h.ends.bodyProcess]

theorem Twin.frame (h : Twin h₁ h₂) (hb : h₂.bodyProcess ≠ .successful) : h₁.frame = h₂.frame :=
  h.resolve_right fun h0 => hb h0.1

theorem take_body_twin (u : Nat) (hf : h.frame = k.frame)
    (he : takeBody k ⟨i, n, w⟩ = some (k', m)) :
    ∃ h', takeBody h ⟨i, n, u⟩ = some (h', m) ∧ Twin h' k' := by
  have hlength : h.contentLength = k.contentLength := congrArg Frame.contentLength hf
  have hbody : h.abBody = k.abBody := congrArg Frame.abBody hf
  have hphase : h.headerProcess = k.headerProcess := congrArg Frame.headerProcess hf
  unfold takeBody at he ⊢
  dsimp only at he ⊢
  rw [hlength, hbody]
  split at he
  · rename_i hnone
    cases he
    exact ⟨_, if_pos hnone, .inl (congrArg (fun f : Frame =>
      { f with abBody := k.abBody, bodyProcess := .successful, contentLength := 0 }) hf)⟩
  · rename_i hnone
    rw [if_neg hnone]
    split at he
    · rename_i hsome
      rw [if_pos hsome]
      split at he
      · cases he
      · rename_i hthere
        rw [if_neg hthere]
        cases he
        refine ⟨_, rfl, ?_⟩
        split
        · -- the body is complete
          exact .inr ⟨(merged_ends _).bodyProcess, merged_alike ⟨hphase, rfl, rfl⟩⟩
        · exact .inl (congrArg (fun f : Frame =>
            { f with
              abBody := k.abBody.append (i.buffer.take (min i.bufferSize k.contentLength))
              contentLength := k.contentLength }) hf)
    · rename_i hsome
      cases he
      exact ⟨_, if_neg hsome, .inl hf⟩

theorem body_twin (u : Nat) (hf : h.frame = k.frame)
    (he : bodyPart k ⟨i, n, w⟩ = some (k', m)) :
    ∃ h', bodyPart h ⟨i, n, u⟩ = some (h', m) ∧ Twin h' k' := by
  have hphase : h.bodyProcess = k.bodyProcess := congrArg Frame.bodyProcess hf
  unfold bodyPart at he ⊢
  rw [hphase]
  split at he
  · rename_i hb
    rw [if_pos hb]
    obtain ⟨⟨k₁, m₁⟩, htake, he⟩ := Option.bind_eq_some_iff.mp he
    obtain ⟨h₁, htake', ht⟩ := take_body_twin u hf htake
    rw [htake']
    simp only [Option.bind_eq_bind, Option.bind_some, ht.ends.bodyProcess] at he ⊢
    split at he
    · rename_i hdone
      obtain ⟨r, -, he⟩ := Option.bind_eq_some_iff.mp he
      obtain ⟨r', hr'⟩ := parse_untrimmed ampersand h₁.abParams.fillSize h₁.abParams 0 0 none
        h₁.paramsValue (by rw [Nat.zero_add]; exact h₁.abParams.ready_le)
      cases he
      rw [if_pos hdone, parseString, hr']
      exact ⟨_, rfl, .inr ⟨hdone, ht.ends.headerProcess, rfl, ht.ends.abBody⟩⟩
    · rename_i hdone
      cases he
      exact ⟨_, if_neg hdone, ht⟩
  · rename_i hb
    cases he
    exact ⟨_, if_neg hb, .inl hf⟩

/-- Two steps of one frame count the same and leave twins. -/
def StepTwin (step : HttpHeader → Locals → Option (HttpHeader × Nat)) : Prop :=
  ∀ {h k k' : HttpHeader} {i : Cursor} {n w m : Nat} (u : Nat), h.frame = k.frame →
    step k ⟨i, n, w⟩ = some (k', m) → ∃ h', step h ⟨i, n, u⟩ = some (h', m) ∧ Twin h' k'

theorem next_twin : StepTwin nextPart := by
  intro h k k' i n w m u hf he
  obtain ⟨⟨k₁, ⟨j, n₁, w₁⟩⟩, hloop, he⟩ := Option.bind_eq_some_iff.mp he
  obtain ⟨h₁, u₁, hloop', hf₁⟩ := header_loop_twin u hf hloop
  obtain ⟨h', he', ht⟩ := body_twin u₁ hf₁ he
  refine ⟨h', ?_, ht⟩
  dsimp only at hloop'
  rw [nextPart, hloop']
  exact he'

theorem PartTwin.then {part : HttpHeader → Locals → Option Flow}
    {next : HttpHeader → Locals → Option (HttpHeader × Nat)} (hp : PartTwin part)
    (hn : StepTwin next) : StepTwin fun h l => Flow.andThen (part h l) next := by
  intro h k k' i n w m u hf he
  obtain ⟨g, hg, hcase⟩ := and_then_some he
  obtain ⟨f, hpart, ht⟩ := hp u hf hg
  dsimp only
  rw [hpart]
  obtain ⟨_, rfl⟩ | ⟨k₁, l, rfl, he⟩ := hcase
  · cases ht with
    | ret hf =>
      dsimp only at he
      rw [hg] at he
      cases he
      exact ⟨_, rfl, .inl hf⟩
  · cases ht with
    | next hf => exact hn _ hf he

/-- A call divides its data in the same way for every parser of the same frame: neither the
fill of the header buffer nor an unassigned `chunk_size` matters for it. -/
theorem process_twin {h k k' : HttpHeader} (hf : h.frame = k.frame) (u : Nat)
    (he : k.processData buffer size w = some (k', n)) :
    ∃ h', h.processData buffer size u = some (h', n) ∧ Twin h' k' := by
  have hphase : h.headerProcess = k.headerProcess := congrArg Frame.headerProcess hf
  unfold processData at he ⊢
  rw [hphase]
  cases hp : k.headerProcess with
  | processingFirst =>
    rw [hp] at he
    exact method_twin.then (uri_twin.then (params_twin.then (version_twin.then next_twin))) u hf he
  | processingNext =>
    rw [hp] at he
    exact next_twin u hf he
  | none | successful | error =>
    rw [hp] at he
    exact body_twin u hf he

end HttpHeader

end Khorost
