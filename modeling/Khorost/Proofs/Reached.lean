import Khorost.Proofs.Forward

namespace Khorost

/-- The parser that a part of `process_data` leaves behind. -/
def Flow.header : Flow → HttpHeader
  | .ret h _ => h
  | .next h _ => h

namespace HttpHeader

/-- The states a parser can be in: new, cleared, or left behind by a call. -/
inductive Reached : HttpHeader → Prop
  | new (fresh : Nat → UInt8) : Reached (.new fresh)
  | clear (hr : Reached h) : Reached h.clear
  | processed (hr : Reached h) (he : h.processData buffer size chunkSize = some (h', n)) : Reached h'

/-- The states that calls lead to which do not move the fill of the header buffer back. -/
inductive ReachedForward : HttpHeader → Prop
  | new (fresh : Nat → UInt8) : ReachedForward (.new fresh)
  | clear (hr : ReachedForward h) : ReachedForward h.clear
  | processed (hr : ReachedForward h) (hu : h.StaysForward (buffer.take size) chunkSize)
    (he : h.processData buffer size chunkSize = some (h', n)) : ReachedForward h'

theorem ReachedForward.reached (hr : ReachedForward h) : Reached h := by
  induction hr with
  | new fresh => exact .new fresh
  | clear _ ih => exact .clear ih
  | processed _ _ he ih => exact .processed ih he

/-- A method that has been read stands in the header buffer. -/
def Begun (h : HttpHeader) : Prop := h.queryMethod.isSome → 0 < h.abHeader.fillSize

/-- The version ends the first phase and stands in the header buffer from then on, and the
body waits for the end of the header. -/
structure Staged (h : HttpHeader) : Prop where
  begun : h.headerProcess = .processingFirst → Begun h
  version : h.headerProcess = .processingFirst → h.queryVersion = none
  room : h.headerProcess ≠ .processingFirst → 0 < h.abHeader.fullSize
  body : h.headerProcess = .processingFirst ∨ h.headerProcess = .processingNext →
    h.bodyProcess = .none

/-- What the stages speak of has not changed. -/
structure Keeps (h h' : HttpHeader) : Prop where
  begun : h.headerProcess = .processingFirst → Begun h → Begun h'
  version : h'.queryVersion = h.queryVersion
  headerProcess : h'.headerProcess = h.headerProcess
  bodyProcess : h'.bodyProcess = h.bodyProcess
  room : 0 < h.abHeader.fullSize → 0 < h'.abHeader.fullSize

theorem Keeps.refl (h : HttpHeader) : Keeps h h := ⟨fun _ => id, rfl, rfl, rfl, id⟩

theorem Keeps.trans (h₁ : Keeps h h') (h₂ : Keeps h' h'') : Keeps h h'' :=
  ⟨fun hp hb => h₂.begun (h₁.headerProcess.trans hp) (h₁.begun hp hb), h₂.version.trans h₁.version,
    h₂.headerProcess.trans h₁.headerProcess, h₂.bodyProcess.trans h₁.bodyProcess, h₂.room ∘ h₁.room⟩

theorem Keeps.staged (hk : Keeps h h') (hs : Staged h) : Staged h' := by
  refine ⟨fun hp => ?_, fun hp => ?_, fun hp => hk.room (hs.room ?_), fun hp => ?_⟩
  · rw [hk.headerProcess] at hp
    exact hk.begun hp (hs.begun hp)
  · rw [hk.version]
    exact hs.version (by rwa [hk.headerProcess] at hp)
  · rwa [hk.headerProcess] at hp
  · rw [hk.bodyProcess]
    exact hs.body (by rwa [hk.headerProcess] at hp)

/-- A part behind which there is something in the buffer. -/
theorem Keeps.of_fill (hfill : 0 < h'.abHeader.fillSize) (hv : h'.queryVersion = h.queryVersion)
    (hp : h'.headerProcess = h.headerProcess) (hb : h'.bodyProcess = h.bodyProcess) : Keeps h h' :=
  ⟨fun _ _ _ => hfill, hv, hp, hb, fun _ => Nat.lt_of_lt_of_le hfill h'.abHeader.ready_le⟩

theorem Keeps.of_chunk (hc : getChunk i lead div target = some (some c))
    (ht : h'.abHeader = c.target) (hv : h'.queryVersion = h.queryVersion)
    (hp : h'.headerProcess = h.headerProcess) (hb : h'.bodyProcess = h.bodyProcess) :
    Keeps h h' := by
  obtain ⟨hfill, hpos⟩ := get_chunk_fill hc
  refine .of_fill ?_ hv hp hb
  rw [ht, hfill]
  exact Nat.add_pos_right _ hpos

theorem method_keeps (he : methodPart h l = some f) : Keeps h f.header := by
  unfold methodPart at he
  split at he
  · cases he
    exact .refl h
  · obtain ⟨c, hc, he⟩ := Option.bind_eq_some_iff.mp he
    split at he <;> cases he
    · exact .refl h
    · exact .of_chunk hc rfl rfl rfl rfl

theorem uri_keeps (he : uriPart h l = some f) : Keeps h f.header := by
  unfold uriPart at he
  split at he
  · cases he
    exact .refl h
  · obtain ⟨c, hc, he⟩ := Option.bind_eq_some_iff.mp he
    split at he
    · cases he
      exact .refl h
    · obtain ⟨last, -, he⟩ := Option.bind_eq_some_iff.mp he
      split at he <;> cases he <;> exact .of_chunk hc rfl rfl rfl rfl

theorem params_keeps (he : paramsPart h l = some f) : Keeps h f.header := by
  unfold paramsPart at he
  split at he
  · obtain ⟨first, -, he⟩ := Option.bind_eq_some_iff.mp he
    split at he
    · obtain ⟨c, -, he⟩ := Option.bind_eq_some_iff.mp he
      split at he <;> cases he
      · exact .refl h
      · exact ⟨fun _ => id, rfl, rfl, rfl, id⟩
    · cases he
      exact .refl h
  · cases he
    exact .refl h

theorem version_staged (he : versionPart h l = some f) (hs : Staged h)
    (hp : h.headerProcess = .processingFirst) :
    Staged f.header ∧ ∀ h' l', f = .next h' l' → h'.headerProcess ≠ .processingFirst := by
  have hnone : ¬ h.queryVersion.isSome := by rw [hs.version hp]; simp
  rw [versionPart, if_neg hnone] at he
  obtain ⟨c, hc, he⟩ := Option.bind_eq_some_iff.mp he
  split at he
  · cases he
    exact ⟨hs, fun _ _ h => Flow.noConfusion h⟩
  · obtain ⟨s, -, he⟩ := Option.bind_eq_some_iff.mp he
    cases he
    refine ⟨⟨fun h => Phase.noConfusion h, fun h => Phase.noConfusion h,
      fun _ => get_chunk_room hc, fun _ => hs.body (.inl hp)⟩, fun h' l' h => ?_⟩
    cases h
    exact Phase.noConfusion

theorem add_header_keeps (he : addHeader h k v size = some h') : Keeps h h' := by
  unfold addHeader at he
  dsimp only at he
  split at he
  · cases he
    exact ⟨fun _ => id, rfl, rfl, rfl, id⟩
  · split at he
    · obtain ⟨r, hparse, he⟩ := Option.bind_eq_some_iff.mp he
      cases he
      have hsame := parse_loop_same hparse
      refine ⟨fun _ hb hm => ?_, rfl, rfl, rfl, fun hroom => ?_⟩
      · exact Nat.lt_of_lt_of_eq (hb hm) hsame.fill.symm
      · rwa [← hsame.full] at hroom
    · cases he
      exact ⟨fun _ => id, rfl, rfl, rfl, id⟩

theorem header_line_keeps (he : headerLine h l = some (h', l', whole))
    (hp : h.headerProcess ≠ .processingFirst) : Keeps h h' := by
  unfold headerLine at he
  obtain ⟨key, hkey, he⟩ := Option.bind_eq_some_iff.mp he
  split at he
  · cases he
    exact ⟨fun h0 => absurd h0 hp, rfl, rfl, rfl, id⟩
  · obtain ⟨value, hvalue, he⟩ := Option.bind_eq_some_iff.mp he
    split at he
    · cases he
      exact ⟨fun h0 => absurd h0 hp, rfl, rfl, rfl, fun _ => get_chunk_room hkey⟩
    · obtain ⟨s, -, he⟩ := Option.bind_eq_some_iff.mp he
      obtain ⟨h₁, hadd, he⟩ := Option.bind_eq_some_iff.mp he
      cases he
      have hk := add_header_keeps hadd
      exact ⟨fun h0 => absurd h0 hp, hk.version, hk.headerProcess, hk.bodyProcess,
        fun _ => hk.room (get_chunk_room hvalue)⟩

theorem header_loop_staged (he : headerLoop fuel h l = some (h', l')) (hs : Staged h)
    (hp : h.headerProcess ≠ .processingFirst) : Staged h' := by
  induction fuel generalizing h l with
  | zero => cases he
  | succ fuel ih =>
    have hroom := hs.room hp
    unfold headerLoop at he
    split at he
    · obtain ⟨blank, -, he⟩ := Option.bind_eq_some_iff.mp he
      split at he
      · cases he
        refine ⟨nofun, nofun, fun _ => hroom, ?_⟩
        rintro (hp | hp) <;> cases hp
      · obtain ⟨⟨h₁, l₁, whole⟩, hline, he⟩ := Option.bind_eq_some_iff.mp he
        have hk := header_line_keeps hline hp
        have hs₁ := hk.staged hs
        dsimp only at he
        split at he
        · exact ih he hs₁ (by rwa [hk.headerProcess])
        · cases he
          exact hs₁
    · cases he
      exact hs

/-- The body is not touched before the header has ended. -/
theorem body_idle_before (hn : h.bodyProcess = .none) (l : Locals) :
    bodyPart h l = some (h, l.processByte) := by
  rw [bodyPart, if_neg (by rw [hn]; simp)]

/-- What taking the body leaves as it is. -/
structure SameHead (h h' : HttpHeader) : Prop where
  headerProcess : h'.headerProcess = h.headerProcess
  abHeader : h'.abHeader = h.abHeader
  headerValues : h'.headerValues = h.headerValues
  cookies : h'.cookies = h.cookies
  paramsValue : h'.paramsValue = h.paramsValue

theorem merge_form_same (h : HttpHeader) : SameHead h h.mergeForm := by
  unfold mergeForm
  dsimp only
  split <;> exact ⟨rfl, rfl, rfl, rfl, rfl⟩

theorem take_body_same (he : takeBody h l = some (h', n)) : SameHead h h' := by
  unfold takeBody at he
  dsimp only at he
  split at he
  · cases he
    exact ⟨rfl, rfl, rfl, rfl, rfl⟩
  · split at he
    · split at he
      · cases he
      · cases he
        split
        · split
          · have hsame := fun bodyProcess abBody => merge_form_same
              { h with bodyProcess := bodyProcess, abBody := abBody }
            exact ⟨(hsame _ _).headerProcess, (hsame _ _).abHeader, (hsame _ _).headerValues,
              (hsame _ _).cookies, (hsame _ _).paramsValue⟩
          · exact ⟨rfl, rfl, rfl, rfl, rfl⟩
        · exact ⟨rfl, rfl, rfl, rfl, rfl⟩
    · cases he
      exact ⟨rfl, rfl, rfl, rfl, rfl⟩

theorem body_header (he : bodyPart h l = some (h', n)) :
    h'.headerProcess = h.headerProcess ∧ h'.abHeader = h.abHeader ∧
      h'.headerValues = h.headerValues := by
  unfold bodyPart at he
  split at he
  · obtain ⟨⟨h₁, n₁⟩, htake, he⟩ := Option.bind_eq_some_iff.mp he
    have hsame := take_body_same htake
    dsimp only at he
    split at he
    · obtain ⟨r, -, he⟩ := Option.bind_eq_some_iff.mp he
      cases he
      exact ⟨hsame.headerProcess, hsame.abHeader, hsame.headerValues⟩
    · cases he
      exact ⟨hsame.headerProcess, hsame.abHeader, hsame.headerValues⟩
  · cases he
    exact ⟨rfl, rfl, rfl⟩

theorem body_staged (he : bodyPart h l = some (h', n)) (hs : Staged h) : Staged h' := by
  by_cases hp : h.headerProcess = .processingFirst ∨ h.headerProcess = .processingNext
  · rw [body_idle_before (hs.body hp)] at he
    cases he
    exact hs
  · obtain ⟨hphase, hheader, -⟩ := body_header he
    rw [← hphase] at hp
    refine ⟨fun h0 => absurd (.inl h0) hp, fun h0 => absurd (.inl h0) hp, fun h0 => ?_,
      fun h0 => absurd h0 hp⟩
    rw [hheader]
    exact hs.room (by rwa [hphase] at h0)

theorem next_staged (he : nextPart h l = some (h', n)) (hs : Staged h)
    (hp : h.headerProcess ≠ .processingFirst) : Staged h' := by
  obtain ⟨⟨h₁, l₁⟩, hloop, he⟩ := Option.bind_eq_some_iff.mp he
  exact body_staged he (header_loop_staged hloop hs hp)

/-- A part that has gone through goes on with the next one. -/
theorem and_then_some {part : HttpHeader → Locals → Option (HttpHeader × Nat)}
    (he : Flow.andThen flow part = some (h', n)) : ∃ f, flow = some f ∧
      ((∃ k, f = .ret h' k) ∨ ∃ h l, f = .next h l ∧ part h l = some (h', n)) := by
  cases flow with
  | none => cases he
  | some f =>
    refine ⟨f, rfl, ?_⟩
    cases f with
    | ret h k =>
      cases he
      exact .inl ⟨_, rfl⟩
    | next h l => exact .inr ⟨h, l, rfl, he⟩

theorem first_staged (hs : Staged h) (hp : h.headerProcess = .processingFirst)
    (he : h.processData buffer size chunkSize = some (h', n)) : Staged h' := by
  rw [processData, hp] at he
  obtain ⟨f, hf, hcase⟩ := and_then_some he
  have hk := method_keeps hf
  obtain ⟨k, rfl⟩ | ⟨h₁, l₁, rfl, he⟩ := hcase
  · exact hk.staged hs
  obtain ⟨f, hf, hcase⟩ := and_then_some he
  replace hk := hk.trans (uri_keeps hf)
  obtain ⟨k, rfl⟩ | ⟨h₂, l₂, rfl, he⟩ := hcase
  · exact hk.staged hs
  obtain ⟨f, hf, hcase⟩ := and_then_some he
  replace hk := hk.trans (params_keeps hf)
  obtain ⟨k, rfl⟩ | ⟨h₃, l₃, rfl, he⟩ := hcase
  · exact hk.staged hs
  obtain ⟨f, hf, hcase⟩ := and_then_some he
  obtain ⟨hv, hnext⟩ := version_staged hf (hk.staged hs) (hk.headerProcess.trans hp)
  obtain ⟨k, rfl⟩ | ⟨h₄, l₄, rfl, he⟩ := hcase
  · exact hv
  · exact next_staged he hv (hnext h₄ l₄ rfl)

theorem process_staged (hs : Staged h)
    (he : h.processData buffer size chunkSize = some (h', n)) : Staged h' := by
  cases hp : h.headerProcess with
  | processingFirst => exact first_staged hs hp he
  | processingNext =>
    have hphase : h.headerProcess ≠ .processingFirst := by rw [hp]; nofun
    rw [processData, hp] at he
    exact next_staged he hs hphase
  | none | successful | error =>
    rw [processData, hp] at he
    exact body_staged he hs

theorem Reached.staged (hr : Reached h) : Staged h := by
  induction hr with
  | new fresh => exact ⟨nofun, fun _ => rfl, fun h0 => absurd rfl h0, fun _ => rfl⟩
  | clear _ _ => exact ⟨nofun, fun _ => rfl, fun h0 => absurd rfl h0, fun _ => rfl⟩
  | processed _ he ih => exact process_staged ih he

/-- A new parser after a text that has come in one piece. -/
def parsed (text : List UInt8) : HttpHeader :=
  (((HttpHeader.new fun _ => 0).processData text text.length 0).map Prod.fst).getD
    (HttpHeader.new fun _ => 0)

theorem parsed_forward (text : List UInt8) : ReachedForward (parsed text) := by
  unfold parsed
  cases he : (HttpHeader.new fun _ => 0).processData text text.length 0 with
  | none => exact .new _
  | some r => exact .processed (.new _) (stays_outside_lines nofun) he

end HttpHeader

end Khorost
