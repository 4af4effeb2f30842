import Khorost.App.HttpConnection
import Khorost.Proofs.Reached
import Khorost.Proofs.Reading

namespace Khorost

namespace HttpHeader

variable {h h' : HttpHeader} {l l' : Locals} {i : Cursor}

/-- The request is ready, or it waits for the end of a body of no bytes. -/
structure Sealed (h : HttpHeader) : Prop where
  header : h.headerProcess = .successful
  body : h.bodyProcess = .successful ∨ h.bodyProcess = .processingFirst ∧ h.contentLength = 0

theorem sealed_take (hs : Sealed h) (hl : h.contentLength = 0)
    (he : takeBody h l = some (h', n)) : n = l.processByte ∧ Sealed h' := by
  unfold takeBody at he
  dsimp only at he
  split at he
  · cases he
    exact ⟨rfl, hs.header, .inl rfl⟩
  · rw [hl, Nat.min_zero, if_neg (by simp)] at he
    cases he
    exact ⟨rfl, hs⟩

/-- The parameters are filled in, if the body is complete. -/
theorem Sealed.body_part (hs : Sealed h) (hl : h.bodyProcess = .processingFirst → h.contentLength = 0)
    (he : bodyPart h l = some (h', n)) : n = l.processByte ∧ Sealed h' := by
  unfold bodyPart at he
  split at he
  · rename_i hbody
    have hfirst : h.bodyProcess = .processingFirst := by
      rcases hs.body with hdone | ⟨hfirst, -⟩
      · rw [hdone] at hbody
        simp at hbody
      · exact hfirst
    obtain ⟨⟨h₁, n₁⟩, htake, he⟩ := Option.bind_eq_some_iff.mp he
    obtain ⟨rfl, hs₁⟩ := sealed_take hs (hl hfirst) htake
    dsimp only at he
    split at he
    · obtain ⟨r, -, he⟩ := Option.bind_eq_some_iff.mp he
      cases he
      exact ⟨rfl, hs₁.header, hs₁.body⟩
    · cases he
      exact ⟨rfl, hs₁⟩
  · cases he
    exact ⟨rfl, hs⟩

theorem sealed_call (hs : Sealed h) (he : h.processData buffer size chunkSize = some (h', n)) :
    n = 0 ∧ Sealed h' := by
  rw [processData, hs.header] at he
  refine hs.body_part (fun hfirst => ?_) he
  rcases hs.body with hdone | ⟨-, hl⟩
  · rw [hdone] at hfirst
    cases hfirst
  · exact hl

def Beyond (i : Cursor) : Prop := i.buffer.length + 2 ≤ i.bufferSize

theorem chunk_beyond {lead : UInt8} (hb : Beyond i) (h : getChunk i lead div target = some r) :
    ∃ c, r = some c ∧ Beyond c.cursor := by
  obtain ⟨s, hs, h⟩ := Option.bind_eq_some_iff.mp h
  obtain ⟨found, hfound, h⟩ := Option.bind_eq_some_iff.mp h
  obtain ⟨-, hlead⟩ := skip_lead_bounds hs
  unfold Beyond at hb
  cases found with
  | none =>
    obtain ⟨hle, -⟩ := find_stop_none hfound
    rw [List.length_drop] at hle
    omega
  | some m =>
    have hlt := find_stop_there hfound
    rw [List.length_drop] at hlt
    cases h
    refine ⟨_, rfl, ?_⟩
    simp only [Beyond, Cursor.advance, List.length_drop]
    omega

theorem skip_beyond (hb : Beyond i) (h : skipLineEnd i k = some (i', k')) : Beyond i' := by
  unfold skipLineEnd at h
  split at h
  · obtain ⟨c, hc, h⟩ := Option.bind_eq_some_iff.mp h
    have hpos : 0 < i.buffer.length := by
      obtain ⟨hlt, -⟩ := List.getElem?_eq_some_iff.mp hc
      exact hlt
    split at h
    · cases h
      unfold Beyond at hb ⊢
      simp only [Cursor.advance, List.length_drop]
      omega
    · cases h
      exact hb
  · cases h
    exact hb

theorem header_line_beyond (hb : Beyond l.cursor) (he : headerLine h l = some (h', l', whole)) :
    whole = true ∧ Beyond l'.cursor := by
  unfold headerLine at he
  obtain ⟨key, hkey, he⟩ := Option.bind_eq_some_iff.mp he
  obtain ⟨key, rfl, hb₁⟩ := chunk_beyond hb hkey
  obtain ⟨value, hvalue, he⟩ := Option.bind_eq_some_iff.mp he
  obtain ⟨value, rfl, hb₂⟩ := chunk_beyond hb₁ hvalue
  obtain ⟨⟨i, size⟩, hskip, he⟩ := Option.bind_eq_some_iff.mp he
  obtain ⟨h₁, -, he⟩ := Option.bind_eq_some_iff.mp he
  cases he
  exact ⟨rfl, skip_beyond hb₂ hskip⟩

theorem blank_beyond (hb : Beyond i) (h : blankLine i.buffer = some true) :
    Beyond (i.advance 2) := by
  obtain ⟨first, -, h⟩ := Option.bind_eq_some_iff.mp h
  split at h
  · obtain ⟨second, hsecond, -⟩ := Option.map_eq_some_iff.mp h
    obtain ⟨hlt, -⟩ := List.getElem?_eq_some_iff.mp hsecond
    unfold Beyond at hb ⊢
    simp only [Cursor.advance, List.length_drop]
    omega
  · cases h

/-- The loop over the header lines goes on until it finds a blank line. -/
theorem header_loop_beyond (hb : Beyond l.cursor) (he : headerLoop fuel h l = some (h', l')) :
    Beyond l'.cursor ∧ h'.headerProcess = .successful ∧ h'.bodyProcess = .processingFirst := by
  induction fuel generalizing h l with
  | zero => cases he
  | succ fuel ih =>
    have hsize : 2 ≤ l.cursor.bufferSize := Nat.le_trans (Nat.le_add_left 2 _) hb
    rw [headerLoop, if_pos hsize] at he
    obtain ⟨blank, hblank, he⟩ := Option.bind_eq_some_iff.mp he
    split at he
    · rename_i hyes
      subst hyes
      cases he
      exact ⟨blank_beyond hb hblank, rfl, rfl⟩
    · obtain ⟨⟨h₁, l₁, whole⟩, hline, he⟩ := Option.bind_eq_some_iff.mp he
      obtain ⟨rfl, hb₁⟩ := header_line_beyond hb hline
      exact ih hb₁ he

theorem merge_form_phases (h : HttpHeader) : h.mergeForm.headerProcess = h.headerProcess ∧
    h.mergeForm.bodyProcess = h.bodyProcess := by
  unfold mergeForm
  dsimp only
  split <;> exact ⟨rfl, rfl⟩

/-- A body is then taken to its length, if the memory has that many bytes. -/
theorem take_beyond (hb : Beyond l.cursor) (hh : h.headerProcess = .successful)
    (hbody : h.bodyProcess = .processingFirst) (he : takeBody h l = some (h', n)) : Sealed h' := by
  unfold takeBody at he
  dsimp only at he
  split at he
  · cases he
    exact ⟨hh, .inl rfl⟩
  · split at he
    · split at he
      · cases he
      · rename_i hfits
        unfold Beyond at hb
        have hmin : min l.cursor.bufferSize h.contentLength = h.contentLength := by omega
        have hlong : h.contentLength ≤ (h.abBody.append
            (l.cursor.buffer.take (min l.cursor.bufferSize h.contentLength))).fillSize := by
          rw [← AutoBuffer.content_length, AutoBuffer.content_append, List.length_append,
            List.length_take]
          omega
        rw [if_pos hlong] at he
        cases he
        split
        · have hphases := merge_form_phases { h with
            abBody := h.abBody.append
              (l.cursor.buffer.take (min l.cursor.bufferSize h.contentLength))
            bodyProcess := .successful }
          exact ⟨hphases.1.trans hh, .inl hphases.2⟩
        · exact ⟨hh, .inl rfl⟩
    · rename_i hzero
      have hl : h.contentLength = 0 := by
        unfold Beyond at hb
        omega
      cases he
      exact ⟨hh, .inr ⟨hbody, hl⟩⟩

theorem body_beyond (hb : Beyond l.cursor) (hh : h.headerProcess = .successful)
    (hbody : h.bodyProcess = .processingFirst) (he : bodyPart h l = some (h', n)) : Sealed h' := by
  rw [bodyPart, if_pos (.inl hbody)] at he
  obtain ⟨⟨h₁, n₁⟩, htake, he⟩ := Option.bind_eq_some_iff.mp he
  have hs := take_beyond hb hh hbody htake
  dsimp only at he
  split at he
  · obtain ⟨r, -, he⟩ := Option.bind_eq_some_iff.mp he
    cases he
    exact ⟨hs.header, hs.body⟩
  · cases he
    exact hs

theorem next_beyond (hb : Beyond l.cursor) (he : nextPart h l = some (h', n)) : Sealed h' := by
  obtain ⟨⟨h₁, l₁⟩, hloop, he⟩ := Option.bind_eq_some_iff.mp he
  obtain ⟨hb₁, hheader, hbody⟩ := header_loop_beyond hb hloop
  exact body_beyond hb₁ hheader hbody he

theorem version_beyond (hv : h.queryVersion = none) (hb : Beyond l.cursor)
    (he : Flow.andThen (versionPart h l) nextPart = some (h', n)) : Sealed h' := by
  obtain ⟨f, hf, hcase⟩ := and_then_some he
  rw [versionPart, if_neg (by simp [hv])] at hf
  obtain ⟨r, hr, hf⟩ := Option.bind_eq_some_iff.mp hf
  obtain ⟨c, rfl, hb₁⟩ := chunk_beyond hb hr
  obtain ⟨⟨i, size⟩, hskip, hf⟩ := Option.bind_eq_some_iff.mp hf
  cases hf
  obtain ⟨k, hret⟩ | ⟨h₁, l₁, hnext, he⟩ := hcase
  · cases hret
  · cases hnext
    exact next_beyond (skip_beyond hb₁ hskip) he

theorem params_beyond (hv : h.queryVersion = none) (hf : h.abParams.fillSize = 0)
    (hstale : ∀ c ∈ stale.head?, c = question) (hmemory : stale.length < npos)
    (he : Flow.andThen (paramsPart h (localsAt [] stale k u)) (fun h l =>
      Flow.andThen (versionPart h l) nextPart) = some (h', n)) : Sealed h' := by
  obtain ⟨f, hparams, hcase⟩ := and_then_some he
  rw [paramsPart, if_pos hf] at hparams
  obtain ⟨first, hfirst, hparams⟩ := Option.bind_eq_some_iff.mp hparams
  have hhead : stale.head? = some first := by
    rw [List.head?_eq_getElem?]
    exact hfirst
  rw [if_pos (hstale first hhead)] at hparams
  obtain ⟨r, hr, hparams⟩ := Option.bind_eq_some_iff.mp hparams
  have hb : Beyond (localsAt [] stale k u).cursor.step := by
    have hpos : 0 < stale.length := List.length_pos_iff.mpr fun hnil => by simp [hnil] at hhead
    simp only [Beyond, localsAt, Cursor.step, List.nil_append, List.length_drop, List.length_nil,
      if_true]
    omega
  obtain ⟨c, rfl, hb₁⟩ := chunk_beyond hb hr
  cases hparams
  obtain ⟨k, hret⟩ | ⟨h₁, l₁, hnext, he⟩ := hcase
  · cases hret
  · cases hnext
    exact version_beyond (h := { h with abParams := c.target }) (l := ⟨c.cursor, _, _⟩) hv hb₁ he

/-- Where the text ends with the URI and the byte behind it is a question mark, the
call fails or leaves nothing to do. -/
theorem overrun (hs : Shows h v) (hv : v.Sound) (hcut : v.UriCut p)
    (hstale : ∀ c ∈ stale.head?, c = question) (hmemory : stale.length < npos)
    (he : h.processData (p ++ stale) p.length u = some (h', n)) : Sealed h' := by
  obtain ⟨hfirst, hparams, w, rest, w', hmethod, huri⟩ := hcut
  have hstart := ((⟨hv, hfirst⟩ : v.Starting).method hmethod).uri huri
  rw [processData, hs.headerProcess, hfirst] at he
  have hm := method_follows hs p stale 0 u
  rw [hmethod] at hm
  obtain ⟨-, h₁, u₁, hm, hs₁⟩ := hm
  have hu := uri_follows hs₁ rest stale (0 + (p.length - rest.length)) u₁
  rw [huri] at hu
  obtain ⟨-, h₂, u₂, hu, hs₂⟩ := hu
  change Flow.andThen (methodPart h (localsAt p stale 0 u)) _ = _ at he
  rw [hm] at he
  change Flow.andThen (uriPart h₁ (localsAt rest stale _ u₁)) _ = _ at he
  rw [hu] at he
  have hnone : w'.params = [] := by
    obtain ⟨-, m, rfl⟩ := View.method_reads hmethod
    obtain ⟨-, k, rfl⟩ := View.uri_reads huri
    exact hparams
  have hfill : h₂.abParams.fillSize = 0 := by
    rw [AutoBuffer.fill_zero_iff, hs₂.params, hnone]
  have hversion : h₂.queryVersion = none := by
    have hrel := rel_isSome hs₂.version
    rw [hstart.sound.version hstart.first] at hrel
    exact Option.not_isSome_iff_eq_none.mp (by simp [hrel])
  exact params_beyond hversion hfill hstale hmemory he

end HttpHeader

end Khorost
