import Khorost.Proofs.HostPort

namespace Khorost

/-- A string is read from the bytes up to its terminator. -/
theorem c_str_front {content content' : List UInt8} (hend : content[p + e]? = some nul)
    (hsame : content'.take (p + e + 1) = content.take (p + e + 1)) (stale : List UInt8) :
    cStr ((content' ++ stale).drop p) = cStr ((content.take (p + e + 1)).drop p) := by
  obtain ⟨hlt, -⟩ := List.getElem?_eq_some_iff.mp hend
  have hin : nul ∈ (content.take (p + e + 1)).drop p := by
    refine List.mem_of_getElem? (i := e) ?_
    rw [List.getElem?_drop, List.getElem?_take_of_lt (by omega), hend]
  have hlong : p ≤ (content.take (p + e + 1)).length := by
    rw [List.length_take]
    omega
  rw [← List.take_append_drop (p + e + 1) content', hsame, List.append_assoc,
    List.drop_append_of_le_length hlong, c_str_ended hin]

theorem get_chunk_behind (h : getChunk i lead div target = some (some c)) :
    target.content.length ≤ c.reference := by
  obtain ⟨s, -, h⟩ := Option.bind_eq_some_iff.mp h
  obtain ⟨found, -, h⟩ := Option.bind_eq_some_iff.mp h
  cases found with
  | none => cases h
  | some m =>
    cases h
    rw [AutoBuffer.content_length]
    exact Nat.le_add_right _ _

namespace HttpHeader

variable {h h' h'' : HttpHeader} {f : Flow}

/-- A method stays, and the values of new header lines stand behind everything that
was there. -/
structure Advances (h h' : HttpHeader) : Prop where
  longer : h.abHeader.content.length ≤ h'.abHeader.content.length
  method : h.queryMethod.isSome → h'.queryMethod = h.queryMethod
  values : ∀ v ∈ h'.headerValues, v ∈ h.headerValues ∨ h.abHeader.content.length ≤ v.2

theorem Advances.of_stores (hs : Stores h h') (hm : h'.queryMethod = h.queryMethod)
    (hv : h'.headerValues = h.headerValues) : Advances h h' :=
  ⟨hs.content.length_le, fun _ => hm, fun _ hin => .inl (hv ▸ hin)⟩

theorem Advances.refl (h : HttpHeader) : Advances h h := .of_stores (.refl h) rfl rfl

theorem Advances.trans (h₁ : Advances h h') (h₂ : Advances h' h'') : Advances h h'' := by
  refine ⟨h₁.longer.trans h₂.longer, fun hm => ?_, fun v hv => ?_⟩
  · have hm' := h₁.method hm
    exact (h₂.method (hm' ▸ hm)).trans hm'
  · rcases h₂.values v hv with hold | hnew
    · exact h₁.values v hold
    · exact .inr (h₁.longer.trans hnew)

theorem uri_advances (he : uriPart h l = some f) : Advances h f.header := by
  have hs := uri_stores he
  unfold uriPart at he
  split at he
  · cases he
    exact .refl h
  · obtain ⟨c, -, he⟩ := Option.bind_eq_some_iff.mp he
    split at he
    · cases he
      exact .refl h
    · obtain ⟨last, -, he⟩ := Option.bind_eq_some_iff.mp he
      split at he
      · cases he
        exact .of_stores hs rfl rfl
      · cases he
        exact .of_stores hs rfl rfl

theorem params_advances (he : paramsPart h l = some f) : Advances h f.header := by
  have hs := params_stores he
  unfold paramsPart at he
  split at he
  · obtain ⟨first, -, he⟩ := Option.bind_eq_some_iff.mp he
    split at he
    · obtain ⟨c, -, he⟩ := Option.bind_eq_some_iff.mp he
      split at he
      · cases he
        exact .refl h
      · cases he
        exact .of_stores hs rfl rfl
    · cases he
      exact .refl h
  · cases he
    exact .refl h

theorem version_advances (he : versionPart h l = some f) : Advances h f.header := by
  have hs := (version_stores he).1
  unfold versionPart at he
  split at he
  · cases he
    exact .refl h
  · obtain ⟨c, -, he⟩ := Option.bind_eq_some_iff.mp he
    split at he
    · cases he
      exact .refl h
    · obtain ⟨s, -, he⟩ := Option.bind_eq_some_iff.mp he
      cases he
      exact .of_stores hs rfl rfl

theorem add_header_advances (he : addHeader h key value size = some h') :
    h'.queryMethod = h.queryMethod ∧ h'.headerValues = h.headerValues ++ [(key, value)] := by
  unfold addHeader at he
  dsimp only at he
  split at he
  · cases he
    exact ⟨rfl, rfl⟩
  · split at he
    · obtain ⟨r, -, he⟩ := Option.bind_eq_some_iff.mp he
      cases he
      exact ⟨rfl, rfl⟩
    · cases he
      exact ⟨rfl, rfl⟩

theorem header_line_advances (he : headerLine h l = some (h', l', whole))
    (hn : getChunk l.cursor space [colon] h.abHeader = some none → h.abHeader.NoWrap l.chunkSize) :
    Advances h h' := by
  have hs := header_line_stores he hn
  unfold headerLine at he
  obtain ⟨key, hkey, he⟩ := Option.bind_eq_some_iff.mp he
  split at he
  · cases he
    exact .of_stores hs rfl rfl
  · obtain ⟨value, hvalue, he⟩ := Option.bind_eq_some_iff.mp he
    split at he
    · cases he
      exact .of_stores hs rfl rfl
    · obtain ⟨s, -, he⟩ := Option.bind_eq_some_iff.mp he
      obtain ⟨h₁, hadd, he⟩ := Option.bind_eq_some_iff.mp he
      cases he
      obtain ⟨hmethod, hvalues⟩ := add_header_advances hadd
      refine ⟨hs.content.length_le, fun _ => hmethod, fun v hv => ?_⟩
      rw [hvalues] at hv
      rcases List.mem_append.mp hv with hold | hnew
      · exact .inl hold
      · obtain rfl := List.mem_singleton.mp hnew
        exact .inr ((get_chunk_kept hkey).1.length_le.trans (get_chunk_behind hvalue))

theorem header_loop_advances (he : headerLoop fuel h l = some (h', l')) (hu : h.LinesForward l) :
    Advances h h' := by
  induction fuel generalizing h l with
  | zero => cases he
  | succ fuel ih =>
    unfold headerLoop at he
    split at he
    · next hsize =>
      obtain ⟨blank, hblank, he⟩ := Option.bind_eq_some_iff.mp he
      split at he
      · cases he
        exact .of_stores (.of_content (Kept.refl _) id rfl rfl) rfl rfl
      · next hno =>
        rw [Bool.eq_false_iff.mpr hno] at hblank
        obtain ⟨⟨h₁, l₁, whole⟩, hline, he⟩ := Option.bind_eq_some_iff.mp he
        have hf := header_line_advances hline (hu.missed hsize hblank)
        dsimp only at he
        split at he
        · next hwhole =>
          subst hwhole
          exact hf.trans (ih he ((header_line_forward hline).stays _))
        · cases he
          exact hf
    · cases he
      exact .refl _

theorem merge_form_method (h : HttpHeader) : h.mergeForm.queryMethod = h.queryMethod := by
  unfold mergeForm
  dsimp only
  split
  · rfl
  · rfl

theorem take_body_method (he : takeBody h l = some (h', n)) : h'.queryMethod = h.queryMethod := by
  unfold takeBody at he
  dsimp only at he
  split at he
  · cases he
    rfl
  · split at he
    · split at he
      · cases he
      · cases he
        split
        · split
          · exact merge_form_method _
          · rfl
        · rfl
    · cases he
      rfl

theorem body_advances (he : bodyPart h l = some (h', n)) : Advances h h' := by
  have hs := body_stores he
  unfold bodyPart at he
  split at he
  · obtain ⟨⟨h₁, n₁⟩, htake, he⟩ := Option.bind_eq_some_iff.mp he
    have hm := take_body_method htake
    have hv := (take_body_same htake).headerValues
    dsimp only at he
    split at he
    · obtain ⟨r, -, he⟩ := Option.bind_eq_some_iff.mp he
      cases he
      exact .of_stores hs hm hv
    · cases he
      exact .of_stores hs hm hv
  · cases he
    exact .refl h

theorem next_advances (he : nextPart h l = some (h', n)) (hu : h.LinesForward l) :
    Advances h h' := by
  obtain ⟨⟨h₁, l₁⟩, hloop, he⟩ := Option.bind_eq_some_iff.mp he
  exact (header_loop_advances hloop hu).trans (body_advances he)

/-- The method ends in front of the values of all header lines. -/
structure MethodFirst (h : HttpHeader) : Prop where
  before : ∀ p ∈ h.queryMethod, ∃ e, h.abHeader.content[p + e]? = some nul ∧
    ∀ v ∈ h.headerValues, p + e < v.2
  nothing : h.queryMethod = none → h.headerValues = []

theorem Advances.first (hf : Advances h h') (hk : Kept h.abHeader.content h'.abHeader.content)
    (hm : h.queryMethod.isSome) (h₀ : MethodFirst h) : MethodFirst h' := by
  have hsame := hf.method hm
  refine ⟨fun p hp => ?_, fun hnone => ?_⟩
  · obtain ⟨e, hend, hbefore⟩ := h₀.before p (hsame ▸ hp)
    refine ⟨e, (hk _ _ hend).elim id id, fun v hv => ?_⟩
    obtain ⟨hlt, -⟩ := List.getElem?_eq_some_iff.mp hend
    rcases hf.values v hv with hold | hnew
    · exact hbefore v hold
    · omega
  · rw [← hsame, hnone] at hm
    cases hm

theorem method_first (h₀ : MethodFirst h) (he : methodPart h l = some f) :
    MethodFirst f.header := by
  unfold methodPart at he
  split at he
  · cases he
    exact h₀
  · rename_i hnone
    obtain ⟨c, hchunk, he⟩ := Option.bind_eq_some_iff.mp he
    split at he
    · cases he
      exact h₀
    · cases he
      have hempty : h.headerValues = [] := h₀.nothing (by simpa using hnone)
      refine ⟨fun p hp => ?_, fun hnone => nomatch hnone⟩
      cases hp
      obtain ⟨e, hend⟩ := text_at_iff.mp (get_chunk_ends hchunk)
      refine ⟨e, hend, fun v hv => ?_⟩
      change v ∈ h.headerValues at hv
      simp [hempty] at hv

theorem process_first (hst : Staged h) (he₀ : Echoes h) (h₀ : MethodFirst h)
    (hu : h.StaysForward (buffer.take size) chunkSize)
    (he : h.processData buffer size chunkSize = some (h', n)) : MethodFirst h' := by
  cases hp : h.headerProcess with
  | processingFirst =>
    rw [processData, hp] at he
    obtain ⟨f, hf, hcase⟩ := and_then_some he
    have h₁ := method_first h₀ hf
    have hk := method_keeps hf
    obtain ⟨-, hmethod⟩ := method_stores hf
    obtain ⟨k, rfl⟩ | ⟨h₁', l₁, rfl, he⟩ := hcase
    · exact h₁
    have hm := hmethod _ _ rfl
    have hbegun : 0 < h₁'.abHeader.fillSize := hk.begun hp (hst.begun hp) hm
    obtain ⟨f, hf, hcase⟩ := and_then_some he
    have hs := uri_stores hf
    have hg := uri_advances hf
    replace hk := hk.trans (uri_keeps hf)
    obtain ⟨k, rfl⟩ | ⟨h₂, l₂, rfl, he⟩ := hcase
    · exact hg.first hs.content hm h₁
    obtain ⟨f, hf, hcase⟩ := and_then_some he
    replace hs := hs.trans (params_stores hf)
    replace hg := hg.trans (params_advances hf)
    replace hk := hk.trans (params_keeps hf)
    obtain ⟨k, rfl⟩ | ⟨h₃, l₃, rfl, he⟩ := hcase
    · exact hg.first hs.content hm h₁
    obtain ⟨f, hf, hcase⟩ := and_then_some he
    replace hbegun := hs.content.filled hbegun
    replace hs := hs.trans (version_stores hf).1
    replace hg := hg.trans (version_advances hf)
    obtain ⟨k, rfl⟩ | ⟨h₄, l₄, rfl, he⟩ := hcase
    · exact hg.first hs.content hm h₁
    · have hlines : h₄.LinesForward l₄ :=
        (version_forward hf (hk.version.trans (hst.version hp)) hbegun).stays _
      exact (hg.trans (next_advances he hlines)).first (hs.trans (next_stores he hlines)).content
        hm h₁
  | processingNext =>
    rw [processData, hp] at he
    exact (next_advances he (hu hp)).first (next_stores he (hu hp)).content
      (he₀.named (by simp [hp])).1 h₀
  | none | successful | error =>
    rw [processData, hp] at he
    exact (body_advances he).first (body_stores he).content (he₀.named (by simp [hp])).1 h₀

theorem ReachedForward.method_first (hr : ReachedForward h) : MethodFirst h := by
  induction hr with
  | new fresh => exact ⟨by simp [HttpHeader.new], fun _ => rfl⟩
  | clear hr ih => exact ⟨by simp [HttpHeader.clear], fun _ => rfl⟩
  | processed hr hu he ih => exact process_first hr.reached.staged hr.echoes ih hu he

/-- A terminator that is written behind the beginning of a value leaves the method
as it is. -/
theorem MethodFirst.set_nul (h₀ : MethodFirst h) (hv : v ∈ h.headerValues) (n : Nat) :
    MethodFirst { h with abHeader := h.abHeader.set (v.2 + n) nul } ∧
      getQueryMethod { h with abHeader := h.abHeader.set (v.2 + n) nul } = h.getQueryMethod := by
  have hkept := kept_set_nul h.abHeader (v.2 + n)
  constructor
  · refine ⟨fun p hp => ?_, h₀.nothing⟩
    obtain ⟨e, hend, hbefore⟩ := h₀.before p hp
    exact ⟨e, (hkept _ _ hend).elim id id, hbefore⟩
  · unfold getQueryMethod
    cases hm : h.queryMethod with
    | none => rfl
    | some p =>
      obtain ⟨e, hend, hbefore⟩ := h₀.before p hm
      have hfar := hbefore v hv
      have hset : ((h.abHeader.set (v.2 + n) nul).content).take (p + e + 1) =
          h.abHeader.content.take (p + e + 1) := by
        rw [AutoBuffer.content_set, List.take_set_of_le (by omega)]
      have htext := c_str_front hend hset (h.abHeader.set (v.2 + n) nul).stale
      rw [← AutoBuffer.buffer_split] at htext
      have hold := c_str_front hend rfl h.abHeader.stale
      rw [← AutoBuffer.buffer_split] at hold
      simp [headerText, htext, hold]

end HttpHeader

end Khorost
