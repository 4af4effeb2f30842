import Khorost.Proofs.Reached
import Khorost.App.HttpConnection
import Khorost.Net.Response

namespace Khorost

def Plain (c : UInt8) : Prop := c ≠ cr ∧ c ≠ lf

/-- A terminated text without a line end stands at a position. -/
def PlainAt (content : List UInt8) (position : Nat) : Prop :=
  ∃ e, content[position + e]? = some nul ∧ ∀ i < e, ∀ c ∈ content[position + i]?, Plain c

/-- What is filled stays there, or becomes a terminator. -/
def Kept (content content' : List UInt8) : Prop :=
  ∀ (i : Nat) (c : UInt8), content[i]? = some c → content'[i]? = some c ∨ content'[i]? = some nul

theorem Kept.refl (content : List UInt8) : Kept content content := fun _ _ h => .inl h

theorem Kept.trans (h : Kept content content') (h' : Kept content' content'') :
    Kept content content'' := by
  intro i c hc
  rcases h i c hc with hc | hn
  · exact h' i c hc
  · rcases h' i nul hn with hn | hn
    · exact .inr hn
    · exact .inr hn

theorem Kept.length_le (h : Kept content content') : content.length ≤ content'.length := by
  by_contra hlong
  have hthere := List.getElem?_eq_getElem (l := content) (i := content'.length) (by omega)
  have hnone : content'[content'.length]? = none := List.getElem?_eq_none (Nat.le_refl _)
  rcases h _ _ hthere with hsame | hnul
  · simp at hsame
  · simp at hnul

theorem Kept.filled {b b' : AutoBuffer UInt8} (h : Kept b.content b'.content)
    (hb : 0 < b.fillSize) : 0 < b'.fillSize := by
  have hle := h.length_le
  rw [AutoBuffer.content_length, AutoBuffer.content_length] at hle
  exact Nat.lt_of_lt_of_le hb hle

theorem Kept.append (content more : List UInt8) : Kept content (content ++ more) := by
  intro i c hc
  obtain ⟨hlt, -⟩ := List.getElem?_eq_some_iff.mp hc
  exact .inl (by rw [List.getElem?_append_left hlt, hc])

theorem Kept.set_nul (content : List UInt8) (position : Nat) :
    Kept content (content.set position nul) := by
  intro i c hc
  obtain ⟨hlt, -⟩ := List.getElem?_eq_some_iff.mp hc
  by_cases hi : position = i
  · exact .inr (by rw [hi, List.getElem?_set_self hlt])
  · exact .inl (by rw [List.getElem?_set_ne hi, hc])

theorem PlainAt.kept (h : PlainAt content position) (hk : Kept content content') :
    PlainAt content' position := by
  obtain ⟨e, hend, hplain⟩ := h
  obtain ⟨hlt, -⟩ := List.getElem?_eq_some_iff.mp hend
  refine ⟨e, (hk _ _ hend).elim id id, fun i hi c hc => ?_⟩
  have hthere : content[position + i]? = some content[position + i] :=
    List.getElem?_eq_getElem (by omega)
  rcases hk _ _ hthere with hsame | hnul
  · rw [hsame, Option.mem_some_iff] at hc
    exact hplain i hi c (hc ▸ hthere)
  · rw [hnul, Option.mem_some_iff] at hc
    exact hc ▸ ⟨by decide, by decide⟩

theorem c_str_plain {memory : List UInt8} {e : Nat} (h : memory[e]? = some nul)
    (hplain : ∀ i < e, ∀ c ∈ memory[i]?, Plain c) : ∀ c ∈ cStr memory, Plain c := by
  induction memory generalizing e with
  | nil => simp [cStr]
  | cons d memory ih =>
    intro c hc
    rw [cStr, List.takeWhile_cons] at hc
    split at hc
    · rename_i hd
      cases e with
      | zero => simp_all
      | succ e =>
        rcases List.mem_cons.mp hc with rfl | hc
        · exact hplain 0 (Nat.succ_pos e) c rfl
        · exact ih h (fun i hi c hc => hplain (i + 1) (Nat.succ_lt_succ hi) c hc) c hc
    · cases hc

/-- The C string at such a position has no line end in it. -/
theorem PlainAt.c_str (h : PlainAt content position) (stale : List UInt8) :
    ∀ c ∈ cStr ((content ++ stale).drop position), Plain c := by
  obtain ⟨e, hend, hplain⟩ := h
  obtain ⟨hlt, -⟩ := List.getElem?_eq_some_iff.mp hend
  have hat : ∀ i ≤ e, ((content ++ stale).drop position)[i]? = content[position + i]? := by
    intro i hi
    rw [List.getElem?_drop, List.getElem?_append_left (by omega)]
  refine c_str_plain ((hat e (Nat.le_refl e)).trans hend) (fun i hi c hc => hplain i hi c ?_)
  rwa [← hat i (Nat.le_of_lt hi)]

theorem kept_decrement (b : AutoBuffer UInt8) (h : b.NoWrap n) :
    Kept b.content (b.decrementFreeSize n).content := by
  obtain ⟨taken, htaken⟩ := b.content_decrement h
  rw [htaken]
  exact Kept.append _ _

theorem kept_set_nul (b : AutoBuffer UInt8) (i : Nat) : Kept b.content (b.set i nul).content := by
  rw [AutoBuffer.content_set]
  exact Kept.set_nul _ _

theorem find_stop_some (h : findStop div memory size = some (some n)) :
    (∃ c, memory[n]? = some c) ∧ ∀ i < n, ∀ c ∈ memory[i]?, c ∉ div := by
  induction size generalizing memory n with
  | zero => cases memory <;> cases h
  | succ size ih =>
    cases memory with
    | nil => cases h
    | cons d memory =>
      rw [findStop] at h
      split at h
      · cases h
        exact ⟨⟨d, rfl⟩, fun i hi => absurd hi (Nat.not_lt_zero i)⟩
      · rename_i hd
        obtain ⟨found, hfound, h⟩ := Option.map_eq_some_iff.mp h
        obtain ⟨m, rfl, rfl⟩ := Option.map_eq_some_iff.mp h
        obtain ⟨hthere, hclear⟩ := ih hfound
        refine ⟨hthere, fun i hi c hc => ?_⟩
        cases i with
        | zero =>
          cases hc
          exact hd
        | succ i => exact hclear i (by omega) c hc

/-- A chunk is stored behind what is there; its text goes up to the first stop
character. -/
theorem get_chunk_kept (h : getChunk i lead div target = some (some c)) :
    Kept target.content c.target.content ∧
      ((∀ d, d ∉ div → Plain d) → PlainAt c.target.content c.reference) := by
  obtain ⟨s, -, h⟩ := Option.bind_eq_some_iff.mp h
  obtain ⟨found, hfind, h⟩ := Option.bind_eq_some_iff.mp h
  cases found with
  | none => cases h
  | some m =>
    obtain ⟨⟨d, hthere⟩, hclear⟩ := find_stop_some hfind
    simp only [List.getElem?_drop] at hthere hclear
    obtain ⟨hlt, -⟩ := List.getElem?_eq_some_iff.mp hthere
    cases h
    have hcontent : ((target.append (i.buffer.take (s + m + 1))).set
        (target.fillSize + (s + m)) nul).content =
        (target.content ++ i.buffer.take (s + m + 1)).set (target.content.length + (s + m)) nul := by
      rw [AutoBuffer.content_set, AutoBuffer.content_append, AutoBuffer.content_length]
    dsimp only
    rw [hcontent]
    refine ⟨(Kept.append _ _).trans (Kept.set_nul _ _), fun hdiv => ?_⟩
    rw [← AutoBuffer.content_length]
    have hat : ∀ j < m, ((target.content ++ i.buffer.take (s + m + 1)).set
        (target.content.length + (s + m)) nul)[target.content.length + s + j]? =
          i.buffer[s + j]? := by
      intro j hj
      rw [List.getElem?_set_ne (by omega), List.getElem?_append_right (by omega),
        List.getElem?_take_of_lt (by omega)]
      congr 1
      omega
    refine ⟨m, ?_, fun j hj c hc => ?_⟩
    · rw [Nat.add_assoc target.content.length, List.getElem?_set_self]
      rw [List.length_append, List.length_take]
      omega
    · rw [hat j hj] at hc
      exact hdiv c (hclear j hj c hc)

theorem parse_loop_kept (h : parseLoop div trim size b t k v target = some (b', target')) :
    Kept b.content b'.content := by
  induction size generalizing b t k v target with
  | zero =>
    cases h
    exact Kept.refl _
  | succ size ih =>
    obtain ⟨c, -, h⟩ := Option.bind_eq_some_iff.mp h
    split at h
    · obtain ⟨k, -, h⟩ := Option.bind_eq_some_iff.mp h
      cases h
      exact Kept.refl _
    · split at h
      · obtain ⟨k, -, h⟩ := Option.bind_eq_some_iff.mp h
        exact (kept_set_nul b t).trans (ih h)
      · split at h
        · exact (kept_set_nul b t).trans (ih h)
        · exact ih h

namespace HttpHeader

/-- The header buffer is only added to, and a version or value that is new is free
of line ends. -/
structure Stores (h h' : HttpHeader) : Prop where
  content : Kept h.abHeader.content h'.abHeader.content
  method : h.queryMethod.isSome → h'.queryMethod.isSome
  version : h'.queryVersion = h.queryVersion ∨
    ∃ p, h'.queryVersion = some p ∧ PlainAt h'.abHeader.content p
  values : ∀ v ∈ h'.headerValues, v ∈ h.headerValues ∨ PlainAt h'.abHeader.content v.2

theorem Stores.refl (h : HttpHeader) : Stores h h :=
  ⟨Kept.refl _, id, .inl rfl, fun _ hv => .inl hv⟩

theorem Stores.trans (h₁ : Stores h h') (h₂ : Stores h' h'') : Stores h h'' := by
  refine ⟨h₁.content.trans h₂.content, fun hm => h₂.method (h₁.method hm), ?_, fun v hv => ?_⟩
  · rcases h₂.version with he | hnew
    · rcases h₁.version with he' | ⟨p, hp, hplain⟩
      · exact .inl (he.trans he')
      · exact .inr ⟨p, he.trans hp, hplain.kept h₂.content⟩
    · exact .inr hnew
  · rcases h₂.values v hv with hold | hnew
    · exact (h₁.values v hold).imp_right (fun hplain => hplain.kept h₂.content)
    · exact .inr hnew

theorem Stores.version_there (hs : Stores h h') (hv : h.queryVersion.isSome) :
    h'.queryVersion.isSome := by
  rcases hs.version with he | ⟨p, hp, -⟩
  · rwa [he]
  · rw [hp]
    rfl

/-- A part that leaves the version and the header lines alone. -/
theorem Stores.of_content (hc : Kept h.abHeader.content h'.abHeader.content)
    (hm : h.queryMethod.isSome → h'.queryMethod.isSome) (hv : h'.queryVersion = h.queryVersion)
    (hl : h'.headerValues = h.headerValues) : Stores h h' :=
  ⟨hc, hm, .inl hv, fun v hv => .inl (by rwa [← hl])⟩

theorem method_stores (he : methodPart h l = some f) : Stores h f.header ∧
    ∀ h' l', f = .next h' l' → h'.queryMethod.isSome := by
  unfold methodPart at he
  split at he
  · rename_i hm
    cases he
    exact ⟨.refl h, fun h' l' hf => by cases hf; exact hm⟩
  · obtain ⟨c, hchunk, he⟩ := Option.bind_eq_some_iff.mp he
    split at he <;> cases he
    · exact ⟨.refl h, nofun⟩
    · exact ⟨.of_content (get_chunk_kept hchunk).1 (fun _ => rfl) rfl rfl,
        fun h' l' hf => by cases hf; rfl⟩

theorem uri_stores (he : uriPart h l = some f) : Stores h f.header := by
  unfold uriPart at he
  split at he
  · cases he
    exact .refl h
  · obtain ⟨c, hchunk, he⟩ := Option.bind_eq_some_iff.mp he
    split at he
    · cases he
      exact .refl h
    · obtain ⟨last, -, he⟩ := Option.bind_eq_some_iff.mp he
      split at he <;> cases he
      · exact .of_content (get_chunk_kept hchunk).1 id rfl rfl
      · exact .of_content (get_chunk_kept hchunk).1 id rfl rfl

theorem params_stores (he : paramsPart h l = some f) : Stores h f.header := by
  unfold paramsPart at he
  split at he
  · obtain ⟨first, -, he⟩ := Option.bind_eq_some_iff.mp he
    split at he
    · obtain ⟨c, -, he⟩ := Option.bind_eq_some_iff.mp he
      split at he <;> cases he
      · exact .refl h
      · exact .of_content (Kept.refl _) id rfl rfl
    · cases he
      exact .refl h
  · cases he
    exact .refl h

theorem plain_of_not_stop : ∀ d, d ∉ [cr, lf] → Plain d := by
  intro d hd
  simpa [Plain] using hd

theorem version_stores (he : versionPart h l = some f) : Stores h f.header ∧
    ((∃ k, f = .ret h k) ∨ ∃ h' l', f = .next h' l' ∧ h'.queryVersion.isSome) := by
  unfold versionPart at he
  split at he
  · rename_i hv
    cases he
    exact ⟨.refl h, .inr ⟨_, _, rfl, hv⟩⟩
  · obtain ⟨c, hchunk, he⟩ := Option.bind_eq_some_iff.mp he
    split at he
    · cases he
      exact ⟨.refl h, .inl ⟨_, rfl⟩⟩
    · obtain ⟨s, -, he⟩ := Option.bind_eq_some_iff.mp he
      cases he
      obtain ⟨hkept, hplain⟩ := get_chunk_kept hchunk
      exact ⟨⟨hkept, id, .inr ⟨_, rfl, hplain plain_of_not_stop⟩, fun v hv => .inl hv⟩,
        .inr ⟨_, _, rfl, rfl⟩⟩

theorem add_header_stores (hplain : PlainAt h.abHeader.content value)
    (he : addHeader h key value size = some h') : Stores h h' := by
  have hvalues : ∀ content, Kept h.abHeader.content content →
      ∀ v ∈ h.headerValues ++ [(key, value)], v ∈ h.headerValues ∨ PlainAt content v.2 := by
    intro content hk v hv
    rcases List.mem_append.mp hv with hold | hnew
    · exact .inl hold
    · rw [List.mem_singleton.mp hnew]
      exact .inr (hplain.kept hk)
  unfold addHeader at he
  dsimp only at he
  split at he
  · cases he
    exact ⟨Kept.refl _, id, .inl rfl, hvalues _ (Kept.refl _)⟩
  · split at he
    · obtain ⟨r, hparse, he⟩ := Option.bind_eq_some_iff.mp he
      cases he
      have hk := parse_loop_kept hparse
      exact ⟨hk, id, .inl rfl, hvalues _ hk⟩
    · cases he
      exact ⟨Kept.refl _, id, .inl rfl, hvalues _ (Kept.refl _)⟩

theorem header_line_stores (he : headerLine h l = some (h', l', whole))
    (hn : getChunk l.cursor space [colon] h.abHeader = some none → h.abHeader.NoWrap l.chunkSize) :
    Stores h h' := by
  unfold headerLine at he
  obtain ⟨key, hkey, he⟩ := Option.bind_eq_some_iff.mp he
  split at he
  · cases he
    exact .of_content (kept_decrement _ (hn hkey)) id rfl rfl
  · have hk := (get_chunk_kept hkey).1
    obtain ⟨value, hvalue, he⟩ := Option.bind_eq_some_iff.mp he
    split at he
    · cases he
      exact .of_content (hk.trans (kept_decrement _ (get_chunk_forward hkey))) id rfl rfl
    · obtain ⟨s, -, he⟩ := Option.bind_eq_some_iff.mp he
      obtain ⟨h₁, hadd, he⟩ := Option.bind_eq_some_iff.mp he
      cases he
      obtain ⟨hk', hplain⟩ := get_chunk_kept hvalue
      have hstored : Stores h { h with abHeader := _ } :=
        .of_content (hk.trans hk') id rfl rfl
      exact hstored.trans (add_header_stores (hplain plain_of_not_stop) hadd)

theorem header_loop_stores (he : headerLoop fuel h l = some (h', l')) (hu : h.LinesForward l) :
    Stores h h' := by
  induction fuel generalizing h l with
  | zero => cases he
  | succ fuel ih =>
    unfold headerLoop at he
    split at he
    · next hsize =>
      obtain ⟨blank, hblank, he⟩ := Option.bind_eq_some_iff.mp he
      split at he
      · cases he
        exact .of_content (Kept.refl _) id rfl rfl
      · next hno =>
        rw [Bool.eq_false_iff.mpr hno] at hblank
        obtain ⟨⟨h₁, l₁, whole⟩, hline, he⟩ := Option.bind_eq_some_iff.mp he
        have hs := header_line_stores hline (hu.missed hsize hblank)
        dsimp only at he
        split at he
        · next hwhole =>
          subst hwhole
          exact hs.trans (ih he ((header_line_forward hline).stays _))
        · cases he
          exact hs
    · cases he
      exact .refl _

theorem merge_form_stores (h : HttpHeader) : Stores h h.mergeForm := by
  unfold mergeForm
  dsimp only
  split
  · exact .of_content (Kept.refl _) id rfl rfl
  · exact .of_content (Kept.refl _) id rfl rfl

theorem take_body_stores (he : takeBody h l = some (h', n)) : Stores h h' := by
  unfold takeBody at he
  dsimp only at he
  split at he
  · cases he
    exact .of_content (Kept.refl _) id rfl rfl
  · split at he
    · split at he
      · cases he
      · cases he
        have hbody : ∀ abBody, Stores h { h with abBody := abBody } := fun _ =>
          .of_content (Kept.refl _) id rfl rfl
        have hdone : ∀ abBody bodyProcess,
            Stores h { h with abBody := abBody, bodyProcess := bodyProcess } := fun _ _ =>
          .of_content (Kept.refl _) id rfl rfl
        split
        · split
          · exact (hdone _ _).trans (merge_form_stores _)
          · exact hdone _ _
        · exact hbody _
    · cases he
      exact .refl _

theorem body_stores (he : bodyPart h l = some (h', n)) : Stores h h' := by
  unfold bodyPart at he
  split at he
  · obtain ⟨⟨h₁, n₁⟩, htake, he⟩ := Option.bind_eq_some_iff.mp he
    have hs := take_body_stores htake
    dsimp only at he
    split at he
    · obtain ⟨r, -, he⟩ := Option.bind_eq_some_iff.mp he
      cases he
      exact hs.trans (.of_content (Kept.refl _) id rfl rfl)
    · cases he
      exact hs
  · cases he
    exact .refl h

theorem next_stores (he : nextPart h l = some (h', n)) (hu : h.LinesForward l) : Stores h h' := by
  obtain ⟨⟨h₁, l₁⟩, hloop, he⟩ := Option.bind_eq_some_iff.mp he
  exact (header_loop_stores hloop hu).trans (body_stores he)

/-- What the response may say of the request is free of line ends; past the
first phase there is a method and a version. -/
structure Echoes (h : HttpHeader) : Prop where
  version : ∀ p ∈ h.queryVersion, PlainAt h.abHeader.content p
  values : ∀ v ∈ h.headerValues, PlainAt h.abHeader.content v.2
  named : h.headerProcess ≠ .processingFirst → h.queryMethod.isSome ∧ h.queryVersion.isSome

theorem Stores.echoes (hs : Stores h h') (he : Echoes h)
    (hn : h'.headerProcess ≠ .processingFirst → h'.queryMethod.isSome ∧ h'.queryVersion.isSome) :
    Echoes h' := by
  refine ⟨fun p hp => ?_, fun v hv => ?_, hn⟩
  · rcases hs.version with hsame | ⟨q, hq, hplain⟩
    · rw [hsame] at hp
      exact (he.version p hp).kept hs.content
    · rw [hq] at hp
      cases hp
      exact hplain
  · rcases hs.values v hv with hold | hplain
    · exact (he.values v hold).kept hs.content
    · exact hplain

theorem new_echoes (fresh : Nat → UInt8) : Echoes (.new fresh) :=
  ⟨nofun, nofun, fun h => absurd rfl h⟩

/-- Where the first line has been read, the header lines follow with a `chunk_size` that has
been assigned. -/
theorem first_stores (hst : Staged h) (hp : h.headerProcess = .processingFirst)
    (he : h.processData buffer size chunkSize = some (h', n)) : Stores h h' ∧
      (h'.headerProcess ≠ .processingFirst → h'.queryMethod.isSome ∧ h'.queryVersion.isSome) := by
  rw [processData, hp] at he
  obtain ⟨f, hf, hcase⟩ := and_then_some he
  obtain ⟨hs, hmethod⟩ := method_stores hf
  have hk := method_keeps hf
  have hfirst : ∀ {k}, Keeps h k → k.headerProcess ≠ .processingFirst →
      k.queryMethod.isSome ∧ k.queryVersion.isSome := fun hk hn => absurd (hk.headerProcess.trans hp) hn
  obtain ⟨k, rfl⟩ | ⟨h₁, l₁, rfl, he⟩ := hcase
  · exact ⟨hs, hfirst hk⟩
  have hm := hmethod _ _ rfl
  have hbegun : 0 < h₁.abHeader.fillSize := hk.begun hp (hst.begun hp) hm
  obtain ⟨f, hf, hcase⟩ := and_then_some he
  have hs₂ := uri_stores hf
  replace hk := hk.trans (uri_keeps hf)
  obtain ⟨k, rfl⟩ | ⟨h₂, l₂, rfl, he⟩ := hcase
  · exact ⟨hs.trans hs₂, hfirst hk⟩
  obtain ⟨f, hf, hcase⟩ := and_then_some he
  replace hs₂ := hs₂.trans (params_stores hf)
  replace hk := hk.trans (params_keeps hf)
  obtain ⟨k, rfl⟩ | ⟨h₃, l₃, rfl, he⟩ := hcase
  · exact ⟨hs.trans hs₂, hfirst hk⟩
  obtain ⟨f, hf, hcase⟩ := and_then_some he
  obtain ⟨hs₃, ⟨k, rfl⟩ | ⟨h₄, l₄, rfl, hversion⟩⟩ := version_stores hf
  · obtain ⟨k, hret⟩ | ⟨h₄, l₄, hnext, -⟩ := hcase
    · cases hret
      exact ⟨hs.trans hs₂, hfirst hk⟩
    · cases hnext
  · obtain ⟨k, hret⟩ | ⟨h₅, l₅, hnext, he⟩ := hcase
    · cases hret
    · cases hnext
      have hnone : h₃.queryVersion = none := hk.version.trans (hst.version hp)
      have hs₄ := next_stores he ((version_forward hf hnone (hs₂.content.filled hbegun)).stays _)
      have hall := (hs₂.trans hs₃).trans hs₄
      exact ⟨hs.trans hall, fun _ => ⟨hall.method hm, hs₄.version_there hversion⟩⟩

theorem later_stores (hu : h.StaysForward (buffer.take size) chunkSize)
    (hp : h.headerProcess ≠ .processingFirst)
    (he : h.processData buffer size chunkSize = some (h', n)) : Stores h h' := by
  cases hphase : h.headerProcess with
  | processingFirst => exact absurd hphase hp
  | processingNext =>
    rw [processData, hphase] at he
    exact next_stores he (hu hphase)
  | none | successful | error =>
    rw [processData, hphase] at he
    exact body_stores he

theorem process_echoes (hst : Staged h) (h₀ : Echoes h)
    (hu : h.StaysForward (buffer.take size) chunkSize)
    (he : h.processData buffer size chunkSize = some (h', n)) : Echoes h' := by
  by_cases hp : h.headerProcess = .processingFirst
  · obtain ⟨hs, hn⟩ := first_stores hst hp he
    exact hs.echoes h₀ hn
  · obtain ⟨hm, hv⟩ := h₀.named hp
    have hs := later_stores hu hp he
    exact hs.echoes h₀ fun _ => ⟨hs.method hm, hs.version_there hv⟩

theorem ReachedForward.echoes (hr : ReachedForward h) : Echoes h := by
  induction hr with
  | new fresh => exact new_echoes fresh
  | clear _ _ => exact ⟨nofun, nofun, fun h => absurd rfl h⟩
  | processed hr hu he ih => exact process_echoes hr.reached.staged ih hu he

end HttpHeader

namespace HttpConnection

/-- The parsers of a run whose calls do not move the fill back. -/
structure AllForward (d : HttpConnection) : Prop where
  current : ∀ h ∈ d.httpProcessor, h.ReachedForward
  done : ∀ r ∈ d.processed, r.1.ReachedForward ∧ r.1.isReady = true

theorem AllForward.call (hd : AllForward d) (hu : StaysForward u d p stale)
    (he : dataProcessing u d (p ++ stale) p.length = some (d', n)) : AllForward d' := by
  obtain ⟨⟨h, k⟩, hprocess, -⟩ := Option.bind_eq_some_iff.mp he
  have hold : (d.processor u).ReachedForward := by
    unfold processor
    cases hh : d.httpProcessor with
    | none => exact .new _
    | some h => exact hd.current h hh
  have hnew : h.ReachedForward := hold.processed (by rwa [List.take_left]) hprocess
  by_cases hready : k ≠ 0 ∧ h.isReady = true
  · rw [processing_serves hprocess hready] at he
    cases he
    refine ⟨nofun, fun r hr => ?_⟩
    rcases List.mem_append.mp hr with hr | hr
    · exact hd.done r hr
    · rw [List.mem_singleton.mp hr]
      exact ⟨hnew, hready.2⟩
  · rw [processing_waits hprocess hready] at he
    cases he
    exact ⟨fun h' hh => by cases hh; exact hnew, hd.done⟩

/-- Every request that becomes ready has been read without moving the fill back. -/
theorem serve_forward {u : Uninitialised} {fresh : Nat → UInt8} {segments : List (List UInt8)}
    (hc : ServesForward u fresh segments) :
    ∀ r ∈ (serve u fresh segments).derived.processed, r.1.ReachedForward ∧ r.1.isReady = true := by
  have hrun : AllForward (serve u fresh segments).derived :=
    hc.keep (fun d p stale d' n hJ hP he => hJ.call hP he) ⟨nofun, nofun⟩
  exact hrun.done

end HttpConnection

end Khorost
