import Khorost.Net.Accessors
import Khorost.Proofs.ResponseHead

namespace Khorost

theorem text_at_iff : TextAt content position ↔ ∃ e, content[position + e]? = some nul := by
  simp only [TextAt, List.mem_iff_getElem?, List.getElem?_drop]

theorem TextAt.kept (h : TextAt content position) (hk : Kept content content') :
    TextAt content' position := by
  obtain ⟨e, he⟩ := text_at_iff.mp h
  exact text_at_iff.mpr ⟨e, (hk _ _ he).elim id id⟩

/-- A terminator ends every string that begins in front of it. -/
theorem TextAt.of_nul (hn : content[t]? = some nul) (hle : position ≤ t) :
    TextAt content position :=
  text_at_iff.mpr ⟨t - position, by rwa [Nat.add_sub_cancel' hle]⟩

/-- Both strings of a pair stand there, the value if there is one. -/
structure PairAt (content : List UInt8) (p : Nat × Option Nat) : Prop where
  name : TextAt content p.1
  value : ∀ v ∈ p.2, TextAt content v

theorem PairAt.kept (h : PairAt content p) (hk : Kept content content') : PairAt content' p :=
  ⟨h.name.kept hk, fun v hv => (h.value v hv).kept hk⟩

theorem get_chunk_ends (h : getChunk i lead div target = some (some c)) :
    TextAt c.target.content c.reference := by
  obtain ⟨s, -, h⟩ := Option.bind_eq_some_iff.mp h
  obtain ⟨found, hfind, h⟩ := Option.bind_eq_some_iff.mp h
  cases found with
  | none => cases h
  | some m =>
    obtain ⟨⟨d, hthere⟩, -⟩ := find_stop_some hfind
    rw [List.getElem?_drop] at hthere
    obtain ⟨hlt, -⟩ := List.getElem?_eq_some_iff.mp hthere
    cases h
    refine TextAt.of_nul (t := target.fillSize + (s + m)) ?_ (by dsimp only; omega)
    dsimp only
    rw [AutoBuffer.content_set, AutoBuffer.content_append, List.getElem?_set_self]
    rw [List.length_append, List.length_take, AutoBuffer.content_length]
    omega

theorem spaces_at_le (h : spacesAt buffer = some n) (hc : buffer[m]? = some c) (hne : c ≠ space) :
    n ≤ m := by
  induction buffer generalizing n m with
  | nil => cases h
  | cons d buffer ih =>
    rw [spacesAt] at h
    split at h
    · rename_i hd
      obtain ⟨k, hk, rfl⟩ := Option.map_eq_some_iff.mp h
      cases m with
      | zero => exact absurd (hd.symm.trans (Option.some.inj hc)) (Ne.symm hne)
      | succ m => exact Nat.succ_le_succ (ih hk hc)
    · cases h
      exact Nat.zero_le m

/-- A name is not trimmed past the terminator behind it. -/
theorem name_position_le {b : AutoBuffer UInt8} (h : namePosition b trim k = some n)
    (ht : b.buffer[t]? = some nul) (hk : k ≤ t) : n ≤ t := by
  rw [namePosition] at h
  split at h
  · obtain ⟨m, hm, rfl⟩ := Option.map_eq_some_iff.mp h
    have hle := spaces_at_le (m := t - k) (c := nul) hm
      (by rw [List.getElem?_drop, Nat.add_sub_cancel' hk, ht]) (by decide)
    omega
  · cases h
    exact hk

/-- The bytes that the loop reads are filled: they all are, or it stops at a
terminator that is. -/
def Reads (content : List UInt8) (t size : Nat) : Prop :=
  t + size ≤ content.length ∨ TextAt content t

theorem Reads.filled (hr : Reads content t (size + 1)) : ∃ c, content[t]? = some c := by
  have hlt : t < content.length := by
    rcases hr with hle | ht
    · omega
    · have hpos := List.length_pos_of_mem ht
      rw [List.length_drop] at hpos
      omega
  exact ⟨_, List.getElem?_eq_getElem hlt⟩

theorem Reads.next (hr : Reads content t (size + 1)) (hc : content[t]? = some c) (hne : c ≠ nul) :
    Reads content (t + 1) size := by
  rcases hr with hle | ht
  · exact .inl (by omega)
  · obtain ⟨e, he⟩ := text_at_iff.mp ht
    cases e with
    | zero => exact absurd (Option.some.inj (hc.symm.trans he)) hne
    | succ e => exact .inr (.of_nul he (by omega))

theorem Reads.set_nul (hr : Reads content t size) (i : Nat) : Reads (content.set i nul) t size := by
  rcases hr with hle | ht
  · exact .inl (by rwa [List.length_set])
  · exact .inr (ht.kept (Kept.set_nul content i))

/-- What a pass adds stands in front of the terminator that it has found or written. -/
theorem add_pair {old : ListPairs} (hn : content[t]? = some nul) (hname : n ≤ t)
    (hv : ∀ x ∈ v, x ≤ t) (hold : ∀ p ∈ target, p ∈ old ∨ PairAt content p) :
    ∀ p ∈ target ++ [(n, v)], p ∈ old ∨ PairAt content p := by
  intro p hp
  rcases List.mem_append.mp hp with hp | hp
  · exact hold p hp
  · rw [List.mem_singleton.mp hp]
    exact .inr ⟨.of_nul hn hname, fun x hx => .of_nul hn (hv x hx)⟩

theorem parse_loop_pairs {old : ListPairs}
    (h : parseLoop div trim size b t k v target = some (b', target'))
    (hr : Reads b.content t size) (hk : k ≤ t) (hv : ∀ x ∈ v, x ≤ t)
    (hold : ∀ p ∈ target, p ∈ old ∨ PairAt b.content p) :
    ∀ p ∈ target', p ∈ old ∨ PairAt b'.content p := by
  induction size generalizing b t k v target with
  | zero =>
    cases h
    exact hold
  | succ size ih =>
    obtain ⟨c, hc⟩ := hr.filled
    obtain ⟨hlt, -⟩ := List.getElem?_eq_some_iff.mp hc
    have hbuffer : b.buffer[t]? = some c := by
      rw [b.buffer_split, List.getElem?_append_left hlt, hc]
    -- the terminator that is written in the place of a separator
    have hset : (b.set t nul).content[t]? = some nul := by
      rw [AutoBuffer.content_set, List.getElem?_set_self hlt]
    have hset' : (b.set t nul).buffer[t]? = some nul :=
      List.getElem?_set_self (List.getElem?_eq_some_iff.mp hbuffer).1
    have hkept : ∀ p ∈ target, p ∈ old ∨ PairAt (b.set t nul).content p := fun p hp =>
      (hold p hp).imp_right fun hat => hat.kept (kept_set_nul b t)
    rw [parseLoop, hbuffer] at h
    simp only [Option.bind_eq_bind, Option.bind_some] at h
    split at h
    · rename_i hnul
      obtain ⟨n, hn, h⟩ := Option.bind_eq_some_iff.mp h
      cases h
      rw [hnul] at hc hbuffer
      exact add_pair hc (name_position_le hn hbuffer hk) hv hold
    · rename_i hnul
      have hnext : Reads (b.set t nul).content (t + 1) size := by
        rw [AutoBuffer.content_set]
        exact (hr.next hc hnul).set_nul t
      split at h
      · obtain ⟨n, hn, h⟩ := Option.bind_eq_some_iff.mp h
        exact ih h hnext (Nat.le_refl _) (by simp)
          (add_pair hset (name_position_le hn hset' hk) hv hkept)
      · split at h
        · refine ih h hnext (by omega) (fun x hx => ?_) hkept
          cases hx
          exact Nat.le_refl _
        · exact ih h (hr.next hc hnul) (by omega)
            (fun x hx => Nat.le_succ_of_le (hv x hx)) hold

namespace HttpHeader

/-- The header buffer is only added to, and new references lead to strings in it. -/
structure Grows (h h' : HttpHeader) : Prop where
  content : Kept h.abHeader.content h'.abHeader.content
  values : ∀ v ∈ h'.headerValues, v ∈ h.headerValues ∨
    TextAt h'.abHeader.content v.1 ∧ TextAt h'.abHeader.content v.2
  cookies : ∀ p ∈ h'.cookies, p ∈ h.cookies ∨ PairAt h'.abHeader.content p
  params : h'.paramsValue = h.paramsValue

/-- Every reference leads to a string in the filled part of its buffer, and there
are parameters only where the body is complete. -/
structure Grounded (h : HttpHeader) : Prop where
  values : ∀ v ∈ h.headerValues,
    TextAt h.abHeader.content v.1 ∧ TextAt h.abHeader.content v.2
  cookies : ∀ p ∈ h.cookies, PairAt h.abHeader.content p
  params : ∀ p ∈ h.paramsValue, PairAt h.abParams.content p
  waits : h.bodyProcess ≠ .successful → h.paramsValue = []

variable {h h' h'' : HttpHeader} {f : Flow}

theorem Grows.of_content (hc : Kept h.abHeader.content h'.abHeader.content)
    (hv : h'.headerValues = h.headerValues) (hk : h'.cookies = h.cookies)
    (hp : h'.paramsValue = h.paramsValue) : Grows h h' :=
  ⟨hc, fun _ hm => .inl (hv ▸ hm), fun _ hm => .inl (hk ▸ hm), hp⟩

theorem Grows.refl (h : HttpHeader) : Grows h h := .of_content (Kept.refl _) rfl rfl rfl

theorem Grows.trans (h₁ : Grows h h') (h₂ : Grows h' h'') : Grows h h'' := by
  refine ⟨h₁.content.trans h₂.content, fun v hv => ?_, fun p hp => ?_, h₂.params.trans h₁.params⟩
  · rcases h₂.values v hv with hold | hnew
    · exact (h₁.values v hold).imp_right fun ht =>
        ⟨ht.1.kept h₂.content, ht.2.kept h₂.content⟩
    · exact .inr hnew
  · rcases h₂.cookies p hp with hold | hnew
    · exact (h₁.cookies p hold).imp_right fun ht => ht.kept h₂.content
    · exact .inr hnew

theorem method_grows (he : methodPart h l = some f) : Grows h f.header := by
  unfold methodPart at he
  split at he
  · cases he
    exact .refl h
  · obtain ⟨c, hchunk, he⟩ := Option.bind_eq_some_iff.mp he
    split at he <;> cases he
    · exact .refl h
    · exact .of_content (get_chunk_kept hchunk).1 rfl rfl rfl

theorem uri_grows (he : uriPart h l = some f) : Grows h f.header := by
  unfold uriPart at he
  split at he
  · cases he
    exact .refl h
  · obtain ⟨c, hchunk, he⟩ := Option.bind_eq_some_iff.mp he
    split at he
    · cases he
      exact .refl h
    · obtain ⟨last, -, he⟩ := Option.bind_eq_some_iff.mp he
      split at he <;> cases he <;> exact .of_content (get_chunk_kept hchunk).1 rfl rfl rfl

theorem params_grows (he : paramsPart h l = some f) : Grows h f.header := by
  unfold paramsPart at he
  split at he
  · obtain ⟨first, -, he⟩ := Option.bind_eq_some_iff.mp he
    split at he
    · obtain ⟨c, -, he⟩ := Option.bind_eq_some_iff.mp he
      split at he <;> cases he
      · exact .refl h
      · exact .of_content (Kept.refl _) rfl rfl rfl
    · cases he
      exact .refl h
  · cases he
    exact .refl h

theorem version_grows (he : versionPart h l = some f) : Grows h f.header := by
  unfold versionPart at he
  split at he
  · cases he
    exact .refl h
  · obtain ⟨c, hchunk, he⟩ := Option.bind_eq_some_iff.mp he
    split at he
    · cases he
      exact .refl h
    · obtain ⟨s, -, he⟩ := Option.bind_eq_some_iff.mp he
      cases he
      exact .of_content (get_chunk_kept hchunk).1 rfl rfl rfl

theorem add_header_grows (hkey : TextAt h.abHeader.content key)
    (hvalue : TextAt h.abHeader.content value) (he : addHeader h key value size = some h') :
    Grows h h' := by
  have hvalues : ∀ content, Kept h.abHeader.content content →
      ∀ v ∈ h.headerValues ++ [(key, value)],
        v ∈ h.headerValues ∨ TextAt content v.1 ∧ TextAt content v.2 := by
    intro content hk v hv
    rcases List.mem_append.mp hv with hold | hnew
    · exact .inl hold
    · rw [List.mem_singleton.mp hnew]
      exact .inr ⟨hkey.kept hk, hvalue.kept hk⟩
  unfold addHeader at he
  dsimp only at he
  split at he
  · cases he
    exact ⟨Kept.refl _, hvalues _ (Kept.refl _), fun _ hp => .inl hp, rfl⟩
  · split at he
    · obtain ⟨r, hparse, he⟩ := Option.bind_eq_some_iff.mp he
      cases he
      have hk := parse_loop_kept hparse
      exact ⟨hk, hvalues _ hk, parse_loop_pairs hparse (.inr hvalue) (Nat.le_refl _) (by simp)
        fun _ hp => .inl hp, rfl⟩
    · cases he
      exact ⟨Kept.refl _, hvalues _ (Kept.refl _), fun _ hp => .inl hp, rfl⟩

theorem header_line_grows (he : headerLine h l = some (h', l', whole))
    (hn : getChunk l.cursor space [colon] h.abHeader = some none → h.abHeader.NoWrap l.chunkSize) :
    Grows h h' := by
  unfold headerLine at he
  obtain ⟨key, hkey, he⟩ := Option.bind_eq_some_iff.mp he
  split at he
  · cases he
    exact .of_content (kept_decrement _ (hn hkey)) rfl rfl rfl
  · have hk := (get_chunk_kept hkey).1
    obtain ⟨value, hvalue, he⟩ := Option.bind_eq_some_iff.mp he
    split at he
    · cases he
      exact .of_content (hk.trans (kept_decrement _ (get_chunk_forward hkey))) rfl rfl rfl
    · obtain ⟨s, -, he⟩ := Option.bind_eq_some_iff.mp he
      obtain ⟨h₁, hadd, he⟩ := Option.bind_eq_some_iff.mp he
      cases he
      have hk' := (get_chunk_kept hvalue).1
      have hstored : Grows h { h with abHeader := _ } := .of_content (hk.trans hk') rfl rfl rfl
      exact hstored.trans (add_header_grows ((get_chunk_ends hkey).kept hk')
        (get_chunk_ends hvalue) hadd)

theorem header_loop_grows (he : headerLoop fuel h l = some (h', l')) (hu : h.LinesForward l) :
    Grows h h' := by
  induction fuel generalizing h l with
  | zero => cases he
  | succ fuel ih =>
    unfold headerLoop at he
    split at he
    · next hsize =>
      obtain ⟨blank, hblank, he⟩ := Option.bind_eq_some_iff.mp he
      split at he
      · cases he
        exact .of_content (Kept.refl _) rfl rfl rfl
      · next hno =>
        rw [Bool.eq_false_iff.mpr hno] at hblank
        obtain ⟨⟨h₁, l₁, whole⟩, hline, he⟩ := Option.bind_eq_some_iff.mp he
        have hg := header_line_grows hline (hu.missed hsize hblank)
        dsimp only at he
        split at he
        · next hwhole =>
          subst hwhole
          exact hg.trans (ih he ((header_line_forward hline).stays _))
        · cases he
          exact hg
    · cases he
      exact .refl _

theorem Grows.grounded (hg : Grows h h') (h₀ : Grounded h) (hp : h.paramsValue = []) :
    Grounded h' := by
  have hparams := hg.params.trans hp
  refine ⟨fun v hv => ?_, fun p hp' => ?_, fun p hp' => ?_, fun _ => hparams⟩
  · rcases hg.values v hv with hold | hnew
    · exact (h₀.values v hold).imp (·.kept hg.content) (·.kept hg.content)
    · exact hnew
  · rcases hg.cookies p hp' with hold | hnew
    · exact (h₀.cookies p hold).kept hg.content
    · exact hnew
  · rw [hparams] at hp'
    cases hp'

/-- The parameters are split when the body is complete, in the filled part. -/
theorem body_grounded (h₀ : Grounded h) (he : bodyPart h l = some (h', n)) : Grounded h' := by
  unfold bodyPart at he
  split at he
  · rename_i hb
    have hnone : h.paramsValue = [] := by
      refine h₀.waits fun hs => ?_
      rw [hs] at hb
      rcases hb with hb | hb <;> cases hb
    obtain ⟨⟨h₁, n₁⟩, htake, he⟩ := Option.bind_eq_some_iff.mp he
    have hsame := take_body_same htake
    have hgrows : Grows h h₁ :=
      .of_content (by rw [hsame.abHeader]; exact Kept.refl _) hsame.headerValues hsame.cookies
        hsame.paramsValue
    have h₁' := hgrows.grounded h₀ hnone
    dsimp only at he
    split at he
    · obtain ⟨r, hparse, he⟩ := Option.bind_eq_some_iff.mp he
      cases he
      have hpairs : ∀ p ∈ r.2, p ∈ ([] : ListPairs) ∨ PairAt r.1.content p :=
        parse_loop_pairs hparse (.inl (by rw [AutoBuffer.content_length, Nat.zero_add]))
          (Nat.le_refl 0) (by simp) (by rw [hsame.paramsValue, hnone]; simp)
      exact ⟨h₁'.values, h₁'.cookies, fun p hp => (hpairs p hp).resolve_left (by simp),
        fun hno => absurd ‹_› hno⟩
    · cases he
      exact h₁'
  · cases he
    exact h₀

theorem next_grounded (h₀ : Grounded h) (hp : h.paramsValue = [])
    (he : nextPart h l = some (h', n)) (hu : h.LinesForward l) : Grounded h' := by
  obtain ⟨⟨h₁, l₁⟩, hloop, he⟩ := Option.bind_eq_some_iff.mp he
  exact body_grounded ((header_loop_grows hloop hu).grounded h₀ hp) he

theorem first_grounded (h₀ : Grounded h) (hst : Staged h)
    (hfirst : h.headerProcess = .processingFirst) (hp : h.paramsValue = [])
    (he : (Flow.andThen (methodPart h l) fun h l => Flow.andThen (uriPart h l) fun h l =>
      Flow.andThen (paramsPart h l) fun h l => Flow.andThen (versionPart h l) nextPart) =
        some (h', n)) : Grounded h' := by
  obtain ⟨f, hf, hcase⟩ := and_then_some he
  have hg := method_grows hf
  have hk := method_keeps hf
  obtain ⟨-, hmethod⟩ := method_stores hf
  obtain ⟨k, rfl⟩ | ⟨h₁, l₁, rfl, he⟩ := hcase
  · exact hg.grounded h₀ hp
  have hbegun : 0 < h₁.abHeader.fillSize :=
    hk.begun hfirst (hst.begun hfirst) (hmethod _ _ rfl)
  obtain ⟨f, hf, hcase⟩ := and_then_some he
  replace hg := hg.trans (uri_grows hf)
  replace hk := hk.trans (uri_keeps hf)
  have hs := uri_stores hf
  obtain ⟨k, rfl⟩ | ⟨h₂, l₂, rfl, he⟩ := hcase
  · exact hg.grounded h₀ hp
  obtain ⟨f, hf, hcase⟩ := and_then_some he
  replace hg := hg.trans (params_grows hf)
  replace hk := hk.trans (params_keeps hf)
  replace hs := hs.trans (params_stores hf)
  obtain ⟨k, rfl⟩ | ⟨h₃, l₃, rfl, he⟩ := hcase
  · exact hg.grounded h₀ hp
  obtain ⟨f, hf, hcase⟩ := and_then_some he
  replace hg := hg.trans (version_grows hf)
  obtain ⟨k, rfl⟩ | ⟨h₄, l₄, rfl, he⟩ := hcase
  · exact hg.grounded h₀ hp
  · have hforward := version_forward hf (hk.version.trans (hst.version hfirst)) (hs.content.filled hbegun)
    exact next_grounded (hg.grounded h₀ hp) (hg.params.trans hp) he (hforward.stays _)

theorem process_grounded (hs : Staged h) (h₀ : Grounded h)
    (hu : h.StaysForward (buffer.take size) chunkSize)
    (he : h.processData buffer size chunkSize = some (h', n)) : Grounded h' := by
  have hempty : h.headerProcess = .processingFirst ∨ h.headerProcess = .processingNext →
      h.paramsValue = [] := by
    intro hp
    refine h₀.waits ?_
    rw [hs.body hp]
    decide
  cases hp : h.headerProcess with
  | processingFirst =>
    rw [processData, hp] at he
    exact first_grounded h₀ hs hp (hempty (.inl hp)) he
  | processingNext =>
    rw [processData, hp] at he
    exact next_grounded h₀ (hempty (.inr hp)) he (hu hp)
  | none | successful | error =>
    rw [processData, hp] at he
    exact body_grounded h₀ he

theorem grounded_of_empty (hv : h.headerValues = []) (hc : h.cookies = [])
    (hp : h.paramsValue = []) : Grounded h :=
  ⟨by simp [hv], by simp [hc], by simp [hp], fun _ => hp⟩

theorem ReachedForward.grounded (hr : ReachedForward h) : Grounded h := by
  induction hr with
  | new fresh => exact grounded_of_empty rfl rfl rfl
  | clear hr ih => exact grounded_of_empty rfl rfl rfl
  | processed hr hu he ih => exact process_grounded hr.reached.staged ih hu he

theorem find_name_inside {b : AutoBuffer UInt8} {pairs : List (Nat × γ)}
    (hp : ∀ p ∈ pairs, TextAt b.content p.1) (key : List UInt8) :
    ∃ found, b.findName key pairs = some found ∧ ∀ p ∈ found, p ∈ pairs := by
  induction pairs with
  | nil => exact ⟨none, rfl, by simp⟩
  | cons p pairs ih =>
    obtain ⟨found, hfound, hmem⟩ := ih fun q hq => hp q (List.mem_cons_of_mem p hq)
    rw [AutoBuffer.findName, string_at_text (hp p List.mem_cons_self)]
    simp only [Option.bind_eq_bind, Option.bind_some]
    split
    · exact ⟨some p, rfl, fun q hq => by cases hq; exact List.mem_cons_self⟩
    · exact ⟨found, hfound, fun q hq => List.mem_cons_of_mem p (hmem q hq)⟩

theorem Grounded.header_parameter (hg : Grounded h) (param : List UInt8)
    (d : Option (List UInt8)) :
    Checked.getHeaderParameter h param d = some (h.getHeaderParameter param d) := by
  obtain ⟨found, hfound, hmem⟩ := find_name_inside (fun v hv => (hg.values v hv).1) param
  have hread : ∃ r, Checked.getHeaderParameter h param d = some r := by
    rw [Checked.getHeaderParameter, hfound]
    cases found with
    | none => exact ⟨d, rfl⟩
    | some v =>
      have hvalue := (hg.values v (hmem v rfl)).2
      simp only [Option.bind_eq_bind, Option.bind_some, string_at_text hvalue]
      exact ⟨_, rfl⟩
  obtain ⟨r, hr⟩ := hread
  rw [hr, checked_header_parameter h hr]

/-- A lookup that looks for `npos` before it reads the value. -/
theorem value_inside {b : AutoBuffer UInt8} {pairs : ListPairs}
    (hp : ∀ p ∈ pairs, PairAt b.content p) (key : List UInt8) (d : Option (List UInt8)) :
    ∃ r, ((b.findName key pairs).bind fun
      | some (_, some value) => (b.stringAt value).map some
      | _ => some d) = some r := by
  obtain ⟨found, hfound, hmem⟩ := find_name_inside (fun p hm => (hp p hm).name) key
  rw [hfound]
  match found, hmem with
  | none, _ => exact ⟨d, rfl⟩
  | some (_, none), _ => exact ⟨d, rfl⟩
  | some (name, some value), hmem =>
    have hvalue := (hp _ (hmem _ rfl)).value value rfl
    simp only [Option.bind_some, string_at_text hvalue]
    exact ⟨_, rfl⟩

theorem Grounded.cookie (hg : Grounded h) (key : List UInt8) (d : Option (List UInt8)) :
    Checked.getCookie h key d = some (h.getCookie key d) := by
  obtain ⟨r, hr⟩ : ∃ r, Checked.getCookie h key d = some r := value_inside hg.cookies key d
  rw [hr, checked_cookie h hr]

theorem Grounded.parameter (hg : Grounded h) (key : List UInt8) (d : Option (List UInt8)) :
    Checked.getParameter h key d = some (h.getParameter key d) := by
  obtain ⟨r, hr⟩ : ∃ r, Checked.getParameter h key d = some r := value_inside hg.params key d
  rw [hr, checked_parameter h hr]

/-- The loop reads the value of every parameter with one of its names. -/
theorem fill_loop_inside_iff {b : AutoBuffer UInt8} {pairs : ListPairs}
    (hp : ∀ p ∈ pairs, PairAt b.content p) (sKey sKey2 : List UInt8) (rArray : List Int) :
    (Checked.fillLoop b sKey sKey2 pairs rArray).isSome ↔
      ∀ p ∈ pairs, strcaseEq sKey (cStr (b.buffer.drop p.1)) ∨
        strcaseEq sKey2 (cStr (b.buffer.drop p.1)) → p.2.isSome := by
  induction pairs generalizing rArray with
  | nil => simp [Checked.fillLoop]
  | cons p pairs ih =>
    have hat := hp p List.mem_cons_self
    have ih := ih fun q hq => hp q (List.mem_cons_of_mem p hq)
    rw [Checked.fillLoop, string_at_text hat.name, List.forall_mem_cons]
    simp only [Option.bind_eq_bind, Option.bind_some]
    split
    · rename_i hmatch
      cases hvalue : p.2 with
      | none => simp [hmatch]
      | some value =>
        simp only [Option.bind_some, string_at_text (hat.value value hvalue), ih,
          Option.isSome_some, implies_true, true_and]
    · rename_i hmatch
      rw [ih]
      simp [hmatch]

end HttpHeader

namespace HttpProcessor

/-- A ready request that has been read without moving the fill back, and what
`process_http` makes of it. -/
inductive Answering : HttpProcessor → Prop
  | ready (hr : h.ReachedForward) (hready : h.isReady = true) : Answering (ofRequest h)
  | call (ha : Answering p) (he : p.perform c = some p') : Answering p'

/-- The host and the port that are remembered are strings of the header buffer. -/
structure Grounded (p : HttpProcessor) : Prop where
  header : p.header.Grounded
  host : ∀ idx ∈ p.host, TextAt p.header.abHeader.content idx
  port : ∀ idx ∈ p.port, idx ≠ 0 → TextAt p.header.abHeader.content idx

/-- Every accessor reads strings of the filled parts only, and the lookups give what
they would give if they could read anywhere. -/
structure AccessorsInside (p : HttpProcessor) (key : List UInt8) : Prop where
  headerParameter : ∀ d, HttpHeader.Checked.getHeaderParameter p.header key d =
    some (p.header.getHeaderParameter key d)
  cookie : ∀ d, HttpHeader.Checked.getCookie p.header key d = some (p.header.getCookie key d)
  parameter : ∀ d, HttpHeader.Checked.getParameter p.header key d =
    some (p.header.getParameter key d)
  array : ∀ rArray, (HttpHeader.Checked.fillParameter2Array p.header key rArray).isSome
  host : (Checked.getHost p).isSome
  port : (Checked.getPort p).isSome

variable {p p' : HttpProcessor}

/-- The loop stops at a colon in front of the terminator. -/
theorem host_end_colon (h : hostEnd memory = some (n, true)) (he : memory[e]? = some nul) :
    n < e := by
  induction memory generalizing n e with
  | nil => cases h
  | cons c memory ih =>
    rw [hostEnd] at h
    split at h
    · cases h
    · rename_i hc
      cases e with
      | zero => exact absurd (Option.some.inj he) hc
      | succ e =>
        split at h
        · cases h
          exact Nat.succ_pos e
        · obtain ⟨⟨m, atColon⟩, hm, heq⟩ := Option.map_eq_some_iff.mp h
          cases heq
          exact Nat.succ_lt_succ (ih hm he)

theorem Grounded.calculate (hg : p.Grounded) :
    ∃ p', Checked.calculateHostPort p = some p' ∧ p'.Grounded := by
  obtain ⟨found, hfound, hmem⟩ :=
    HttpHeader.find_name_inside (fun v hv => (hg.header.values v hv).1) (ascii "Host")
  rw [Checked.calculateHostPort, hfound]
  cases found with
  | none => exact ⟨p, rfl, hg⟩
  | some v =>
    have hat := (hg.header.values v (hmem v rfl)).2
    obtain ⟨e, he⟩ := text_at_iff.mp hat
    have hend : (p.header.abHeader.content.drop v.2)[e]? = some nul := by
      rw [List.getElem?_drop, he]
    obtain ⟨n, atColon, hstop⟩ := host_end_some hend
    simp only [Option.bind_eq_bind, Option.bind_some, hstop]
    cases atColon with
    | false =>
      refine ⟨_, rfl, ⟨hg.header, fun idx hidx => ?_, fun idx hidx hne => ?_⟩⟩
      · cases hidx
        exact hat
      · cases hidx
        exact absurd rfl hne
    | true =>
      have hkept := kept_set_nul p.header.abHeader (v.2 + n)
      have hlt := host_end_colon hstop hend
      refine ⟨_, rfl, ⟨?_, fun idx hidx => ?_, fun idx hidx _ => ?_⟩⟩
      · exact ⟨fun v hv => (hg.header.values v hv).imp (·.kept hkept) (·.kept hkept),
          fun c hc => (hg.header.cookies c hc).kept hkept, hg.header.params, hg.header.waits⟩
      · cases hidx
        exact hat.kept hkept
      · cases hidx
        exact TextAt.kept (.of_nul he (by omega)) hkept

theorem Grounded.with_host (hg : p.Grounded) :
    ∃ p', Checked.withHost p = some p' ∧ p'.Grounded := by
  unfold Checked.withHost
  split
  · exact hg.calculate
  · exact ⟨p, rfl, hg⟩

theorem Grounded.get_host (hg : p.Grounded) :
    ∃ s p', Checked.getHost p = some (s, p') ∧ p'.Grounded := by
  obtain ⟨p', hp, hg'⟩ := hg.with_host
  rw [Checked.getHost, hp]
  cases hhost : p'.host with
  | none => exact ⟨[], p', by simp [hhost], hg'⟩
  | some idx =>
    exact ⟨cStr (p'.header.abHeader.buffer.drop idx), p',
      by simp [hhost, string_at_text (hg'.host idx hhost)], hg'⟩

theorem Grounded.get_port (hg : p.Grounded) :
    ∃ s p', Checked.getPort p = some (s, p') ∧ p'.Grounded := by
  obtain ⟨p', hp, hg'⟩ := hg.with_host
  rw [Checked.getPort, hp]
  match hport : p'.port with
  | none => exact ⟨[], p', by simp [hport], hg'⟩
  | some 0 => exact ⟨[], p', by simp [hport], hg'⟩
  | some (idx + 1) =>
    have hat := hg'.port _ hport (Nat.succ_ne_zero idx)
    exact ⟨cStr (p'.header.abHeader.buffer.drop (idx + 1)), p',
      by simp [hport, string_at_text hat], hg'⟩

/-- Calls that do not ask for the host leave the references as they are. -/
theorem Grounded.keep (hg : p.Grounded) (hh : p'.header = p.header) (hhost : p'.host = p.host)
    (hport : p'.port = p.port) : p'.Grounded :=
  ⟨by rw [hh]; exact hg.header, by rw [hh, hhost]; exact hg.host,
    by rw [hh, hport]; exact hg.port⟩

theorem Grounded.perform (hg : p.Grounded) (he : p.perform c = some p') : p'.Grounded := by
  obtain ⟨host, p₁, hhost, hg₁⟩ := hg.get_host
  obtain ⟨port, p₂, hport, hg₂⟩ := hg.get_port
  have hhost := checked_host p hhost
  have hport := checked_port p hport
  cases c with
  | getHost =>
    rw [HttpProcessor.perform, hhost] at he
    cases he
    exact hg₁
  | getPort =>
    rw [HttpProcessor.perform, hport] at he
    cases he
    exact hg₂
  | setCookie cookie value expire domain httpOnly =>
    cases domain with
    | some domain =>
      cases he
      exact hg.keep rfl rfl rfl
    | none =>
      rw [HttpProcessor.perform, hhost] at he
      cases he
      exact hg₁.keep rfl rfl rfl
  | setResponseStatus | setRedirect | setContentType | setContentDisposition | setLastModify
  | setHeaderParam =>
    cases he
    exact hg.keep rfl rfl rfl

theorem Answering.grounded (ha : Answering p) : p.Grounded := by
  induction ha with
  | ready hr hready => exact ⟨hr.grounded, by simp [ofRequest], by simp [ofRequest]⟩
  | call ha he ih => exact ih.perform he

/-- Only `fill_parameter2_array` reads a value without a look at `npos`: the reads
stay inside if and only if no parameter that it takes is without a value. -/
theorem accessors_inside_iff (ha : Answering p) (key : List UInt8) :
    p.AccessorsInside key ↔ ∀ q ∈ p.header.paramsValue,
      strcaseEq key (p.header.paramsText q.1) ∨
        strcaseEq (key ++ ascii "[]") (p.header.paramsText q.1) → q.2.isSome := by
  have hg := ha.grounded
  have hfill := HttpHeader.fill_loop_inside_iff hg.header.params key (key ++ ascii "[]")
  constructor
  · intro hi
    exact (hfill []).mp (hi.array [])
  · intro hall
    obtain ⟨host, p₁, hhost, -⟩ := hg.get_host
    obtain ⟨port, p₂, hport, -⟩ := hg.get_port
    exact {
      headerParameter := hg.header.header_parameter key
      cookie := hg.header.cookie key
      parameter := hg.header.parameter key
      array := fun rArray => (hfill rArray).mpr hall
      host := by rw [hhost]; rfl
      port := by rw [hport]; rfl }

def flagRequest : HttpProcessor :=
  let text := ascii "GET /?a=1&b HTTP/1.1\r\n\r\n"
  .ofRequest ((((HttpHeader.new fun _ => 0).processData text text.length 0).map Prod.fst).getD
    (HttpHeader.new fun _ => 0))

theorem flag_answering : Answering flagRequest :=
  .ready (HttpHeader.parsed_forward _) (by decide +kernel)

theorem value_read_inside : flagRequest.AccessorsInside (ascii "a") :=
  (accessors_inside_iff flag_answering (ascii "a")).mpr (by decide +kernel)

/-- The parameter `b` has no value, and `npos` is read for it. -/
theorem npos_read : ¬ ∀ (p : HttpProcessor) key, Answering p → p.AccessorsInside key := by
  intro h
  have harray := (h flagRequest (ascii "b") flag_answering).array []
  have hnone : (HttpHeader.Checked.fillParameter2Array flagRequest.header (ascii "b") []).isSome =
      false := by
    decide +kernel
  rw [hnone] at harray
  cases harray

end HttpProcessor

end Khorost
