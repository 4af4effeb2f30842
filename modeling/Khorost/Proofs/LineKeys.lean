import Khorost.Proofs.Arrivals
import Khorost.Proofs.OpenLines

namespace Khorost

open Scan

namespace HttpHeader

/-- Every name that the header loop finds in a text stands within one line. -/
inductive Lined : List UInt8 → Prop
  | short (hp : p.length < 2) : Lined p
  | blank (rest : List UInt8) : Lined (cr :: lf :: rest)
  | nameOpen (ho : Open space [colon] p) : Lined p
  | textOpen (hk : Lexeme space [colon] p gap name stop rest) (ho : Open space [cr, lf] rest) :
      Lined p
  | line (hk : Lexeme space [colon] p gap₁ name stop₁ rest₁)
      (hv : Lexeme space [cr, lf] rest₁ gap₂ text stop₂ rest₂) (hname : ∀ c ∈ name, Plain c)
      (hl : Lined (afterLineEnd rest₂)) : Lined p

/-- The first line is not complete, and what stands behind the data is not taken
for the beginning of the parameters. -/
structure FirstOpen (h : HttpHeader) (p stale : List UInt8) : Prop where
  none : ∀ chunks rest, ¬ FirstLine h [] p chunks rest
  quiet : UriExhausts h p → stale.head? ≠ some question

/-- The data of a call, with `stale` behind them, hold no header line without a
colon that is followed by a line with one. -/
structure Within (h : HttpHeader) (p stale : List UInt8) : Prop where
  first : h.headerProcess = .processingFirst →
    (∃ chunks rest, FirstLine h [] p chunks rest ∧ Lined rest) ∨ FirstOpen h p stale
  next : h.headerProcess = .processingNext → Lined p

/-- No key of a header line has a line end in it. -/
def KeysPlain (h : HttpHeader) : Prop :=
  ∀ v ∈ h.headerValues, ∀ c ∈ h.headerText v.1, Plain c

/-- Every key is a terminated text of the header buffer without a line end. -/
def KeysAt (h : HttpHeader) : Prop := ∀ v ∈ h.headerValues, PlainAt h.abHeader.content v.1

variable {h h' : HttpHeader} {p rest stale : List UInt8}

theorem KeysAt.plain (hk : KeysAt h) : KeysPlain h := by
  intro v hv
  rw [headerText, h.abHeader.buffer_split]
  exact (hk v hv).c_str _

theorem KeysAt.keep (hk : KeysAt h) (hv : h'.headerValues = h.headerValues)
    (hc : Kept h.abHeader.content h'.abHeader.content) : KeysAt h' := by
  intro v hv'
  rw [hv] at hv'
  exact (hk v hv').kept hc

theorem chunk_plain (b : AutoBuffer UInt8) (gap : List UInt8) (stop : UInt8)
    (hname : ∀ c ∈ name, Plain c) :
    PlainAt (withChunk b gap name stop).content (b.fillSize + gap.length) := by
  have hlen : b.fillSize + gap.length = (b.content ++ gap).length := by
    rw [List.length_append, AutoBuffer.content_length]
  rw [chunk_content, hlen]
  refine ⟨name.length, ?_, fun i hi c hc => hname c ?_⟩
  · rw [← List.length_append, List.getElem?_concat_length]
  · rw [List.append_assoc (b.content ++ gap), List.getElem?_append_right (by omega),
      Nat.add_sub_cancel_left, List.getElem?_append_left hi] at hc
    exact List.mem_of_getElem? hc

theorem add_header_keys (hk : KeysAt h) (hplain : PlainAt h.abHeader.content key)
    (he : addHeader h key value size = some h') : KeysAt h' := by
  have hkeys : ∀ content, Kept h.abHeader.content content →
      ∀ v ∈ h.headerValues ++ [(key, value)], PlainAt content v.1 := by
    intro content hc v hv
    rcases List.mem_append.mp hv with hold | hnew
    · exact (hk v hold).kept hc
    · rw [List.mem_singleton.mp hnew]
      exact hplain.kept hc
  unfold addHeader at he
  dsimp only at he
  split at he
  · cases he
    exact hkeys _ (Kept.refl _)
  · split at he
    · obtain ⟨r, hparse, he⟩ := Option.bind_eq_some_iff.mp he
      cases he
      exact hkeys _ (parse_loop_kept hparse)
    · cases he
      exact hkeys _ (Kept.refl _)

theorem loop_keys (hk : KeysAt h)
    (he : headerLoop (fuel + 1) h (localsAt p stale start u) = some (h', l))
    (hline : 2 ≤ p.length → ¬ [cr, lf] <+: p → KeysAt h') : KeysAt h' := by
  by_cases hp : 2 ≤ p.length
  · by_cases hc : [cr, lf] <+: p
    · obtain ⟨rest, rfl⟩ := hc
      rw [List.cons_append, List.cons_append, List.nil_append, blank_pass] at he
      cases he
      exact hk.keep rfl (Kept.refl _)
    · exact hline hp hc
  · rw [loop_short h (Nat.lt_of_not_le hp)] at he
    cases he
    exact hk

theorem lined_keys (hl : Lined p) (hk : KeysAt h) (hu : h.abHeader.StaysForward p u)
    (he : headerLoop fuel h (localsAt p stale start u) = some (h', l)) : KeysAt h' := by
  induction hl generalizing h start u fuel with
  | short hp =>
    cases fuel with
    | zero => cases he
    | succ fuel => exact loop_keys hk he fun hlen => absurd hp (Nat.not_lt.mpr hlen)
  | blank rest =>
    cases fuel with
    | zero => cases he
    | succ fuel => exact loop_keys hk he fun _ hc => absurd ⟨rest, rfl⟩ hc
  | nameOpen ho =>
    cases fuel with
    | zero => cases he
    | succ fuel =>
      refine loop_keys hk he fun hp hc => ?_
      rw [loop_name_open h hp hc ho] at he
      cases he
      exact hk.keep rfl (kept_decrement _ (hu hp hc (open_no_colon ho)))
  | @textOpen p gap name stop rest hname ho =>
    cases fuel with
    | zero => cases he
    | succ fuel =>
      refine loop_keys hk he fun hp hc => ?_
      rw [loop_text_open h hp hc hname ho] at he
      cases he
      have hsize : (withChunk h.abHeader gap name stop).NoWrap (gap.length + name.length + 1) :=
        AutoBuffer.no_wrap_of_fill (by rw [with_chunk_fill]; omega)
      exact hk.keep rfl ((with_chunk_kept _ _ _ _).trans (kept_decrement _ hsize))
  | @line p gap₁ name stop₁ rest₁ gap₂ text stop₂ rest₂ hname hv hplain hl ih =>
    cases fuel with
    | zero => cases he
    | succ fuel =>
      refine loop_keys hk he fun hp hc => ?_
      let key := withChunk h.abHeader gap₁ name stop₁
      obtain ⟨h₁, hadd⟩ := add_token_total hv { h with abHeader := key }
        (h.abHeader.fillSize + gap₁.length)
      have hskip := skip_line_end rest₂ stale (gap₁.length + name.length + 1)
      rw [loop_whole h hp hc hname hv hskip hadd] at he
      have hstored := with_chunk_kept key gap₂ text stop₂
      have hassigned := HttpHeader.skip_line_end_size hskip
      have hsize := AutoBuffer.no_wrap_of_fill (b := h₁.abHeader) (n := gap₁.length + name.length +
        1 + (rest₂.length - (afterLineEnd rest₂).length)) (by rw [line_fill hadd]; omega)
      refine ih (add_header_keys ?_ ?_ hadd) (hsize.stays _) he
      · exact hk.keep rfl ((with_chunk_kept h.abHeader gap₁ name stop₁).trans hstored)
      · exact (chunk_plain h.abHeader gap₁ stop₁ hplain).kept hstored

theorem body_keys (hk : KeysAt h) (he : bodyPart h l = some (h', n)) : KeysAt h' := by
  obtain ⟨-, hheader, hvalues⟩ := body_header he
  exact hk.keep hvalues (by rw [hheader]; exact Kept.refl _)

theorem next_keys (hl : Lined p) (hk : KeysAt h) (hu : h.abHeader.StaysForward p u)
    (he : nextPart h (localsAt p stale start u) = some (h', n)) : KeysAt h' := by
  obtain ⟨⟨h₁, l⟩, hloop, he⟩ := Option.bind_eq_some_iff.mp he
  exact body_keys (lined_keys hl hk hu hloop) he

/-- A part of the first line that is taken is followed by the next part. -/
theorem PartTaken.then {part : HttpHeader → Locals → Option Flow}
    {next : HttpHeader → Locals → Option (HttpHeader × Nat)}
    (ht : PartTaken part h p h₁ rest chunks)
    (he : Flow.andThen (part h (localsAt p stale start u)) next = some r) :
    ∃ start u, next h₁ (localsAt rest stale start u) = some r := by
  have hgo := ht.goes []
  rw [List.append_nil, List.append_nil] at hgo
  obtain ⟨u', hpart⟩ := hgo.goes stale start u
  rw [hpart] at he
  exact ⟨_, u', he⟩

theorem PartTaken.keys {part : HttpHeader → Locals → Option Flow}
    (ht : PartTaken part h p h₁ rest chunks) (hk : KeysAt h) : KeysAt h₁ :=
  hk.keep ht.values ht.kept

theorem Returns.same {part : HttpHeader → Locals → Option Flow}
    {next : HttpHeader → Locals → Option (HttpHeader × Nat)} (hr : Returns part h p)
    (he : Flow.andThen (part h (localsAt p stale start u)) next = some (h', n)) : h' = h := by
  rw [hr] at he
  cases he
  rfl

theorem method_taken_or (h : HttpHeader) (p : List UInt8) :
    (∃ chunks rest, MethodTaken h p chunks rest) ∨ Returns methodPart h p := by
  rcases method_cases h p with ⟨rest, hm⟩ | hr
  · left
    unfold MethodEnds at hm
    split at hm
    · rename_i hv
      exact ⟨_, _, .known hv⟩
    · rename_i hv
      obtain ⟨gap, token, stop, ht⟩ := hm
      exact ⟨_, _, .token hv ht⟩
  · exact .inr hr

theorem uri_taken_or (h : HttpHeader) (p : List UInt8) :
    (∃ chunks rest, UriTaken h p chunks rest) ∨ Returns uriPart h p := by
  rcases uri_cases h p with ⟨rest, hm⟩ | hr
  · left
    unfold UriEnds at hm
    split at hm
    · rename_i hv
      exact ⟨_, _, .known hv⟩
    · rename_i hv
      obtain ⟨gap, token, stop, behind, ht, -⟩ := hm
      exact ⟨_, _, .token hv ht⟩
  · exact .inr hr

theorem MethodTaken.ends (hm : MethodTaken h p chunks rest) : MethodEnds h p rest := by
  unfold MethodEnds
  cases hm with
  | known hv => rw [if_pos hv]
  | token hv ht =>
    rw [if_neg hv]
    exact ⟨_, _, _, ht⟩

theorem UriTaken.ends (hu : UriTaken h p chunks rest) : UriEnds h p rest := by
  unfold UriEnds
  cases hu with
  | known hv => rw [if_pos hv]
  | token hv ht =>
    rw [if_neg hv]
    exact ⟨_, _, _, _, ht, rfl⟩

theorem params_taken_or (h : HttpHeader) (hp : h.abParams.fillSize = 0 → p ≠ []) :
    (∃ rest, ParamsTaken h p rest) ∨ Returns paramsPart h p := by
  by_cases hf : h.abParams.fillSize = 0
  · obtain ⟨c, p, rfl⟩ := List.exists_cons_of_ne_nil (hp hf)
    by_cases hc : c = question
    · subst hc
      rcases token_or_open question [space] p with ⟨gap, token, stop, rest, ht⟩ | ho
      · exact .inl ⟨_, .token hf ht⟩
      · exact .inr (params_open_returns hf ho)
    · exact .inl ⟨_, .other hf hc p⟩
  · exact .inl ⟨_, .known hf p⟩

/-- Where the data and the URI end together, the byte behind them is looked at. -/
theorem params_exhausted (hf : h.abParams.fillSize = 0) (hq : stale.head? ≠ some question)
    (he : Flow.andThen (paramsPart h (localsAt [] stale start u)) next = some r) :
    next h (localsAt [] stale start u) = some r := by
  cases stale with
  | nil =>
    rw [paramsPart, if_pos hf] at he
    cases he
  | cons c stale =>
    have hc : c ≠ question := by simpa using hq
    have hpart : paramsPart h (localsAt [] (c :: stale) start u) =
        some (.next h (localsAt [] (c :: stale) start u)) := by
      rw [paramsPart, if_pos hf]
      exact if_neg hc
    rw [hpart] at he
    exact he

theorem version_keys (hv : h.queryVersion = none) (hb : 0 < h.abHeader.fillSize) (hk : KeysAt h)
    (ht : Lexeme space [cr, lf] p gap version stop behind) (hl : Lined (afterLineEnd behind))
    (he : Flow.andThen (versionPart h (localsAt p stale start u)) nextPart = some (h', n)) :
    KeysAt h' := by
  have hstored : KeysAt { h with
      abHeader := withChunk h.abHeader gap version stop
      queryVersion := some (h.abHeader.fillSize + gap.length)
      headerProcess := .processingNext } := hk.keep rfl (with_chunk_kept _ _ _ _)
  have hskip := skip_line_end behind stale (gap.length + version.length + 1)
  have hassigned := HttpHeader.skip_line_end_size hskip
  have hsize := AutoBuffer.no_wrap_of_fill (b := withChunk h.abHeader gap version stop)
    (n := gap.length + version.length + 1 + (behind.length - (afterLineEnd behind).length))
    (by rw [with_chunk_fill]; omega)
  rw [version_token_goes hv ht hskip] at he
  exact next_keys hl hstored (hsize.stays _) he

/-- The parts of the first line, in the order in which they are read. -/
abbrev firstPart (h : HttpHeader) (l : Locals) : Option (HttpHeader × Nat) :=
  Flow.andThen (methodPart h l) fun h l => Flow.andThen (uriPart h l) fun h l =>
    Flow.andThen (paramsPart h l) fun h l => Flow.andThen (versionPart h l) nextPart

theorem first_line_keys (hf : FirstLine h [] p chunks rest) (hl : Lined rest) (hs : Staged h)
    (hfirst : h.headerProcess = .processingFirst) (hk : KeysAt h)
    (he : firstPart h (localsAt p stale start u) = some (h', n)) : KeysAt h' := by
  obtain @⟨method, p₁, uri, p₂, p₃, gap, version, stop, p₄, _, hm, hu, hp, ht, hend⟩ := hf
  rw [List.append_nil, List.append_nil] at hend
  obtain ⟨h₁, hgo₁, hmethod, huri, hparams⟩ := hm.taken
  obtain ⟨_, _, he⟩ := hgo₁.then he
  obtain ⟨h₂, hgo₂, hparams'⟩ := (hu.of_known huri).taken
  obtain ⟨_, _, he⟩ := hgo₂.then he
  obtain ⟨h₃, hgo₃⟩ := (hp.of_params (hparams'.trans hparams)).taken
  obtain ⟨_, _, he⟩ := hgo₃.then he
  have hkeeps := (hgo₁.keeps.trans hgo₂.keeps).trans hgo₃.keeps
  have hkeys := hgo₃.keys (hgo₂.keys (hgo₁.keys hk))
  have hbegun := (hgo₂.kept.trans hgo₃.kept).filled (hmethod (hs.begun hfirst))
  exact version_keys (hkeeps.version.trans (hs.version hfirst)) hbegun hkeys ht (by rwa [hend]) he

/-- Without a complete first line no header line is read. -/
theorem first_open_keys (ho : FirstOpen h p stale) (hp : h.headerProcess = .processingFirst)
    (hv : h.queryVersion = none) (hk : KeysAt h)
    (he : firstPart h (localsAt p stale start u) = some (h', n)) : KeysAt h' := by
  rcases method_taken_or h p with ⟨m, p₁, hm⟩ | hr
  · obtain ⟨h₁, hgo₁, -, huri, hparams⟩ := hm.taken
    obtain ⟨_, _, he⟩ := hgo₁.then he
    rcases uri_taken_or h₁ p₁ with ⟨w, p₂, hu⟩ | hr
    · obtain ⟨h₂, hgo₂, hparams'⟩ := hu.taken
      obtain ⟨_, _, he⟩ := hgo₂.then he
      have hkeeps := hgo₁.keeps.trans hgo₂.keeps
      have hkeys := hgo₂.keys (hgo₁.keys hk)
      have hsame := hparams'.trans hparams
      by_cases hends : h₂.abParams.fillSize = 0 ∧ p₂ = []
      · obtain ⟨hempty, rfl⟩ := hends
        have hexhausts : UriExhausts h p := by
          rw [hsame] at hempty
          exact ⟨hp, hempty, p₁, hm.ends, (hu.of_known huri.symm).ends⟩
        have he := params_exhausted hempty (ho.quiet hexhausts) he
        have hopen : Open space [cr, lf] [] := open_of_clear space (by simp)
        rw [(version_open_returns (hkeeps.version.trans hv) hopen).same he]
        exact hkeys
      · rw [not_and] at hends
        rcases params_taken_or h₂ hends with ⟨p₃, hpt⟩ | hr
        · obtain ⟨h₃, hgo₃⟩ := hpt.taken
          obtain ⟨_, _, he⟩ := hgo₃.then he
          rcases token_or_open space [cr, lf] p₃ with ⟨gap, version, stop, behind, ht⟩ | hopen
          · refine absurd (.ends hm (hu.of_known huri.symm) (hpt.of_params hsame.symm) ht ?_)
              (ho.none _ (afterLineEnd behind))
            rw [List.append_nil, List.append_nil]
          · have hnone := (hkeeps.trans hgo₃.keeps).version.trans hv
            rw [(version_open_returns hnone hopen).same he]
            exact hgo₃.keys hkeys
        · rw [hr.same he]
          exact hkeys
    · rw [hr.same he]
      exact hgo₁.keys hk
  · rw [hr.same he]
    exact hk

/-- A call whose data hold every name within one line keeps the keys so. -/
theorem within_keys (hs : Staged h) (hw : Within h p stale) (hu : h.StaysForward p u)
    (hk : KeysAt h)
    (he : h.processData (p ++ stale) p.length u = some (h', n)) : KeysAt h' := by
  cases hp : h.headerProcess with
  | processingFirst =>
    rw [processData, hp] at he
    have he : firstPart h (localsAt p stale 0 u) = some (h', n) := he
    rcases hw.first hp with ⟨chunks, rest, hf, hl⟩ | ho
    · exact first_line_keys hf hl hs hp hk he
    · exact first_open_keys ho hp (hs.version hp) hk he
  | processingNext =>
    rw [processData, hp] at he
    have he : nextPart h (localsAt p stale 0 u) = some (h', n) := he
    exact next_keys (hw.next hp) hk (hu hp) he
  | none | successful | error =>
    rw [processData, hp] at he
    exact body_keys hk he

end HttpHeader

namespace HttpConnection

/-- No key of a request that has been processed or is being read has a line end
in it. -/
def KeysWithinLines (d : HttpConnection) : Prop :=
  (∀ r ∈ d.processed, r.1.KeysPlain) ∧ ∀ h ∈ d.httpProcessor, h.KeysPlain

/-- Where every call gets data whose names stand within one line each and does not move the
fill back, all the keys of the run stand within one line. -/
theorem serve_keys (u : Uninitialised) (fresh : Nat → UInt8) (segments : List (List UInt8))
    (hw : (Connection.idle fresh start).RunCalls
      (fun d p stale => (d.processor u).Within p stale ∧ StaysForward u d p stale)
      (dataProcessing u) segments) :
    (serve u fresh segments).derived.KeysWithinLines := by
  let J : HttpConnection → Prop := fun d => (∀ h ∈ d.httpProcessor, h.Staged ∧ h.KeysAt) ∧
    ∀ r ∈ d.processed, r.1.KeysAt
  have keep : ∀ d p stale d' n, J d →
      (d.processor u).Within p stale ∧ StaysForward u d p stale →
      dataProcessing u d (p ++ stale) p.length = some (d', n) → J d' := by
    intro d p stale d' n hJ hp hdp
    obtain ⟨hcurrent, hdone⟩ := hJ
    cases he : (d.processor u).processData (p ++ stale) p.length (u.chunkSize d.calls) with
    | none =>
      rw [dataProcessing, he] at hdp
      cases hdp
    | some result =>
      obtain ⟨h, k⟩ := result
      have hold : (d.processor u).Staged ∧ (d.processor u).KeysAt := by
        unfold processor
        cases hh : d.httpProcessor with
        | none => exact ⟨(HttpHeader.Reached.new _).staged, fun v hv => (by cases hv)⟩
        | some h => exact hcurrent h hh
      have hstaged := HttpHeader.process_staged hold.1 he
      have hkeys := HttpHeader.within_keys hold.1 hp.1 hp.2 hold.2 he
      by_cases hready : k ≠ 0 ∧ h.isReady = true
      · rw [processing_serves he hready] at hdp
        cases hdp
        refine ⟨fun h' hh => (by cases hh), fun r hr => ?_⟩
        rcases List.mem_append.mp hr with hr | hr
        · exact hdone r hr
        · rw [List.mem_singleton.mp hr]
          exact hkeys
      · rw [processing_waits he hready] at hdp
        cases hdp
        exact ⟨fun h' hh => by cases hh; exact ⟨hstaged, hkeys⟩, hdone⟩
  have hrun : J (serve u fresh segments).derived :=
    hw.keep keep ⟨fun h' hh => (by cases hh), fun r hr => (by cases hr)⟩
  exact ⟨fun r hr => (hrun.2 r hr).plain, fun h hh => (hrun.1 h hh).2.plain⟩

/-- A request with a `Host`, in one piece. -/
theorem host_within_line : (serve Request.zeros (fun _ => 0)
    [ascii "GET / HTTP/1.1\r\nHost:a\r\n\r\n"]).derived.KeysWithinLines := by
  let text := ascii "GET / HTTP/1.1\r\nHost:a\r\n\r\n"
  let behind := ascii "Host:a\r\n\r\n"
  refine serve_keys Request.zeros (fun _ => 0) [text] ⟨fun _ _ => ?_, trivial⟩
  let b := Connection.readInto (AutoBuffer.empty fun _ => 0) text
  have hfill : b.fillSize = text.length := by decide +kernel
  have hbuffer : b.buffer = text ++ b.stale := by
    rw [b.buffer_split, Connection.read_into_content]
    rfl
  change LoopCalls _ _ b.buffer b.fillSize b.fillSize 0 start
  rw [hbuffer, hfill]
  have hmethod : Lexeme space [space] text [] (ascii "GET") space
      (ascii "/ HTTP/1.1\r\n" ++ behind) :=
    ⟨by decide +kernel, by simp, by decide, by decide +kernel, by decide⟩
  have huri : Lexeme space [question, space] (ascii "/ HTTP/1.1\r\n" ++ behind) [] (ascii "/") space
      (ascii "HTTP/1.1\r\n" ++ behind) :=
    ⟨by decide +kernel, by simp, by decide, by decide +kernel, by decide⟩
  have hversion : Lexeme space [cr, lf] (ascii "HTTP/1.1\r\n" ++ behind) [] (ascii "HTTP/1.1") cr
      (lf :: behind) :=
    ⟨by decide +kernel, by simp, by decide, by decide +kernel, by decide⟩
  have hname : Lexeme space [colon] behind [] (ascii "Host") colon (ascii "a\r\n\r\n") :=
    ⟨by decide +kernel, by simp, by decide, by decide +kernel, by decide⟩
  have hvalue : Lexeme space [cr, lf] (ascii "a\r\n\r\n") [] (ascii "a") cr (ascii "\n\r\n") :=
    ⟨by decide +kernel, by simp, by decide, by decide +kernel, by decide⟩
  have hfirst : ∃ chunks, (processor Request.zeros start).FirstLine [] text chunks behind :=
    ⟨_, .ends (.token (by decide) hmethod) (.token (by decide) huri)
      (.other (by decide) (by decide) _) hversion rfl⟩
  have hlined : HttpHeader.Lined behind := 
    .line hname hvalue (by unfold Plain; decide +kernel) (.blank [])
  have htaken : (dataProcessing Request.zeros start (text ++ b.stale) text.length).map Prod.snd =
      some text.length := by
    decide +kernel
  obtain ⟨chunks, hfirst⟩ := hfirst
  refine .once ⟨⟨fun _ => .inl ⟨chunks, behind, hfirst, hlined⟩, nofun⟩,
    forward_of_zero (fun _ => rfl) _ _ _⟩ (fun d' n he => ?_) _
  rw [he] at htaken
  exact Option.some.inj htaken

/-- A line without a colon takes the blank line and the next request into a key. -/
theorem next_request_absorbed : ¬ ∀ (u : Uninitialised) fresh segments,
    (serve u fresh segments).derived.KeysWithinLines := by
  intro h
  let segments := [ascii "GET / HTTP/1.1\r\nfoo\r\n\r\nGET / HTTP/1.1\r\nHost:a\r\n\r\n"]
  have hstored : (serve Request.zeros (fun _ => 0) segments).derived.processed.any
      (fun r => r.1.headerValues.any fun v => cr ∈ r.1.headerText v.1) = true := by
    decide +kernel
  obtain ⟨r, hr, hstored⟩ := List.any_eq_true.mp hstored
  obtain ⟨v, hv, hcr⟩ := List.any_eq_true.mp hstored
  have hplain := (h Request.zeros (fun _ => 0) segments).1 r hr v hv cr (of_decide_eq_true hcr)
  exact hplain.1 rfl

end HttpConnection

end Khorost
