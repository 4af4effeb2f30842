import Mathlib.Data.List.Induction
import Khorost.Proofs.Frames
import Khorost.Proofs.RoundTrip

namespace Khorost.Request

open HttpConnection

/-- What has arrived ends with the carriage return in front of the lines `left`. -/
def LineCut (r : Request) (arrived : List UInt8) (left : List Field) : Prop :=
  left <:+ r.fields ∧ r.serialize = arrived ++ lf :: r.linesFrom left

/-- What has arrived ends with the space behind a URI without a query. -/
def UriCut (r : Request) (arrived : List UInt8) : Prop :=
  r.query = none ∧ r.serialize = arrived ++ r.versionOn

def BodyCut (r : Request) (arrived : List UInt8) : Prop :=
  ∃ got left, got ≠ [] ∧ left ≠ [] ∧ r.body = got ++ left ∧ r.serialize = arrived ++ left

/-- The byte in memory behind the new data is there and is no question mark. -/
def Quiet (c : Connection HttpConnection) (data : List UInt8) : Prop :=
  ∃ b ∈ (Connection.readInto c.socketBuffer data).stale.head?, b ≠ question

/-- The arrival of `data` behind `before` keeps clear of the three places where
the parser goes wrong. -/
structure Careful (r : Request) (c : Connection HttpConnection) (before data : List UInt8) :
    Prop where
  line : ∀ left, LineCut r (before ++ data) left → Harmless left
  uri : UriCut r (before ++ data) → Quiet c data
  body : BodyCut r before → (before ++ data).length ≤ r.serialize.length

/-- The parser divides its data like one that shows the view. A tidy one shows it itself. -/
def Divides (tidy : Prop) (h : HttpHeader) (v : View) : Prop :=
  ∃ k, h.frame = k.frame ∧ (tidy → h = k) ∧ Shows k v

/-- The request is under way: `consumed` has been taken, `p` stands in the buffer.
The requests `done` have been processed before it. -/
structure Underway (r : Request) (u : Uninitialised) (done : List (HttpHeader × Nat)) (tidy : Prop)
    (arrived : List UInt8) (d : HttpConnection) (p : List UInt8) (t : Todo)
    (consumed : List UInt8) : Prop where
  split : consumed ++ p = arrived
  rest : consumed ++ r.rest t = r.serialize
  at_ : r.At t
  left : r.rest t ≠ []
  divides : Divides tidy (d.processor u) (r.view t)
  processed : d.processed = done
  taken : d.taken = consumed.length
  clean : tidy → Clean t

/-- The parser was ready with the request when it was processed. -/
def Served (r : Request) (tidy : Prop) (h : HttpHeader) : Prop :=
  ∃ seen params size k, HttpHeader.EndsAlike h k ∧ (tidy → h = k) ∧
    Shows k (r.readyView seen params size) ∧ Seen seen [] r.fields ∧
    (tidy → ∀ s ∈ seen, s.1 = false)

theorem Served.ready (hs : Served r tidy h) : h.isReady = true := by
  obtain ⟨seen, params, size, k, hends, -, hshows, -, -⟩ := hs
  rw [HttpHeader.isReady, hends.headerProcess, hends.bodyProcess]
  exact hshows.is_ready.mpr ⟨rfl, rfl⟩

theorem Served.body (hs : Served r tidy h) : h.getBody = r.body := by
  obtain ⟨seen, params, size, k, hends, -, hshows, -, -⟩ := hs
  rw [HttpHeader.getBody, hends.abBody]
  exact hshows.get_body

theorem Served.answers (hs : Served r tidy h) (ht : tidy) : Answers h r := by
  obtain ⟨seen, params, size, k, -, hsame, hshows, hseen, hclean⟩ := hs
  rw [hsame ht]
  exact answers_of_shows hshows hseen (hclean ht)

/-- The request has been processed and nothing of another one has been taken. -/
structure Finished (r : Request) (done : List (HttpHeader × Nat)) (tidy : Prop)
    (d : HttpConnection) : Prop where
  idle : d.httpProcessor = none
  taken : d.taken = 0
  processed : ∃ h, d.processed = done ++ [(h, r.serialize.length)] ∧ Served r tidy h

/-- The request has been the first to be processed behind those `done`. -/
def First (r : Request) (done : List (HttpHeader × Nat)) (tidy : Prop) (d : HttpConnection) :
    Prop :=
  ∃ h, done ++ [(h, r.serialize.length)] <+: d.processed ∧ Served r tidy h

theorem Finished.first (hf : Finished r done tidy d) : First r done tidy d := by
  obtain ⟨h, hp, hs⟩ := hf.processed
  exact ⟨h, hp ▸ List.prefix_rfl, hs⟩

theorem first_kept (hf : First r done tidy d)
    (h : dataProcessing u d buffer size = some (d', n)) : First r done tidy d' := by
  obtain ⟨h₀, hp, hs⟩ := hf
  exact ⟨h₀, hp.trans (processed_kept h), hs⟩

variable {r : Request} {u : Uninitialised} {done : List (HttpHeader × Nat)} {tidy : Prop}
  {arrived p consumed more stale data : List UInt8} {d : HttpConnection} {t : Todo}
  {c : Connection HttpConnection}

theorem not_ready_view (hs : Shows h (r.view t)) : h.isReady = false := by
  rw [Bool.eq_false_iff]
  intro hr
  obtain ⟨hh, hb⟩ := hs.is_ready.mp hr
  cases t with
  | body seen got left => cases hb
  | _ => cases hh

theorem waiting_view (hs : Shows h (r.view t)) : h.bodyProcess ≠ .successful := by
  rw [hs.bodyProcess]
  cases t <;> nofun

/-- One call at any stage of a request, by a parser that divides its data like one at this
stage. Where it is to be that parser, the call must not move the fill back. -/
theorem divided_outcome {h : HttpHeader} {w : Nat} (hs : Divides tidy h (r.view t))
    (hat : r.At t) (hne : p ≠ []) (ha : Arrival r t p more stale)
    (hforward : tidy → h.StaysForward p w) :
    ∃ h' k n, h.processData (p ++ stale) p.length w = some (h', n) ∧ n ≤ p.length ∧
      HttpHeader.Twin h' k ∧ (tidy → h' = k) ∧
      ((∃ t', Waits r t p k n t') ∨ ∃ seen, Completes r t p k n seen) := by
  obtain ⟨k, hframe, hsame, hshows⟩ := hs
  by_cases ht : tidy
  · obtain rfl := hsame ht
    obtain ⟨h', n, he, hle, hcase⟩ := process_outcome hshows hat hne ha (hforward ht)
    rw [Nat.zero_add] at he
    exact ⟨h', h', n, he, hle, .inl rfl, fun _ => rfl, hcase⟩
  · have hzero : k.StaysForward p 0 := fun _ _ _ _ => .inl (Nat.zero_le _)
    obtain ⟨k', n, he, hle, hcase⟩ := process_outcome hshows hat hne ha hzero
    rw [Nat.zero_add] at he
    obtain ⟨h', he', htwin⟩ := HttpHeader.process_twin hframe w he
    exact ⟨h', k', n, he', hle, htwin, fun h0 => absurd h0 ht, hcase⟩

theorem Underway.arrival (hu : Underway r u done tidy arrived d p t consumed)
    (hfits : arrived <+: r.serialize ++ more)
    (hline : ∀ left, LineCut r arrived left → Harmless left)
    (huri : UriCut r arrived → ∃ b ∈ stale.head?, b ≠ question)
    (hbody : ∀ seen got left, t = .body seen got left → got ≠ [] → p <+: left) :
    Arrival r t p more stale := by
  have hwhole : ∀ tail, p ++ tail = r.rest t → r.serialize = arrived ++ tail := by
    intro tail ht
    rw [← hu.rest, ← ht, ← hu.split, List.append_assoc]
  refine ⟨?_, fun tail left ht hl hsuffix => ?_, fun tail ht hq hv => ?_, hbody⟩
  · rw [← hu.split, ← hu.rest, List.append_assoc, List.prefix_append_right_inj] at hfits
    exact hfits
  · exact hline left ⟨hsuffix, by rw [← hl]; exact hwhole tail ht⟩
  · exact huri ⟨hq, by rw [← hv]; exact hwhole tail ht⟩

/-- One call of `data_processing` while the request is under way. -/
theorem underway_step (hu : Underway r u done tidy arrived d p t consumed) (hne : p ≠ [])
    (ha : Arrival r t p more stale) (hstuck : r.body ≠ [] ∨ arrived.length ≤ r.serialize.length)
    (htidy : tidy → ∀ left, ¬ LineCut r arrived left)
    (hforward : tidy → HttpConnection.StaysForward u d p stale) :
    ∃ d' n, dataProcessing u d (p ++ stale) p.length = some (d', n) ∧ n ≤ p.length ∧
      ((arrived.length < r.serialize.length ∧
        ∃ t' consumed', Underway r u done tidy arrived d' (p.drop n) t' consumed' ∧
          ∀ seen got left, t' = .body seen got left → got ≠ [] → p.drop n = []) ∨
      (Finished r done tidy d' ∧ consumed.length + n = r.serialize.length)) := by
  obtain ⟨h, k, n, he, hle, htwin, hsame, hcase⟩ :=
    divided_outcome hu.divides hu.at_ hne ha hforward
  have harrived : arrived.length = consumed.length + p.length := by
    rw [← hu.split, List.length_append]
  have hserialize : r.serialize.length = consumed.length + (r.rest t).length := by
    rw [← hu.rest, List.length_append]
  rcases hcase with ⟨t', hw⟩ | ⟨seen, hd⟩
  · have hshort : p.length < (r.rest t).length := by
      rcases hw.short with hlt | ⟨hb, -, hlt⟩
      · exact hlt
      · rcases hstuck with hs | hs
        · exact absurd hb hs
        · omega
    have hready := not_ready_view hw.shows
    have hnot : ¬ (n ≠ 0 ∧ h.isReady = true) := by
      rw [htwin.ready, hready]
      simp
    have hdivides : Divides tidy h (r.view t') :=
      ⟨k, htwin.frame (waiting_view hw.shows), hsame, hw.shows⟩
    refine ⟨_, n, processing_waits he hnot, hle,
      .inl ⟨by omega, t', consumed ++ p.take n, ⟨?_, ?_, hw.at_, ?_, hdivides, hu.processed, ?_, ?_⟩,
        hw.body⟩⟩
    · rw [List.append_assoc, List.take_append_drop, hu.split]
    · rw [List.append_assoc, hw.taken, hu.rest]
    · intro hnil
      have := congrArg List.length hw.taken
      rw [hnil, List.append_nil, List.length_take] at this
      omega
    · rw [List.length_append, List.length_take, Nat.min_eq_left hle]
      exact congrArg (· + n) hu.taken
    · intro ht
      refine hw.clean (hu.clean ht) (fun tail left hp hsuffix hl => ?_)
      refine htidy ht left ⟨hsuffix, ?_⟩
      rw [← hu.rest, ← hp, ← hu.split, List.append_assoc, hl]
  · obtain ⟨params, size, hshows⟩ := hd.shows
    have hn : n = (r.rest t).length := by
      have := congrArg List.length hd.taken
      rwa [List.length_take, Nat.min_eq_left hle] at this
    have hpos := List.length_pos_iff.mpr hu.left
    have hserved : Served r tidy h :=
      ⟨seen, params, size, k, htwin.ends, hsame, hshows, hd.fields,
        fun ht => hd.clean (hu.clean ht)⟩
    have hyes : n ≠ 0 ∧ h.isReady = true := ⟨by omega, hserved.ready⟩
    refine ⟨_, n, processing_serves he hyes, hle,
      .inr ⟨⟨rfl, rfl, h, ?_, hserved⟩, by omega⟩⟩
    rw [hu.processed, hu.taken, hserialize, hn]

/-- The connection waits for a request and has nothing of it. -/
structure Between (c : Connection HttpConnection) : Prop where
  fault : c.fault = false
  content : c.socketBuffer.content = []
  idle : c.derived.httpProcessor = none
  taken : c.derived.taken = 0

/-- Where a connection stands with the request once `arrived` is there. -/
inductive Stands (r : Request) (u : Uninitialised) (done : List (HttpHeader × Nat)) (tidy : Prop)
    (arrived : List UInt8) (c : Connection HttpConnection) : Prop
  | underway {t : Todo} {consumed : List UInt8} (short : arrived.length < r.serialize.length)
      (fault : c.fault = false)
      (under : Underway r u done tidy arrived c.derived c.socketBuffer.content t consumed)
      (body : ∀ seen got left, t = .body seen got left → got ≠ [] → c.socketBuffer.content = [])
  | finished (whole : arrived.length = r.serialize.length) (fault : c.fault = false)
      (content : c.socketBuffer.content = []) (served : Finished r done tidy c.derived)
  | passed (beyond : r.serialize.length < arrived.length) (first : First r done tidy c.derived)

theorem Between.stands (hb : Between c) (r : Request) (u : Uninitialised) (tidy : Prop) :
    Stands r u c.derived.processed tidy [] c := by
  have hu : Underway r u c.derived.processed tidy [] c.derived c.socketBuffer.content .method [] := by
    refine ⟨?_, rfl, trivial, r.serialize_nonempty, ?_, rfl, hb.taken, fun _ => trivial⟩
    · rw [hb.content]
      rfl
    · rw [processor, hb.idle]
      exact ⟨_, rfl, fun _ => rfl, shows_new _⟩
  exact .underway (List.length_pos_iff.mpr r.serialize_nonempty) hb.fault hu
    (fun _ _ _ ht => by cases ht)

/-- The data of a body that has arrived in part belongs to the body. -/
theorem Underway.body_arrival (hu : Underway r u done tidy arrived d p t consumed)
    (hbody : ∀ seen got left, t = .body seen got left → got ≠ [] → p = [])
    (hfits : arrived ++ data <+: r.serialize ++ more)
    (hcut : BodyCut r arrived → (arrived ++ data).length ≤ r.serialize.length) :
    ∀ seen got left, t = .body seen got left → got ≠ [] → p ++ data <+: left := by
  rintro seen got left rfl hg
  obtain rfl := hbody seen got left rfl hg
  obtain rfl : consumed = arrived := by rw [← hu.split, List.append_nil]
  have hrest : consumed ++ left = r.serialize := hu.rest
  have hlen := hcut ⟨got, left, hg, hu.left, hu.at_.2.1.symm, hrest.symm⟩
  rw [← hrest, List.length_append, List.length_append] at hlen
  rw [← hrest, List.append_assoc, List.prefix_append_right_inj] at hfits
  exact List.prefix_of_prefix_length_le hfits (List.prefix_append _ _) (by simpa using hlen)

theorem Underway.arrive (hu : Underway r u done tidy arrived d p t consumed) (data : List UInt8) :
    Underway r u done tidy (arrived ++ data) d (p ++ data) t consumed :=
  ⟨by rw [← List.append_assoc, hu.split], hu.rest, hu.at_, hu.left, hu.divides, hu.processed,
    hu.taken, hu.clean⟩

theorem Stands.read (hs : Stands r u done tidy arrived c) (hne : data ≠ [])
    (hfits : arrived ++ data <+: r.serialize ++ more) (hc : Careful r c arrived data)
    (hstuck : r.body ≠ [] ∨ (arrived ++ data).length ≤ r.serialize.length)
    (htidy : tidy → ∀ left, ¬ LineCut r (arrived ++ data) left)
    (hforward : tidy → c.ReadCalls (HttpConnection.StaysForward u) (dataProcessing u) data) :
    Stands r u done tidy (arrived ++ data) (c.stubConnRead (dataProcessing u) data) := by
  have hlen : 0 < data.length := List.length_pos_iff.mpr hne
  have keep : ∀ d m k d' n, First r done tidy d → dataProcessing u d m k = some (d', n) →
      First r done tidy d' := fun _ _ _ _ _ hf he => first_kept hf he
  cases hs with
  | passed beyond first =>
    exact .passed (by rw [List.length_append]; omega) (read_keep keep c data first)
  | finished whole fault content served =>
    exact .passed (by rw [List.length_append]; omega) (read_keep keep c data served.first)
  | @underway t consumed short fault under body =>
    let stale := (Connection.readInto c.socketBuffer data).stale
    let I : HttpConnection → List UInt8 → Prop := fun d p =>
      (∃ t consumed, Underway r u done tidy (arrived ++ data) d p t consumed ∧
        ∀ seen got left, t = .body seen got left → got ≠ [] → p <+: left) ∨
      (p = [] ∧ Finished r done tidy d ∧ (arrived ++ data).length = r.serialize.length)
    let J : HttpConnection → Prop := fun d =>
      First r done tidy d ∧ r.serialize.length < (arrived ++ data).length
    -- one call of `data_processing` on what is under way
    have call : ∀ d p t consumed, Underway r u done tidy (arrived ++ data) d p t consumed →
        (∀ seen got left, t = .body seen got left → got ≠ [] → p <+: left) → p ≠ [] →
        (tidy → HttpConnection.StaysForward u d p stale) → _ :=
      fun d p t consumed hu hb hp =>
        underway_step hu hp (hu.arrival hfits hc.line (fun hcut => hc.uri hcut) hb) hstuck htidy
    have step : ∀ d p, I d p → p ≠ [] → (tidy → HttpConnection.StaysForward u d p stale) → ∃ d' n,
        dataProcessing u d (p ++ stale) p.length = some (d', n) ∧
          ((n ≤ p.length ∧ I d' (p.drop n)) ∨ J d') := by
      rintro d p (⟨t, consumed, hu, hb⟩ | ⟨hnil, -, -⟩) hp hforward
      · obtain ⟨d', n, he, hle, hcase⟩ := call d p t consumed hu hb hp hforward
        refine ⟨d', n, he, ?_⟩
        rcases hcase with ⟨-, t', consumed', hu', hb'⟩ | ⟨hf, hn⟩
        · refine .inl ⟨hle, .inl ⟨t', consumed', hu', fun seen got left ht hg => ?_⟩⟩
          rw [hb' seen got left ht hg]
          exact List.nil_prefix
        · have htotal : (arrived ++ data).length = consumed.length + p.length := by
            rw [← hu.split, List.length_append]
          by_cases hend : n = p.length
          · exact .inl ⟨hle, .inr ⟨by rw [hend, List.drop_length], hf, by omega⟩⟩
          · exact .inr ⟨hf.first, by omega⟩
      · exact absurd hnil hp
    have hI : I c.derived (c.socketBuffer.content ++ data) :=
      .inl ⟨t, consumed, under.arrive data, under.body_arrival body hfits hc.body⟩
    rcases read_calls_rule (I := I) (J := J) stale rfl step
        (fun d m k d' n hJ he => ⟨first_kept hJ.1 he, hJ.2⟩) fault hne
        (Connection.ReadCalls.guard hforward) hI with
      ⟨hf, hI', hexit⟩ | hJ
    · by_cases hnil : (c.stubConnRead (dataProcessing u) data).socketBuffer.content = []
      · rcases hI' with ⟨t', consumed', hu', -⟩ | ⟨-, hfin, hlen'⟩
        · refine .underway ?_ hf hu' (fun _ _ _ _ _ => hnil)
          have hleft := List.length_pos_iff.mpr hu'.left
          rw [← hu'.rest, ← hu'.split, hnil, List.append_nil, List.length_append]
          omega
        · exact .finished hlen' hf hnil hfin
      · obtain ⟨d₀, hI₀, hP₀, he₀⟩ := hexit.resolve_left hnil
        obtain ⟨t₀, consumed₀, hu₀, hb₀⟩ := hI₀.resolve_right (fun h0 => hnil h0.1)
        obtain ⟨d', n, he, -, hcase⟩ := call d₀ _ t₀ consumed₀ hu₀ hb₀ hnil hP₀
        obtain ⟨rfl, rfl⟩ := Prod.mk.inj (Option.some.inj (he₀.symm.trans he))
        rcases hcase with ⟨hshort, t', consumed', hu', hb'⟩ | ⟨-, hn⟩
        · exact .underway hshort hf hu' hb'
        · rw [← hu₀.rest, List.length_append] at hn
          have hleft := List.length_pos_iff.mpr hu₀.left
          omega
    · exact .passed hJ.2 hJ.1

end Khorost.Request
