import Khorost.Proofs.Heads
import Khorost.Proofs.Arrivals

namespace Khorost

open HttpConnection

/-- A whole number as it is written, with blanks around it. -/
def Numeral (s : List UInt8) (n : Int) : Prop :=
  ∃ before sign digits after, s = before ++ (sign ++ (digits ++ after)) ∧
    (∀ c ∈ before ++ after, c ∈ [space, 9]) ∧
    ∃ k : Nat, Decimal digits k ∧ (n = k ∧ sign ∈ [[], [43]] ∨ n = -k ∧ sign = [45])

theorem blank_space (h : c ∈ [space, 9]) : isSpace c = true ∧ isDigit c = false := by
  rcases List.mem_pair.mp h with rfl | rfl <;> decide

theorem Decimal.head (h : Decimal s n) : ∃ c tail, s = c :: tail ∧ isDigit c = true := by
  cases s with
  | nil => exact absurd rfl h.nonempty
  | cons c tail => exact ⟨c, tail, rfl, h.digits c List.mem_cons_self⟩

theorem take_digits (hd : Decimal digits k) (hafter : ∀ c ∈ after, isDigit c = false) :
    (digits ++ after).takeWhile isDigit = digits := by
  rw [List.takeWhile_append_of_pos hd.digits]
  cases after with
  | nil => simp
  | cons d after => simp [hafter d List.mem_cons_self]

/-- `strtol` finds the digits behind the blanks, up to the first other byte. -/
theorem strtol_digits (hd : Decimal digits k) (hafter : ∀ c ∈ after, isDigit c = false) :
    strtol (digits ++ after) = min (k : Int) (2 ^ 63 - 1) := by
  obtain ⟨c, tail, rfl, hc⟩ := hd.head
  have hspace : (c :: tail ++ after).dropWhile isSpace = c :: tail ++ after := by
    simp [digit_not_space hc]
  obtain ⟨hlow, -⟩ := digit_bounds hc
  rw [strtol, hspace]
  split
  rename_i negative rest hsign
  split at hsign
  · rename_i he
    obtain rfl := (List.cons.inj he).1
    exact absurd hlow (by decide)
  · rename_i he
    obtain rfl := (List.cons.inj he).1
    exact absurd hlow (by decide)
  · obtain ⟨rfl, rfl⟩ := Prod.mk.inj hsign
    rw [take_digits hd hafter, hd.value]
    rfl

theorem strtol_blanks (hb : ∀ c ∈ before, isSpace c = true) (s : List UInt8) :
    strtol (before ++ s) = strtol s := by
  rw [strtol, strtol, List.dropWhile_append_of_pos hb]

/-- A numeral is read as its number, or as the `long` next to it. -/
theorem strtol_numeral (h : Numeral s n) : strtol s = max (min n (2 ^ 63 - 1)) (-2 ^ 63) := by
  obtain ⟨before, sign, digits, after, rfl, hblank, k, hd, hn⟩ := h
  have hbefore : ∀ c ∈ before, isSpace c = true := fun c hc =>
    (blank_space (hblank c (List.mem_append_left _ hc))).1
  have hafter : ∀ c ∈ after, isDigit c = false := fun c hc =>
    (blank_space (hblank c (List.mem_append_right _ hc))).2
  have hplain := strtol_digits hd hafter
  have htake := take_digits hd hafter
  rw [strtol_blanks hbefore]
  rcases hn with ⟨rfl, hsign⟩ | ⟨rfl, rfl⟩
  · rcases List.mem_pair.mp hsign with rfl | rfl
    · rw [List.nil_append, hplain]
      omega
    · change min (digitsValue ((digits ++ after).takeWhile isDigit) : Int) (2 ^ 63 - 1) = _
      rw [htake, hd.value]
      omega
  · change max (-(digitsValue ((digits ++ after).takeWhile isDigit) : Int)) (-2 ^ 63) = _
    rw [htake, hd.value]
    omega

theorem size_atoi_numeral {n : Nat} (h : Numeral s n) (hn : n < 2 ^ 31) : sizeT (atoi s) = n := by
  have hlong : strtol s = n := by
    rw [strtol_numeral h]
    omega
  have hmod : (n : Int).bmod (2 ^ 32) = n := Int.bmod_eq_of_le (by omega) (by omega)
  rw [atoi, hlong, hmod, sizeT]
  omega

theorem atoi_bounds (s : List UInt8) : -2 ^ 31 ≤ atoi s ∧ atoi s < 2 ^ 31 := by
  unfold atoi
  constructor
  · exact Int.le_bmod (by decide)
  · exact Int.bmod_lt (by decide)

namespace View

/-- The body is complete: `w` is ready with the bytes up to the declared length. -/
structure BodyDone (v : View) (q : List UInt8) (w : View) (rest : List UInt8) : Prop where
  ready : w.headerProcess = v.headerProcess ∧ w.bodyProcess = .successful
  body : w.body = v.body ++ q.take v.contentLength
  long : v.contentLength ≤ w.body.length
  rest : rest = q.drop v.contentLength
  some : q = [] ∨ q.take v.contentLength ≠ []

/-- More of the body is awaited. Of a body with no length nothing is taken. -/
inductive BodyWaits (v : View) (q : List UInt8) (w : View) (rest : List UInt8) : Prop
  | idle (hw : w = v) (hr : rest = q)
      (hl : v.contentLength = 0 ∧ q ≠ [] ∨ v.contentLength ≠ 0 ∧ q = [])
  | taken (hw : w = { v with body := v.body ++ q }) (hr : rest = [])
      (hl : (v.body ++ q).length < v.contentLength) (hq : q ≠ [])

/-- What one call makes of the bytes of a body with a length. -/
theorem read_body_cases {v : View} (hb : v.bodyProcess = .processingFirst)
    (hl : v.contentLength ≠ npos) (q : List UInt8) :
    BodyDone v q (v.readBody q).1 (v.readBody q).2 ∨
      BodyWaits v q (v.readBody q).1 (v.readBody q).2 := by
  rw [readBody, if_pos hb]
  split
  · rename_i hempty
    obtain ⟨rfl, hzero⟩ := hempty.resolve_left hl
    refine .inl ⟨⟨rfl, rfl⟩, ?_, ?_, ?_, .inl rfl⟩
    · simp [finish]
    · rw [hzero]
      exact Nat.zero_le _
    · simp
  · rename_i hempty
    split
    · rename_i htake
      refine .inr (.idle rfl rfl ?_)
      rcases List.take_eq_nil_iff.mp htake with hzero | hq
      · exact .inl ⟨hzero, fun hq => hempty (.inr ⟨hq, hzero⟩)⟩
      · exact .inr ⟨fun hzero => hempty (.inr ⟨hq, hzero⟩), hq⟩
    · rename_i htake
      dsimp only
      split
      · rename_i hlong
        exact .inl ⟨⟨rfl, rfl⟩, rfl, hlong, rfl, .inr htake⟩
      · rename_i hshort
        have hlen := Nat.lt_of_not_le hshort
        rw [List.length_append, List.length_take] at hlen
        have hall : q.length ≤ v.contentLength := by omega
        have hq : q ≠ [] := fun hq => htake (by rw [hq, List.take_nil])
        refine .inr (.taken ?_ (List.drop_of_length_le hall) ?_ hq)
        · rw [List.take_of_length_le hall]
        · rw [List.length_append]
          omega

end View

/-- One call of `data_processing` as the reader of texts sees it. -/
theorem HttpConnection.processing_follows {d : HttpConnection} {v : View}
    (hs : Shows (d.processor u) v) (hv : v.Sound) (q stale : List UInt8)
    (hquiet : v.UriCut q → ∃ c ∈ stale.head?, c ≠ question)
    (hu : HttpConnection.StaysForward u d q stale) :
    ∃ h, Shows h (v.read q).1 ∧
      dataProcessing u d (q ++ stale) q.length =
        some (if q.length - (v.read q).2.length ≠ 0 ∧ h.isReady = true then
          ⟨none, d.processed ++ [(h, d.taken + (q.length - (v.read q).2.length))], d.calls + 1,
            d.createdAfter, 0⟩
          else ⟨some h, d.processed, d.calls + 1, d.createdAfter,
            d.taken + (q.length - (v.read q).2.length)⟩, q.length - (v.read q).2.length) := by
  obtain ⟨h, he, hs'⟩ := HttpHeader.process_follows hs hv q stale hquiet hu
  rw [Nat.zero_add] at he
  refine ⟨h, hs', ?_⟩
  split
  · rename_i hyes
    exact processing_serves he hyes
  · rename_i hnot
    exact processing_waits he hnot

namespace Head

/-- The request has one field that gives the length of its body. -/
def HasLength (r : Head) (f : Field) : Prop :=
  ∃ before after, r.fields = before ++ f :: after ∧ f.IsLength ∧
    ∀ g ∈ before ++ after, ¬ g.IsLength

/-- What the parser shows once it has `got` of the body. -/
def bodyView (r : Head) (got : List UInt8) : View := { r.view with body := got }

theorem body_view_length (r : Head) (got : List UInt8) :
    (r.bodyView got).contentLength = r.view.contentLength := rfl

/-- The head has been read, and `got` of the bytes behind it. -/
structure Awaits (r : Head) (u : Uninitialised) (done : List (HttpHeader × Nat))
    (got : List UInt8) (d : HttpConnection) : Prop where
  shows : Shows (d.processor u) (r.bodyView got)
  processed : d.processed = done
  taken : d.taken = r.text.length + got.length

/-- The request has been processed, and `P` holds of its parser and its bytes. -/
def Answered (P : HttpHeader → Nat → Prop) (done : List (HttpHeader × Nat))
    (d : HttpConnection) : Prop :=
  ∃ h n, done ++ [(h, n)] <+: d.processed ∧ P h n

/-- The request has this body, and its bytes are those of the head and the body. -/
structure HasBody (r : Head) (bytes : List UInt8) (h : HttpHeader) (n : Nat) : Prop where
  body : h.getBody = bytes
  size : n = r.text.length + bytes.length

/-- What a call at the body leaves behind. `front` are its bytes in front of those of the
body, `q` are the latter, behind the `got` that are there. -/
inductive BodyCall (r : Head) (u : Uninitialised) (done : List (HttpHeader × Nat))
    (got front q : List UInt8) (d : HttpConnection) (n : Nat) : Prop
  | idle (ha : Awaits r u done got d) (hn : n = front.length)
      (hl : r.view.contentLength = 0 ∧ q ≠ [] ∨ r.view.contentLength ≠ 0 ∧ q = [])
  | part (ha : Awaits r u done (got ++ q) d) (hn : n = (front ++ q).length)
      (hl : (got ++ q).length < r.view.contentLength)
  | done (ha : Answered (HasBody r (got ++ q.take r.view.contentLength)) done d)
      (hn : n = front.length + (q.take r.view.contentLength).length)
      (hl : r.view.contentLength ≤ (got ++ q.take r.view.contentLength).length)
      (hq : q = [] ∨ q.take r.view.contentLength ≠ [])

variable {r : Head} {u : Uninitialised} {done : List (HttpHeader × Nat)}
  {got q front : List UInt8} {d : HttpConnection} {v : View}

theorem answered_kept (h : Answered P done d)
    (he : dataProcessing u d buffer size = some (d', n)) : Answered P done d' := by
  obtain ⟨h₀, n₀, hp, hP⟩ := h
  exact ⟨h₀, n₀, hp.trans (processed_kept he), hP⟩

theorem body_step (hl : r.view.contentLength ≠ npos) (hs : Shows (d.processor u) v) (hv : v.Sound)
    (hphase : v.headerProcess ≠ .processingNext) (hcut : ¬ v.UriCut (front ++ q))
    (hread : v.read (front ++ q) = (r.bodyView got).readBody q)
    (hdone : d.processed = done) (htaken : d.taken + front.length = r.text.length + got.length)
    (hne : front ≠ [] ∨ q ≠ []) (stale : List UInt8) :
    ∃ d' n, dataProcessing u d (front ++ q ++ stale) (front ++ q).length = some (d', n) ∧
      n ≤ (front ++ q).length ∧ BodyCall r u done got front q d' n := by
  subst hdone
  have hforward : HttpConnection.StaysForward u d (front ++ q) stale :=
    HttpHeader.stays_outside_lines (by rw [hs.headerProcess]; exact hphase)
  obtain ⟨h, hs', he⟩ := processing_follows hs hv (front ++ q) stale (fun h => absurd h hcut) hforward
  rw [hread] at he hs'
  have hcases := View.read_body_cases (rfl : (r.bodyView got).bodyProcess = _) hl q
  generalize (View.readBody (r.bodyView got) q).1 = w at *
  generalize (View.readBody (r.bodyView got) q).2 = rest at *
  have hready : h.isReady = true ↔ w.headerProcess = .successful ∧ w.bodyProcess = .successful :=
    hs'.is_ready
  rcases hcases with ⟨hphases, hw, hlong, rfl, hsome⟩ | hwaits
  · have hlen : (front ++ q).length - (q.drop r.view.contentLength).length =
        front.length + (q.take r.view.contentLength).length := by
      rw [List.length_append, List.length_drop, List.length_take]
      omega
    have htake : (q.take r.view.contentLength).length ≤ q.length := by
      rw [List.length_take]
      exact Nat.min_le_right _ _
    have hpos : front.length + (q.take r.view.contentLength).length ≠ 0 := by
      intro hzero
      obtain ⟨hfront, htake⟩ := Nat.add_eq_zero_iff.mp hzero
      rw [List.length_eq_zero_iff] at hfront htake
      exact hsome.elim (hne.resolve_left (absurd hfront)) fun hne => hne htake
    rw [body_view_length, hlen] at he
    rw [if_pos ⟨hpos, hready.mpr hphases⟩] at he
    have hgot : h.getBody = got ++ q.take r.view.contentLength := hs'.get_body.trans hw
    refine ⟨_, _, he, by rw [List.length_append]; omega, .done ⟨h, _, List.prefix_rfl, hgot, ?_⟩
      rfl (hw ▸ hlong) hsome⟩
    rw [List.length_append]
    omega
  · have hnot : ∀ n, ¬ (n ≠ 0 ∧ h.isReady = true) := by
      rintro n ⟨-, hr⟩
      have hphase := (hready.mp hr).2
      cases hwaits with
      | idle hw => rw [hw] at hphase; cases hphase
      | taken hw => rw [hw] at hphase; cases hphase
    rw [if_neg (hnot _)] at he
    refine ⟨_, _, he, Nat.sub_le _ _, ?_⟩
    cases hwaits with
    | idle hw hr hl =>
      have hlen : (front ++ q).length - q.length = front.length := by
        rw [List.length_append, Nat.add_sub_cancel]
      rw [hr, hlen]
      exact .idle ⟨hw ▸ hs', rfl, htaken⟩ rfl hl
    | taken hw hr hl hq =>
      rw [hr, List.length_nil, Nat.sub_zero]
      rw [hw] at hs'
      refine .part ⟨hs', rfl, ?_⟩ rfl hl
      change d.taken + (front ++ q).length = _
      rw [List.length_append, List.length_append]
      omega

theorem body_view_sound (r : Head) (got : List UInt8) : (r.bodyView got).Sound :=
  ⟨r.view_sound.pairs, r.view_sound.params, r.view_sound.body, r.view_sound.started,
    r.view_sound.version⟩

theorem awaits_step (hl : r.view.contentLength ≠ npos) (ha : Awaits r u done got d)
    (hq : q ≠ []) (stale : List UInt8) :
    ∃ d' n, dataProcessing u d (q ++ stale) q.length = some (d', n) ∧ n ≤ q.length ∧
      BodyCall r u done got [] q d' n := by
  have hcut : ¬ (r.bodyView got).UriCut ([] ++ q) := fun h => Phase.noConfusion h.first
  exact body_step hl ha.shows (body_view_sound r got) nofun hcut rfl ha.processed ha.taken (.inr hq)
    stale

/-- The body that `process_data` makes of the arrivals when it waits for `length` bytes and
has `got`: each arrival is taken up to the whole length, not up to what is missing of it. -/
def bodyTaken (length : Nat) (got : List UInt8) : List (List UInt8) → Option (List UInt8)
  | [] => none
  | data :: arrivals =>
    if got.length + data.length < length then bodyTaken length (got ++ data) arrivals
    else some (got ++ data.take length)

/-- The request has been processed with the body given, or has not been processed. -/
def Comes (r : Head) (done : List (HttpHeader × Nat)) : Option (List UInt8) → HttpConnection → Prop
  | some body, d => Answered (HasBody r body) done d
  | none, d => d.processed = done

/-- A connection that waits for more of a body, with all that has arrived taken. -/
structure Waits (r : Head) (u : Uninitialised) (done : List (HttpHeader × Nat))
    (got : List UInt8) (c : Connection HttpConnection) : Prop where
  fault : c.fault = false
  content : c.socketBuffer.content = []
  awaits : Awaits r u done got c.derived
  short : got.length < r.view.contentLength

variable {c : Connection HttpConnection} {segments : List (List UInt8)}

theorem Waits.read (hl : r.view.contentLength ≠ npos) (hw : Waits r u done got c)
    (data : List UInt8) :
    (got.length + data.length < r.view.contentLength ∧
      Waits r u done (got ++ data) (c.stubConnRead (dataProcessing u) data)) ∨
    (¬ got.length + data.length < r.view.contentLength ∧
      Answered (HasBody r (got ++ data.take r.view.contentLength)) done
        (c.stubConnRead (dataProcessing u) data).derived) := by
  have hpos : 0 < r.view.contentLength := Nat.zero_lt_of_lt hw.short
  by_cases hdata : data = []
  · have hskip : c.stubConnRead (dataProcessing u) data = c := by
      simp [Connection.stubConnRead, hdata]
    rw [hskip, hdata, List.append_nil]
    exact .inl ⟨hw.short, hw⟩
  let stale := (Connection.readInto c.socketBuffer data).stale
  let J : HttpConnection → Prop := fun d => ¬ got.length + data.length < r.view.contentLength ∧
    Answered (HasBody r (got ++ data.take r.view.contentLength)) done d
  let I : HttpConnection → List UInt8 → Prop := fun d q =>
    (q = data ∧ Awaits r u done got d) ∨
      (q = [] ∧ Awaits r u done (got ++ data) d ∧ (got ++ data).length < r.view.contentLength)
  have call : ∀ d, Awaits r u done got d → ∃ d' n,
      dataProcessing u d (data ++ stale) data.length = some (d', n) ∧
        ((n = data.length ∧ Awaits r u done (got ++ data) d' ∧
          (got ++ data).length < r.view.contentLength) ∨ J d') := by
    intro d ha
    obtain ⟨d', n, he, -, hcall⟩ := awaits_step hl ha hdata stale
    refine ⟨d', n, he, ?_⟩
    cases hcall with
    | idle _ _ hl => rcases hl with ⟨hzero, -⟩ | ⟨-, hnil⟩ <;> [omega; exact absurd hnil hdata]
    | part ha hn hl => exact .inl ⟨hn, ha, hl⟩
    | done ha _ hl _ =>
      refine .inr ⟨?_, ha⟩
      rw [List.length_append, List.length_take] at hl
      omega
  have step : ∀ d q, I d q → q ≠ [] → ∃ d' n,
      dataProcessing u d (q ++ stale) q.length = some (d', n) ∧
        ((n ≤ q.length ∧ I d' (q.drop n)) ∨ J d') := by
    rintro d q (⟨rfl, ha⟩ | ⟨rfl, -⟩) hq
    · obtain ⟨d', n, he, ⟨rfl, ha', hlt⟩ | hJ⟩ := call d ha
      · exact ⟨d', _, he, .inl ⟨Nat.le_refl _, .inr ⟨List.drop_length, ha', hlt⟩⟩⟩
      · exact ⟨d', n, he, .inr hJ⟩
    · exact absurd rfl hq
  have keep : ∀ d m k d' n, J d → dataProcessing u d m k = some (d', n) → J d' :=
    fun _ _ _ _ _ h he => ⟨h.1, answered_kept h.2 he⟩
  have hI : I c.derived (c.socketBuffer.content ++ data) := by
    rw [hw.content]
    exact .inl ⟨rfl, hw.awaits⟩
  rcases read_rule (I := I) (J := J) stale rfl step keep hw.fault hdata hI with
    ⟨hf, ⟨hrest, -⟩ | ⟨hnil, ha, hlt⟩, hexit⟩ | hJ
  · -- a call that took nothing has not been there
    obtain ⟨d₀, ⟨-, ha₀⟩ | ⟨hnil, -⟩, he₀⟩ := hexit.resolve_left (by rwa [hrest])
    · obtain ⟨d', n, he, hcase⟩ := call d₀ ha₀
      rw [hrest] at he₀
      obtain ⟨rfl, rfl⟩ := Prod.mk.inj (Option.some.inj (he₀.symm.trans he))
      rcases hcase with ⟨hzero, -⟩ | hJ
      · exact absurd (List.eq_nil_of_length_eq_zero hzero.symm) hdata
      · exact .inr hJ
    · exact absurd (hrest.symm.trans hnil) hdata
  · rw [List.length_append] at hlt
    exact .inl ⟨hlt, hf, hnil, ha, by rwa [List.length_append]⟩
  · exact .inr hJ

theorem Waits.reads (hl : r.view.contentLength ≠ npos) (hw : Waits r u done got c)
    (segments : List (List UInt8)) :
    Comes r done (bodyTaken r.view.contentLength got segments)
      (c.reads (dataProcessing u) segments).derived := by
  induction segments generalizing c got with
  | nil => exact hw.awaits.processed
  | cons data segments ih =>
    rcases hw.read hl data with ⟨hshort, hw'⟩ | ⟨hlong, ha⟩
    · rw [bodyTaken, if_pos hshort]
      exact ih hw'
    · rw [bodyTaken, if_neg hlong]
      exact reads_keep (fun _ _ _ _ _ h he => answered_kept h he) _ segments ha

/-- Without a length the request is ready with its head, whatever comes behind it. -/
theorem absent_ready (hb : Request.Between c) (hl : r.view.contentLength = npos)
    (u : Uninitialised) (more : List UInt8) :
    Answered (fun h n => Shows h (r.view.finish 0 r.view.query) ∧ n = r.text.length)
      c.derived.processed (c.stubConnRead (dataProcessing u) (r.text ++ more)).derived := by
  let stale := (Connection.readInto c.socketBuffer (r.text ++ more)).stale
  let J : HttpConnection → Prop :=
    Answered (fun h n => Shows h (r.view.finish 0 r.view.query) ∧ n = r.text.length)
      c.derived.processed
  let I : HttpConnection → List UInt8 → Prop := fun d q => d = c.derived ∧ q = r.text ++ more
  have hne := r.text_nonempty
  have hall : r.text ++ more ≠ [] := fun hnil => hne (List.append_eq_nil_iff.mp hnil).1
  have hshows : Shows (c.derived.processor u) .cleared := by
    rw [processor, hb.idle]
    exact shows_new _
  have call : ∃ d' n, dataProcessing u c.derived (r.text ++ more ++ stale)
      (r.text ++ more).length = some (d', n) ∧ J d' := by
    have hbody : r.view.readBody more = (r.view.finish 0 r.view.query, more) := by
      have hphase : r.view.bodyProcess = .processingFirst := rfl
      rw [View.readBody, if_pos hphase, if_pos (.inl hl)]
    obtain ⟨h, hs, he⟩ := processing_follows hshows View.sound_cleared (r.text ++ more) stale
      (fun h => absurd h (r.not_uri_cut more))
      (HttpHeader.stays_outside_lines (by rw [hshows.headerProcess]; decide))
    rw [read_text, hbody] at hs he
    have htaken : (r.text ++ more).length - more.length = r.text.length := by
      rw [List.length_append, Nat.add_sub_cancel]
    rw [htaken, if_pos ⟨fun hzero => hne (List.eq_nil_of_length_eq_zero hzero),
      hs.is_ready.mpr ⟨rfl, rfl⟩⟩, hb.taken, Nat.zero_add] at he
    exact ⟨_, _, he, h, _, List.prefix_rfl, hs, rfl⟩
  obtain ⟨d', n, he, hJ⟩ := call
  have step : ∀ d q, I d q → q ≠ [] → ∃ d' n,
      dataProcessing u d (q ++ stale) q.length = some (d', n) ∧
        ((n ≤ q.length ∧ I d' (q.drop n)) ∨ J d') := by
    rintro d q ⟨rfl, rfl⟩ hq
    exact ⟨d', n, he, .inr hJ⟩
  have keep : ∀ d m k d' n, J d → dataProcessing u d m k = some (d', n) → J d' :=
    fun _ _ _ _ _ h he => answered_kept h he
  have hI : I c.derived (c.socketBuffer.content ++ (r.text ++ more)) := by
    rw [hb.content]
    exact ⟨rfl, rfl⟩
  rcases read_rule (I := I) (J := J) stale rfl step keep hb.fault hall hI with
    ⟨-, ⟨-, hrest⟩, hexit⟩ | hJ
  · rw [hrest] at hexit
    obtain ⟨d₀, ⟨rfl, -⟩, he'⟩ := hexit.resolve_left hall
    obtain ⟨rfl, -⟩ := Prod.mk.inj (Option.some.inj (he.symm.trans he'))
    exact hJ
  · exact hJ

theorem Answered.get (ha : Answered P done d) (hget : d.processed[done.length]? = some (h, n)) :
    P h n := by
  obtain ⟨h₀, n₀, ⟨more, hp⟩, hP⟩ := ha
  rw [← hp, List.append_assoc, List.getElem?_append_right (Nat.le_refl _), Nat.sub_self] at hget
  obtain ⟨rfl, rfl⟩ := Prod.mk.inj (Option.some.inj hget)
  exact hP

theorem Answered.there (ha : Answered P done d) :
    ∃ h n, d.processed[done.length]? = some (h, n) ∧ P h n := by
  obtain ⟨h, n, ⟨more, hp⟩, hP⟩ := ha
  refine ⟨h, n, ?_, hP⟩
  rw [← hp, List.append_assoc, List.getElem?_append_right (Nat.le_refl _), Nat.sub_self]
  rfl

theorem HasLength.view_length (hf : r.HasLength f) :
    r.view.contentLength = sizeT (atoi f.text) := by
  obtain ⟨before, after, hfields, hlength, hothers⟩ := hf
  exact Head.view_length hfields hlength hothers

def posting (f : Field) : Head where
  method := ascii "POST"
  uri := ascii "/"
  query := none
  version := ascii "HTTP/1.1"
  fields := [f]
  method_nonempty := Request.postThree.method_nonempty
  method_clear := Request.postThree.method_clear
  uri_nonempty := Request.postThree.uri_nonempty
  uri_clear := Request.postThree.uri_clear
  query_clear := Request.postThree.query_clear
  version_nonempty := Request.postThree.version_nonempty
  version_clear := Request.postThree.version_clear
  version_start := Request.postThree.version_start

end Head

end Khorost
