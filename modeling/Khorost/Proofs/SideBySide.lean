import Khorost.Proofs.Arrivals
import Khorost.Proofs.BodyLength
import Khorost.Proofs.FirstLine
import Khorost.Proofs.Overrun
import Khorost.Proofs.TwoRuns

namespace Khorost

open HttpConnection

/-- The names and values that a list of pairs leads to. -/
def pairTexts (text : Nat → List UInt8) (pairs : ListPairs) :
    List (List UInt8 × Option (List UInt8)) :=
  pairs.map fun p => (text p.1, p.2.map text)

/-- Two processed requests, each with the number of its bytes, are the same message. -/
structure SameMessage (a a' : HttpHeader × Nat) : Prop where
  contentLength : a.1.contentLength = a'.1.contentLength
  body : a.1.getBody = a'.1.getBody
  taken : a.2 = a'.2
  cookies : pairTexts a.1.headerText a.1.cookies = pairTexts a'.1.headerText a'.1.cookies
  params : pairTexts a.1.paramsText a.1.paramsValue = pairTexts a'.1.paramsText a'.1.paramsValue
  lookup : ∀ param defaultValue,
    a.1.getHeaderParameter param defaultValue = a'.1.getHeaderParameter param defaultValue

theorem SameMessage.refl (a : HttpHeader × Nat) : SameMessage a a :=
  ⟨rfl, rfl, rfl, rfl, rfl, fun _ _ => rfl⟩

theorem pair_texts_shown (b : AutoBuffer UInt8) (h : List.Forall₂ (ShowsPair b.content) ps pairs) :
    pairTexts (fun k => cStr (b.buffer.drop k)) ps = pairs := by
  induction h with
  | nil => rfl
  | @cons p s ps pairs hp _ ih =>
    have hhead : (cStr (b.buffer.drop p.1), p.2.map fun k => cStr (b.buffer.drop k)) = s :=
      Prod.ext (str_read b hp.1) (rel_read b hp.2)
    rw [pairTexts, List.map_cons, hhead]
    exact congrArg (s :: ·) ih

/-- Parsers that show like views have the same message. -/
theorem same_message (hs : Shows h v) (hs' : Shows h' v') (hlike : v.Like v') (n : Nat) :
    SameMessage (h, n) (h', n) where
  contentLength := by rw [hs.contentLength, hlike.contentLength, hs'.contentLength]
  body := by rw [hs.get_body, hlike.body, hs'.get_body]
  taken := rfl
  cookies := (pair_texts_shown h.abHeader hs.cookies).trans
    ((same_cookies hlike.fields).trans (pair_texts_shown h'.abHeader hs'.cookies).symm)
  params := (pair_texts_shown h.abParams hs.pairs).trans
    (hlike.pairs.trans (pair_texts_shown h'.abParams hs'.pairs).symm)
  lookup param defaultValue := by
    rw [hs.get_header_parameter, same_lookup hlike.fields, hs'.get_header_parameter]

namespace HttpConnection

variable {u : Uninitialised} {done : List (HttpHeader × Nat)} {d d' e : HttpConnection}
  {more more' p p' stale stale' : List UInt8} {v v' w : View}

/-- No request will ever be processed behind those done. -/
def Stuck (done : List (HttpHeader × Nat)) (d : HttpConnection) : Prop :=
  d.processed = done ∧ ∃ h, d.httpProcessor = some h ∧ h.Sealed

theorem Stuck.call (hs : Stuck done d) (he : dataProcessing u d buffer size = some (e, n)) :
    Stuck done e := by
  obtain ⟨hp, h, hh, hsealed⟩ := hs
  obtain ⟨⟨h₁, n₁⟩, hcall, -⟩ := Option.bind_eq_some_iff.mp he
  have hproc : d.processor u = h := by rw [processor, hh, Option.getD_some]
  obtain ⟨rfl, hs₁⟩ := HttpHeader.sealed_call hsealed (hproc ▸ hcall)
  rw [processing_waits hcall (by simp)] at he
  cases he
  exact ⟨hp, h₁, rfl, hs₁⟩

/-- What the two runs say of the request: the same message, or nothing ever. -/
inductive Settled (done : List (HttpHeader × Nat)) (d d' : HttpConnection) : Prop
  | answered (hsame : SameMessage a a') (hd : done ++ [a] <+: d.processed)
      (hd' : done ++ [a'] <+: d'.processed)
  | stuck (hs : Stuck done d) (hs' : Stuck done d')

theorem Settled.left (h : Settled done d d') (he : dataProcessing u d buffer size = some (e, n)) :
    Settled done e d' := by
  cases h with
  | answered hsame hd hd' => exact .answered hsame (hd.trans (processed_kept he)) hd'
  | stuck hs hs' => exact .stuck (hs.call he) hs'

theorem Settled.right (h : Settled done d d') (he : dataProcessing u d' buffer size = some (e, n)) :
    Settled done d e := by
  cases h with
  | answered hsame hd hd' => exact .answered hsame hd (hd'.trans (processed_kept he))
  | stuck hs hs' => exact .stuck hs (hs'.call he)

/-- The two runs have come to the header lines, or to what follows them. `more` and
`more'` are still to arrive. -/
structure InLines (u : Uninitialised) (done : List (HttpHeader × Nat)) (more more' : List UInt8)
    (d : HttpConnection) (p : List UInt8) (d' : HttpConnection) (p' : List UInt8) : Prop where
  shows : ∃ v v', Shows (d.processor u) v ∧ Shows (d'.processor u) v' ∧ v.Sound ∧ v.Like v' ∧
    View.Ahead v.headerProcess (p ++ more) (p' ++ more')
  length : p.length = p'.length
  processed : d.processed = done
  processed' : d'.processed = done
  taken : d.taken = d'.taken

theorem like_sound (h : v.Like v') (hv : v.Sound) : v'.Sound := by
  rw [h.others]
  exact ⟨hv.pairs, hv.params, hv.body, hv.started, hv.version⟩

/-- A call that reads as much in both runs serves the request in both or in none. -/
theorem called_alike (hs : Shows (d.processor u) v) (hs' : Shows (d'.processor u) v')
    (hv : v.Sound) (hv' : v'.Sound) (hcut : ¬ v.UriCut p) (hcut' : ¬ v'.UriCut p')
    (hread : View.RecasedRead more more' (v.read p) (v'.read p')) (hlen : p.length = p'.length)
    (hp : d.processed = done) (hp' : d'.processed = done) (htaken : d.taken = d'.taken)
    (hu : StaysForward u d p stale) (hu' : StaysForward u d' p' stale') :
    Paired (InLines u done more more') (Settled done) p p'
      (dataProcessing u d (p ++ stale) p.length) (dataProcessing u d' (p' ++ stale') p'.length) := by
  obtain ⟨h, hshows, he⟩ := processing_follows hs hv p stale (fun h => absurd h hcut) hu
  obtain ⟨h', hshows', he'⟩ := processing_follows hs' hv' p' stale' (fun h => absurd h hcut') hu'
  have hready : h.isReady = h'.isReady := by
    rw [Bool.eq_iff_iff, hshows.is_ready, hshows'.is_ready, hread.view.headerProcess,
      hread.view.bodyProcess]
  rw [← hlen, ← hread.length, ← hready] at he'
  rw [he, ← hlen, he']
  have hdrop := List.suffix_iff_eq_drop.mp (View.read_suffix v p)
  have hdrop' := List.suffix_iff_eq_drop.mp (View.read_suffix v' p')
  rw [← hlen, ← hread.length] at hdrop'
  split
  · rename_i hserved
    have hsame := same_message hshows hshows' hread.view
      (d.taken + (p.length - (v.read p).2.length))
    rw [← htaken, hp, hp']
    exact .settled (.answered hsame List.prefix_rfl List.prefix_rfl)
  · refine .goes (Nat.sub_le _ _) ⟨⟨_, _, hshows, hshows', View.read_sound hv p, hread.view, ?_⟩, ?_,
      hp, hp', by rw [htaken]⟩
    · rw [← hdrop, ← hdrop']
      exact hread.ahead
    · rw [← hdrop, ← hdrop', hread.length]

theorem InLines.call (h : InLines u done more more' d p d' p') (hu : StaysForward u d p stale)
    (hu' : StaysForward u d' p' stale') :
    Paired (InLines u done more more') (Settled done) p p'
      (dataProcessing u d (p ++ stale) p.length) (dataProcessing u d' (p' ++ stale') p'.length) := by
  obtain ⟨v, v', hs, hs', hv, hlike, hahead⟩ := h.shows
  have hphase : v.headerProcess ≠ .processingFirst := by
    cases hahead with
    | lines _ _ _ _ _ _ hphase =>
      rw [hphase]
      decide
    | same hphase => exact hphase
  exact called_alike hs hs' hv (like_sound hlike hv) (fun hc => hphase hc.first)
    (fun hc => hphase (hlike.headerProcess.trans hc.first))
    (View.read_recased hlike hv h.length hahead) h.length h.processed h.processed' h.taken hu hu'

end HttpConnection

namespace Head

/-- The same head with the names of its fields in other letter cases. -/
structure Recased (r r' : Head) : Prop where
  method : r'.method = r.method
  uri : r'.uri = r.uri
  query : r'.query = r.query
  version : r'.version = r.version
  fields : List.Forall₂ Field.Recased r.fields r'.fields

/-- The first line has arrived up to its carriage return in both runs, which are the
same so far; or they have come to the header lines. -/
inductive PastLine (r r' : Head) (tail : List UInt8) (u : Uninitialised)
    (done : List (HttpHeader × Nat)) (more more' : List UInt8) (d : HttpConnection)
    (p : List UInt8) (d' : HttpConnection) (p' : List UInt8) : Prop
  | line (x x' : List UInt8) (hd : d = d') (hdone : d.processed = done) (hs : Shows (d.processor u) v)
      (hl : v.Leads q [] r.firstView) (hp : p = q ++ x) (hp' : p' = q ++ x')
      (hlen : x.length = x'.length) (hx : x ++ more = lf :: (block r.fields ++ tail))
      (hx' : x' ++ more' = lf :: (block r'.fields ++ tail))
  | lines (h : InLines u done more more' d p d' p')

variable {r r' : Head} {u : Uninitialised} {done : List (HttpHeader × Nat)}
  {d d' : HttpConnection} {more more' tail p p' q x x' stale stale' : List UInt8} {v : View}

theorem Recased.line_open (h : r.Recased r') : r'.lineOpen = r.lineOpen := by
  rw [lineOpen, lineOpen, target, target, h.method, h.uri, h.query, h.version]

theorem Recased.text_length (h : r.Recased r') : r'.text.length = r.text.length := by
  rw [text, text, first_line_open, first_line_open, h.line_open, block, block]
  simp only [List.length_append, Field.lines_length h.fields]

theorem block_append (fields : List Field) (tail : List UInt8) :
    block fields ++ tail = fields.flatMap Field.line ++ ([cr, lf] ++ tail) := by
  rw [block, List.append_assoc]

/-- With the line feed of the first line, or without it, the two runs read alike. -/
theorem line_alike (h : r.Recased r') (hcase : ∀ f ∈ r.fields, f.AnyCase)
    (hl : v.Leads q [] r.firstView) (hlen : x.length = x'.length)
    (hx : x ++ more = lf :: (block r.fields ++ tail))
    (hx' : x' ++ more' = lf :: (block r'.fields ++ tail)) :
    View.RecasedRead more more' (v.read (q ++ x)) (v.read (q ++ x')) ∧
      ¬ v.UriCut (q ++ x) ∧ ¬ v.UriCut (q ++ x') := by
  have hwhole : v.read q = (r.firstView, []) := by
    have hread := hl.whole
    rwa [List.append_nil] at hread
  have hsound : r.firstView.Sound := by
    have hread := View.read_sound hl.starting.sound q
    rwa [hwhole] at hread
  have huncut : ∀ p, (v.read p).1.headerProcess ≠ .processingFirst → ¬ v.UriCut p :=
    fun p hp hcut => hp (hcut.at_uri hl.starting).2
  cases x with
  | nil =>
    obtain rfl := List.eq_nil_of_length_eq_zero hlen.symm
    have hcut : ¬ v.UriCut (q ++ []) := by
      refine huncut _ ?_
      rw [List.append_nil, hwhole]
      exact Phase.noConfusion
    refine ⟨?_, hcut, hcut⟩
    rw [List.append_nil, hwhole]
    refine ⟨.refl _, rfl, .lines true r.fields r'.fields ([cr, lf] ++ tail) h.fields hcase rfl ?_ ?_⟩
    · rw [hx, block_append]
      rfl
    · rw [hx', block_append]
      rfl
  | cons c x =>
    cases x' with
    | nil => cases hlen
    | cons c' x' =>
      obtain ⟨rfl, hrest⟩ := List.cons.inj hx
      obtain ⟨rfl, hrest'⟩ := List.cons.inj hx'
      have hread : ∀ y, v.read (q ++ lf :: y) = r.firstView.read y := hl.more
      have hphase : ∀ y, (v.read (q ++ lf :: y)).1.headerProcess ≠ .processingFirst := by
        intro y
        rw [hread]
        exact View.next_phase Phase.noConfusion y
      refine ⟨?_, huncut _ (hphase x), huncut _ (hphase x')⟩
      rw [hread, hread]
      exact View.read_recased (.refl _) hsound (Nat.succ.inj hlen)
        (.lines false r.fields r'.fields ([cr, lf] ++ tail) h.fields hcase rfl
          (hrest.trans (block_append _ _)) (hrest'.trans (block_append _ _)))

theorem PastLine.length (h : PastLine r r' tail u done more more' d p d' p') :
    p.length = p'.length := by
  cases h with
  | line _ _ _ _ _ _ hp hp' hlen => rw [hp, hp', List.length_append, List.length_append, hlen]
  | lines h => exact h.length

theorem PastLine.call (hr : r.Recased r') (hcase : ∀ f ∈ r.fields, f.AnyCase)
    (h : PastLine r r' tail u done more more' d p d' p') (hu : StaysForward u d p stale)
    (hu' : StaysForward u d' p' stale') :
    Paired (PastLine r r' tail u done more more') (Settled done) p p'
      (dataProcessing u d (p ++ stale) p.length) (dataProcessing u d' (p' ++ stale') p'.length) := by
  refine Paired.imp (I := InLines u done more more') ?_ fun _ _ _ _ => .lines
  cases h with
  | line x x' hd hdone hs hl hp hp' hlen hx hx' =>
    subst hd hp hp'
    obtain ⟨hread, hcut, hcut'⟩ := line_alike hr hcase hl hlen hx hx'
    exact called_alike hs hs hl.starting.sound hl.starting.sound hcut hcut' hread
      (by rw [List.length_append, List.length_append, hlen]) hdone hdone rfl hu hu'
  | lines h => exact h.call hu hu'

theorem PastLine.arrive (h : PastLine r r' tail u done (data ++ more) (data' ++ more') d p d' p')
    (hlen : data.length = data'.length) :
    PastLine r r' tail u done more more' d (p ++ data) d' (p' ++ data') := by
  cases h with
  | line x x' hd hdone hs hl hp hp' hlen' hx hx' =>
    refine .line (x ++ data) (x' ++ data') hd hdone hs hl ?_ ?_ ?_ ?_ ?_
    · rw [hp, List.append_assoc]
    · rw [hp', List.append_assoc]
    · rw [List.length_append, List.length_append, hlen', hlen]
    · rw [List.append_assoc, hx]
    · rw [List.append_assoc, hx']
  | lines h =>
    obtain ⟨v, v', hs, hs', hv, hlike, hahead⟩ := h.shows
    rw [← List.append_assoc, ← List.append_assoc] at hahead
    refine .lines ⟨⟨v, v', hs, hs', hv, hlike, hahead⟩, ?_, h.processed, h.processed', h.taken⟩
    rw [List.length_append, List.length_append, h.length, hlen]

/-- So far the two runs are one, and `y` is still to come of the first line. -/
structure OnLine (r : Head) (u : Uninitialised) (done : List (HttpHeader × Nat)) (y : List UInt8)
    (d : HttpConnection) (p : List UInt8) (d' : HttpConnection) (p' : List UInt8) : Prop where
  same : d = d' ∧ p = p'
  shows : ∃ v, Shows (d.processor u) v ∧ v.Leads p y r.firstView
  processed : d.processed = done

/-- A call that reads on behind its text settles the request. -/
theorem overrun_settled (hs : Shows (d.processor u) v) (hv : v.Sound) (hcut : v.UriCut p)
    (hstale : ∀ c ∈ stale.head?, c = question) (hmemory : stale.length < npos)
    (hdone : d.processed = done)
    (he : dataProcessing u d (p ++ stale) p.length = some (d', n)) : Settled done d' d' := by
  obtain ⟨⟨h, k⟩, hcall, -⟩ := Option.bind_eq_some_iff.mp he
  have hsealed := HttpHeader.overrun hs hv hcut hstale hmemory hcall
  by_cases hserved : k ≠ 0 ∧ h.isReady = true
  · rw [processing_serves hcall hserved, hdone] at he
    cases he
    exact .answered (.refl _) List.prefix_rfl List.prefix_rfl
  · rw [processing_waits hcall hserved] at he
    have hstuck : Stuck done d' := by
      cases he
      exact ⟨hdone, h, rfl, hsealed⟩
    exact .stuck hstuck hstuck

theorem OnLine.call (h : OnLine r u done y d p d' p') (hy : y ≠ []) (hmemory : stale.length < npos) :
    Paired (OnLine r u done y) (Settled done) p p' (dataProcessing u d (p ++ stale) p.length)
      (dataProcessing u d' (p' ++ stale) p'.length) := by
  obtain ⟨⟨rfl, rfl⟩, ⟨v, hs, hl⟩, hdone⟩ := h
  by_cases hover : v.UriCut p ∧ ∀ c ∈ stale.head?, c = question
  · cases he : dataProcessing u d (p ++ stale) p.length with
    | none => exact .fault
    | some result =>
      exact .settled (overrun_settled hs hl.starting.sound hover.1 hover.2 hmemory hdone he)
  · have hquiet : v.UriCut p → ∃ c ∈ stale.head?, c ≠ question := by
      intro hcut
      by_contra hnone
      exact hover ⟨hcut, fun c hc => by_contra fun hne => hnone ⟨c, hc, hne⟩⟩
    have hforward : StaysForward u d p stale := by
      refine HttpHeader.stays_outside_lines ?_
      rw [hs.headerProcess, hl.starting.first]
      exact Phase.noConfusion
    obtain ⟨h, hshows, he⟩ := processing_follows hs hl.starting.sound p stale hquiet hforward
    have hcall := hl.call hy
    have hwaits : ¬ (p.length - (v.read p).2.length ≠ 0 ∧ h.isReady = true) := by
      rintro ⟨-, hready⟩
      have hphase := (hshows.is_ready.mp hready).1
      rw [hcall.starting.first] at hphase
      cases hphase
    rw [if_neg hwaits] at he
    rw [he]
    have hdrop := List.suffix_iff_eq_drop.mp (View.read_suffix v p)
    refine .goes (Nat.sub_le _ _) ⟨⟨rfl, rfl⟩, ⟨_, hshows, ?_⟩, hdone⟩
    rw [← hdrop]
    exact hcall

/-- The memory behind new data is shorter than the largest `size_t`. -/
def Addressable (c : Connection HttpConnection) (data : List UInt8) : Prop :=
  (Connection.readInto c.socketBuffer data).freeSize < npos

/-- Where the two connections stand. -/
inductive Abreast (r r' : Head) (tail : List UInt8) (u : Uninitialised)
    (done : List (HttpHeader × Nat)) (more more' : List UInt8) (c c' : Connection HttpConnection) :
    Prop
  | fault (hf : c.fault = true) (hf' : c'.fault = true) (hp : c.derived.processed = done)
      (hp' : c'.derived.processed = done)
  | onLine (hc : c = c') (hf : c.fault = false)
      (h : OnLine r u done y c.derived c.socketBuffer.content c.derived c.socketBuffer.content)
      (hy : y ≠ []) (hmore : more = y ++ lf :: (block r.fields ++ tail))
      (hmore' : more' = y ++ lf :: (block r'.fields ++ tail))
  | pastLine (hf : c.fault = false) (hf' : c'.fault = false)
      (h : PastLine r r' tail u done more more' c.derived c.socketBuffer.content c'.derived
        c'.socketBuffer.content)
  | settled (h : Settled done c.derived c'.derived)

theorem past_line_paired (hr : r.Recased r') (hcase : ∀ f ∈ r.fields, f.AnyCase)
    {c c' : Connection HttpConnection} (hf : c.fault = false) (hf' : c'.fault = false)
    (hdata : data ≠ []) (hlen : data.length = data'.length) (hu : Request.Forward u c data)
    (hu' : Request.Forward u c' data')
    (h : PastLine r r' tail u done more more' c.derived (c.socketBuffer.content ++ data) c'.derived
      (c'.socketBuffer.content ++ data')) :
    Abreast r r' tail u done more more' (c.stubConnRead (dataProcessing u) data)
      (c'.stubConnRead (dataProcessing u) data') := by
  have hdata' : data' ≠ [] := fun hnil => hdata (by simpa [hnil] using hlen)
  have hpaired := reads_paired (P := StaysForward u) (fun _ _ _ _ h => PastLine.length h)
    (fun _ _ _ _ _ _ => Settled.left) (fun _ _ _ _ _ _ => Settled.right) _ _ rfl rfl
    (fun _ _ _ _ h _ => PastLine.call hr hcase h) hf hf' hdata hdata' hu hu' h
  cases hpaired with
  | fault hf hf' hI =>
    cases hI with
    | line _ _ hd hdone => exact .fault hf hf' hdone (hd ▸ hdone)
    | lines h => exact .fault hf hf' h.processed h.processed'
  | going hf hf' hI => exact .pastLine hf hf' hI
  | settled hJ => exact .settled hJ

theorem on_line_paired {c : Connection HttpConnection} (hf : c.fault = false) (hdata : data ≠ [])
    (hmemory : Addressable c data) (hu : Request.Forward u c data) (hy : y ≠ [])
    (h : OnLine r u done y c.derived (c.socketBuffer.content ++ data) c.derived
      (c.socketBuffer.content ++ data))
    (hmore : more = y ++ lf :: (block r.fields ++ tail))
    (hmore' : more' = y ++ lf :: (block r'.fields ++ tail)) :
    Abreast r r' tail u done more more' (c.stubConnRead (dataProcessing u) data)
      (c.stubConnRead (dataProcessing u) data) := by
  have hstale : (Connection.readInto c.socketBuffer data).stale.length < npos := by
    rw [AutoBuffer.stale, List.length_drop]
    exact hmemory
  have hpaired := reads_paired (P := StaysForward u)
    (fun _ _ _ _ h => congrArg List.length (OnLine.same h).2)
    (fun _ _ _ _ _ _ => Settled.left) (fun _ _ _ _ _ _ => Settled.right) _ _ rfl rfl
    (fun _ _ _ _ h _ _ _ => OnLine.call h hy hstale) hf hf hdata hdata hu hu h
  cases hpaired with
  | fault hf hf' hI => exact .fault hf hf' hI.processed hI.processed
  | going hf hf' hI => exact .onLine rfl hf hI hy hmore hmore'
  | settled hJ => exact .settled hJ

theorem Abreast.read (hr : r.Recased r') (hcase : ∀ f ∈ r.fields, f.AnyCase)
    {c c' : Connection HttpConnection}
    (h : Abreast r r' tail u done (data ++ more) (data' ++ more') c c')
    (hlen : data.length = data'.length) (hmemory : Addressable c data)
    (hu : Request.Forward u c data) (hu' : Request.Forward u c' data') :
    Abreast r r' tail u done more more' (c.stubConnRead (dataProcessing u) data)
      (c'.stubConnRead (dataProcessing u) data') := by
  by_cases hdata : data = []
  · obtain rfl : data' = [] := List.eq_nil_of_length_eq_zero (by rw [← hlen, hdata]; rfl)
    subst hdata
    have hskip : ∀ c : Connection HttpConnection, c.stubConnRead (dataProcessing u) [] = c := by
      intro c
      simp [Connection.stubConnRead]
    rw [hskip, hskip]
    exact h
  · cases h with
    | fault hf hf' hp hp' =>
      have hskip : ∀ (c : Connection HttpConnection) data, c.fault = true →
          c.stubConnRead (dataProcessing u) data = c := by
        intro c data hc
        simp [Connection.stubConnRead, hc]
      rw [hskip c data hf, hskip c' data' hf']
      exact .fault hf hf' hp hp'
    | @onLine y hc hf h hy hmore hmore' =>
      subst hc
      obtain ⟨-, ⟨v, hs, hl⟩, hdone⟩ := h
      rcases Scan.append_split hmore with ⟨z, rfl⟩ | ⟨x, rfl, hx⟩
      · -- nothing but the first line has arrived: the two arrivals are one
        have hl := hl.arrive
        rw [List.append_assoc] at hmore hmore'
        have hrest := List.append_cancel_left hmore
        obtain ⟨rfl, hrest'⟩ := List.append_inj hmore' hlen.symm
        by_cases hz : z = []
        · subst hz
          refine past_line_paired hr hcase hf hf hdata rfl hu hu ?_
          exact .line [] [] rfl hdone hs hl (List.append_nil _).symm
            (List.append_nil _).symm rfl hrest hrest'
        · exact on_line_paired hf hdata hmemory hu hz ⟨⟨rfl, rfl⟩, ⟨v, hs, hl⟩, hdone⟩ hrest hrest'
      · rcases Scan.append_split hmore' with hshort | ⟨x', rfl, hx'⟩
        · have hle := hshort.length_le
          rw [← hlen, List.length_append, List.length_cons] at hle
          omega
        · have hl : v.Leads (c.socketBuffer.content ++ y) [] r.firstView := by
            have hopen := hl
            rw [← List.append_nil y] at hopen
            exact hopen.arrive
          refine past_line_paired hr hcase hf hf hdata hlen hu hu' ?_
          exact .line (lf :: x) (lf :: x') rfl hdone hs hl
            (List.append_assoc _ _ _).symm (List.append_assoc _ _ _).symm
            (by simpa using hlen) (congrArg (lf :: ·) hx) (congrArg (lf :: ·) hx')
    | pastLine hf hf' h => exact past_line_paired hr hcase hf hf' hdata hlen hu hu' (h.arrive hlen)
    | settled h =>
      exact .settled (read_keep (J := fun d' => Settled done _ d')
        (fun _ _ _ _ _ hJ he => hJ.right he) c' data'
        (read_keep (J := fun d => Settled done d c'.derived) (fun _ _ _ _ _ hJ he => hJ.left he) c
          data h))

theorem Abreast.reads (hr : r.Recased r') (hcase : ∀ f ∈ r.fields, f.AnyCase)
    {c c' : Connection HttpConnection} {segments segments' : List (List UInt8)}
    (hsizes : List.Forall₂ (fun s s' => s.length = s'.length) segments segments')
    (h : Abreast r r' tail u done (segments.flatten ++ more) (segments'.flatten ++ more') c c')
    (hmemory : Request.EachArrival (fun c _ data => Addressable c data) u c segments)
    (hu : c.RunCalls (StaysForward u) (dataProcessing u) segments)
    (hu' : c'.RunCalls (StaysForward u) (dataProcessing u) segments') :
    Abreast r r' tail u done more more' (c.reads (dataProcessing u) segments)
      (c'.reads (dataProcessing u) segments') := by
  induction hsizes generalizing c c' with
  | nil => exact h
  | @cons data data' segments segments' hlen _ ih =>
    rw [List.flatten_cons, List.append_assoc, List.flatten_cons, List.append_assoc] at h
    refine ih (h.read hr hcase hlen (hmemory [] data segments rfl) hu.1 hu'.1) ?_ hu.2 hu'.2
    rintro before data after rfl
    exact hmemory (_ :: before) data after rfl

/-- At the end both runs have processed the request as the same message, or neither has. -/
theorem Abreast.entries {c c' : Connection HttpConnection}
    (h : Abreast r r' tail u done more more' c c') :
    Option.Rel SameMessage c.derived.processed[done.length]? c'.derived.processed[done.length]? := by
  have hnone : c.derived.processed = done → c'.derived.processed = done →
      Option.Rel SameMessage c.derived.processed[done.length]?
        c'.derived.processed[done.length]? := by
    intro hp hp'
    rw [hp, hp', List.getElem?_eq_none (Nat.le_refl _)]
    exact .none
  cases h with
  | fault _ _ hp hp' => exact hnone hp hp'
  | onLine hc _ h => exact hnone h.processed (hc ▸ h.processed)
  | pastLine _ _ h =>
    cases h with
    | line _ _ hd hdone => exact hnone hdone (hd ▸ hdone)
    | lines h => exact hnone h.processed h.processed'
  | settled h =>
    cases h with
    | @answered a a' hsame hd hd' =>
      have hget : ∀ (a : HttpHeader × Nat) (all : List (HttpHeader × Nat)), done ++ [a] <+: all →
          all[done.length]? = some a := by
        rintro a _ ⟨later, rfl⟩
        rw [List.append_assoc, List.getElem?_append_right (Nat.le_refl _), Nat.sub_self]
        rfl
      rw [hget a _ hd, hget a' _ hd']
      exact .some hsame
    | stuck hs hs' => exact hnone hs.1 hs'.1

theorem abreast_start {c : Connection HttpConnection} (hb : Request.Between c) (hr : r.Recased r')
    (u : Uninitialised) (tail : List UInt8) :
    Abreast r r' tail u c.derived.processed (r.text ++ tail) (r'.text ++ tail) c c := by
  have hshows : Shows (c.derived.processor u) .cleared := by
    rw [processor, hb.idle]
    exact shows_new _
  have hsplit : ∀ r : Head, r.text ++ tail = r.lineOpen ++ lf :: (block r.fields ++ tail) := by
    intro r
    rw [text, first_line_open, List.append_assoc, List.append_assoc]
    rfl
  have hopen : r.lineOpen ≠ [] := by simp [lineOpen]
  refine .onLine rfl hb.fault ⟨⟨rfl, rfl⟩, ⟨_, hshows, ?_⟩, rfl⟩ hopen (hsplit r) ?_
  · rw [hb.content]
    exact r.leads
  · rw [hsplit r', hr.line_open]

end Head

end Khorost
