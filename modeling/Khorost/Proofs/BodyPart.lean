import Khorost.Proofs.HeaderLines

namespace Khorost

def queryContent : Option (List UInt8) → List UInt8
  | none => []
  | some q => q ++ [nul]

def isFormFields (fields : List (List UInt8 × List UInt8)) : Bool :=
  match lookupField fields (ascii "Content-Type") none with
  | some contentType =>
    (findMatch (ascii "application/x-www-form-urlencoded") contentType false).isSome
  | none => false

/-- The query and the body of a form as one parameter text. -/
def joinForm : Option (List UInt8) → List UInt8 → List UInt8
  | none, body => body
  | some q, body =>
    if q = [] ∨ q.getLast? = some ampersand then q ++ body else q ++ ampersand :: body

/-- The parameter text of a request with the given body. -/
def queryText (query : Option (List UInt8)) (fields : List (List UInt8 × List UInt8))
    (body : List UInt8) : Option (List UInt8) :=
  if body ≠ [] ∧ isFormFields fields then some (joinForm query body) else query

/-- What stands of a query in front of the body of a form. -/
def endedQuery (q : List UInt8) : List UInt8 :=
  if q = [] ∨ q.getLast? = some ampersand then q else q ++ [ampersand]

/-- `m_content_length` once the body has been taken. That of a form is counted up
by the query in front of it. -/
def finishedLength (query : Option (List UInt8)) (fields : List (List UInt8 × List UInt8))
    (contentLength : Nat) : Nat :=
  match query with
  | none => contentLength
  | some q =>
    if isFormFields fields then
      (contentLength + sizeT (((endedQuery q).length : Int).bmod (2 ^ 32))) % 2 ^ 64
    else contentLength

def paramsPairs : Option (List UInt8) → List (List UInt8 × Option (List UInt8))
  | none => []
  | some text => pairsOf ampersand false (cStr text)

/-- What `m_ab_params_` holds once the parameters have been split. -/
def splitParams : Option (List UInt8) → List UInt8
  | none => []
  | some text => (splitText ampersand false (cStr text) [] 0 none).1 ++
      (text ++ [nul]).drop (cStr text).length

namespace HttpHeader

variable {h : HttpHeader} {v : View} {p : List UInt8}

theorem shows_is_form (hs : Shows h v) : h.isForm = isFormFields v.fields := by
  rw [isForm, hs.get_header_parameter]
  rfl

theorem end_with_ampersand {b : AutoBuffer UInt8} (hb : b.content = q ++ [nul]) :
    (endWithAmpersand b).content = endedQuery q := by
  have hk : b.fillSize = q.length + 1 := by
    rw [← AutoBuffer.content_length, hb, List.length_append, List.length_singleton]
  have hbuffer : b.buffer = q ++ nul :: b.stale := by
    rw [b.buffer_split, hb, List.append_assoc]
    rfl
  have hlast : b.buffer[b.fillSize - 1]? = some nul := by
    rw [hbuffer, hk]
    simp
  have hbefore : q ≠ [] → b.buffer[b.fillSize - 2]? = q.getLast? := by
    intro hq
    have hpos := List.length_pos_iff.mpr hq
    have hidx : q.length + 1 - 2 = q.length - 1 := by omega
    rw [hbuffer, hk, hidx, List.getElem?_append_left (by omega), List.getLast?_eq_getElem?]
  simp only [endWithAmpersand, if_pos hlast, endedQuery]
  by_cases hjoin : q = [] ∨ q.getLast? = some ampersand
  · have hcond : ¬ (1 < b.fillSize ∧ b.buffer[b.fillSize - 2]? ≠ some ampersand) := by
      rintro ⟨hlt, hne⟩
      have hq : q ≠ [] := by
        rintro rfl
        simp [hk] at hlt
      rw [hbefore hq] at hne
      exact hjoin.elim hq hne
    rw [if_neg hcond, if_pos hjoin, AutoBuffer.content_increment, hb, hk, Nat.add_sub_cancel,
      List.take_left]
  · obtain ⟨hq, hne⟩ := not_or.mp hjoin
    have hpos := List.length_pos_iff.mpr hq
    have hcond : 1 < b.fillSize ∧ b.buffer[b.fillSize - 2]? ≠ some ampersand :=
      ⟨by omega, by rwa [hbefore hq]⟩
    rw [if_pos hcond, if_neg hjoin, AutoBuffer.content_set, hb, hk, Nat.add_sub_cancel,
      List.set_append_right _ _ (Nat.le_refl _), Nat.sub_self]
    rfl

/-- The query and the body are joined with one ampersand between them. -/
theorem merge_form_params (hq : h.abParams.content = queryContent q) :
    (mergeForm h).abParams.content = joinForm q h.abBody.content ++ [nul] := by
  cases q with
  | none =>
    have hk : h.abParams.fillSize = 0 := by rw [AutoBuffer.fill_zero_iff, hq]; rfl
    simp only [mergeForm, hk, if_true, AutoBuffer.content_append, hq, queryContent, joinForm,
      List.nil_append]
  | some q =>
    have hk : h.abParams.fillSize ≠ 0 := by
      rw [← AutoBuffer.content_length, hq]
      simp [queryContent]
    simp only [mergeForm, if_neg hk, AutoBuffer.content_append, end_with_ampersand hq, joinForm,
      endedQuery]
    split <;> simp

theorem merge_form_length (hq : h.abParams.content = queryContent q)
    (hf : isFormFields fields = true) :
    (mergeForm h).contentLength = finishedLength q fields h.contentLength := by
  cases q with
  | none =>
    have hk : h.abParams.fillSize = 0 := by rw [AutoBuffer.fill_zero_iff, hq]; rfl
    simp only [mergeForm, hk, if_true, finishedLength]
  | some q =>
    have hk : h.abParams.fillSize ≠ 0 := by
      rw [← AutoBuffer.content_length, hq]
      simp [queryContent]
    have hended : (endWithAmpersand h.abParams).fillSize = (endedQuery q).length := by
      rw [← AutoBuffer.content_length, end_with_ampersand hq]
    simp only [mergeForm, if_neg hk, hended, finishedLength, hf, if_true]

theorem parse_params (b : AutoBuffer UInt8) (hb : b.content = queryContent text) :
    ∃ b' pairs, parseString b b.fillSize 0 [] ampersand false = some (b', pairs) ∧
      b'.content = splitParams text ∧
      List.Forall₂ (ShowsPair b'.content) pairs (paramsPairs text) := by
  cases text with
  | none =>
    have hk : b.fillSize = 0 := by rw [AutoBuffer.fill_zero_iff, hb]; rfl
    rw [hk]
    exact ⟨b, [], rfl, hb, .nil⟩
  | some text =>
    obtain ⟨after, ha⟩ := c_str_split text []
    have hcontent : b.content = cStr text ++ nul :: after := by rw [hb, queryContent, ha]
    have hbuffer : b.buffer = [] ++ cStr text ++ nul :: (after ++ b.stale) := by
      rw [b.buffer_split, hcontent]
      simp
    have hk : b.fillSize = (cStr text).length + (after.length + 1) := by
      rw [← AutoBuffer.content_length, hcontent]
      simp
    obtain ⟨b', pairs, he, hb', hr, hp⟩ := parse_string_text ampersand false b [] (cStr text)
      (after ++ b.stale) hbuffer (c_str_clear text) b.fillSize (by omega) []
    have hlen := split_text_length ampersand false (cStr text) [] 0 none
    have hcontent' : b'.content =
        [] ++ (splitText ampersand false (cStr text) [] 0 none).1 ++ nul :: after := by
      have hb' : b'.buffer = ([] ++ (splitText ampersand false (cStr text) [] 0 none).1 ++
          nul :: after) ++ b.stale := by
        rw [hb']
        simp
      apply content_of_buffer b' hb'
      have hready : b'.readyPosition = b.fillSize := hr
      rw [hready, hk]
      simp only [List.length_append, hlen, List.length_nil, Nat.zero_add, List.length_cons]
    refine ⟨b', pairs, he, ?_, ?_⟩
    · rw [hcontent', splitParams, ha, List.drop_left]
      rfl
    · rw [hcontent']
      exact hp after

theorem pairs_nil (hs : Shows h v) (hp : v.pairs = []) : h.paramsValue = [] := by
  have := hs.pairs
  rw [hp] at this
  exact List.forall₂_nil_right_iff.mp this

/-- Nothing has been found in the parameters yet, so they may change. -/
theorem shows_params (hs : Shows h v) (hp : v.pairs = []) (b : AutoBuffer UInt8) (n : Nat) :
    Shows { h with abParams := b, contentLength := n }
      { v with params := b.content, contentLength := n } :=
  { hs with
    params := rfl
    pairs := by
      rw [pairs_nil hs hp, hp]
      exact .nil
    contentLength := rfl }

theorem merge_form_shows (hs : Shows h v) (hp : v.pairs = []) (hq : v.params = queryContent q)
    (hf : isFormFields v.fields = true) :
    Shows (mergeForm h) { v with
      params := queryContent (some (joinForm q v.body))
      contentLength := finishedLength q v.fields v.contentLength } := by
  have hmerge := merge_form_params (h := h) (hs.params.trans hq)
  have hlength := merge_form_length (hs.params.trans hq) hf
  have hshows := shows_params hs hp (mergeForm h).abParams (mergeForm h).contentLength
  have heq : { h with
      abParams := (mergeForm h).abParams
      contentLength := (mergeForm h).contentLength } = mergeForm h := by
    unfold mergeForm
    dsimp only
    split <;> rfl
  rwa [hmerge, hs.body, heq, hlength, hs.contentLength] at hshows

theorem body_wait (hs : Shows h v) (hb : v.bodyProcess = .none) (l : Locals) :
    bodyPart h l = some (h, l.processByte) := by
  have hno : ¬ (h.bodyProcess = .processingFirst ∨ h.bodyProcess = .processingNext) := by
    rw [hs.bodyProcess, hb]
    simp
  rw [bodyPart, if_neg hno]

/-- While the body is not complete the parser waits for more. -/
theorem body_unfinished (hs : Shows h v) (hb : v.bodyProcess = .processingFirst)
    (ht : h.takeBody l = some (h', n)) (hs' : Shows h' v') (hb' : v'.bodyProcess = .processingFirst) :
    bodyPart h l = some (h', n) := by
  have hyes : h.bodyProcess = .processingFirst ∨ h.bodyProcess = .processingNext := by
    rw [hs.bodyProcess, hb]
    exact .inl rfl
  have hno : h'.bodyProcess ≠ .successful := by
    rw [hs'.bodyProcess, hb']
    decide
  rw [bodyPart, if_pos hyes, ht]
  exact if_neg hno

theorem body_finished (hs : Shows h v) (hb : v.bodyProcess = .processingFirst)
    (ht : h.takeBody l = some (h₁, n)) (hs₁ : Shows h₁ v₁) (hb₁ : v₁.bodyProcess = .successful)
    (hp : v₁.pairs = []) (hq : v₁.params = queryContent text) :
    ∃ h', bodyPart h l = some (h', n) ∧
      Shows h' { v₁ with params := splitParams text, pairs := paramsPairs text } := by
  have hyes : h.bodyProcess = .processingFirst ∨ h.bodyProcess = .processingNext := by
    rw [hs.bodyProcess, hb]
    exact .inl rfl
  have hdone : h₁.bodyProcess = .successful := by rw [hs₁.bodyProcess, hb₁]
  obtain ⟨b, pairs, he, hparams, hpairs⟩ := parse_params h₁.abParams (hs₁.params.trans hq)
  refine ⟨{ h₁ with abParams := b, paramsValue := pairs }, ?_,
    { hs₁ with params := hparams, pairs := hpairs }⟩
  rw [bodyPart, if_pos hyes, ht]
  simp only [Option.bind_eq_bind, Option.bind_some, hdone, if_true, pairs_nil hs₁ hp, he]

/-- Without a `Content-Length`, or with one of zero and nothing behind the
header, the request is complete. -/
theorem body_empty (hs : Shows h v) (hb : v.bodyProcess = .processingFirst) (hp : v.pairs = [])
    (hq : v.params = queryContent q)
    (hl : v.contentLength = npos ∨ (p.length = 0 ∧ v.contentLength = 0)) (stale : List UInt8)
    (n u : Nat) :
    ∃ h', bodyPart h (localsAt p stale n u) = some (h', n) ∧
      Shows h' { v with
        bodyProcess := .successful
        contentLength := 0
        params := splitParams q
        pairs := paramsPairs q } := by
  have ht : h.takeBody (localsAt p stale n u) =
      some ({ h with bodyProcess := .successful, contentLength := 0 }, n) := by
    rw [← hs.contentLength] at hl
    rw [takeBody]
    exact if_pos hl
  have hs₁ : Shows { h with bodyProcess := .successful, contentLength := 0 }
      { v with bodyProcess := .successful, contentLength := 0 } :=
    { hs with bodyProcess := rfl, contentLength := rfl }
  exact body_finished hs hb ht hs₁ rfl hp hq

/-- Nothing is taken when there is nothing to take, or nothing is wanted. -/
theorem body_idle (hs : Shows h v) (hb : v.bodyProcess = .processingFirst)
    (hl : v.contentLength ≠ npos) (hp : min p.length v.contentLength = 0)
    (hne : ¬ (p.length = 0 ∧ v.contentLength = 0)) (stale : List UInt8) (n u : Nat) :
    bodyPart h (localsAt p stale n u) = some (h, n) := by
  rw [← hs.contentLength] at hl hp hne
  have hno : ¬ (h.contentLength = npos ∨ (p.length = 0 ∧ h.contentLength = 0)) :=
    not_or.mpr ⟨hl, hne⟩
  have ht : h.takeBody (localsAt p stale n u) = some (h, n) := by
    rw [takeBody]
    simp only [localsAt, if_neg hno, hp, ne_eq, not_true_eq_false, if_false]
  exact body_unfinished hs hb ht hs hb

theorem take_body (hs : Shows h v) (hl : v.contentLength ≠ npos)
    (hne : p.take v.contentLength ≠ []) (stale : List UInt8) (n u : Nat) :
    h.takeBody (localsAt p stale n u) =
      let h₁ := { h with abBody := h.abBody.append (p.take v.contentLength) }
      some (if v.contentLength ≤ (v.body ++ p.take v.contentLength).length then
        let h₂ := { h₁ with bodyProcess := .successful }
        if h₂.isForm then h₂.mergeForm else h₂
      else h₁, n + (p.take v.contentLength).length) := by
  have hlen : (p.take v.contentLength).length = min p.length v.contentLength := by
    rw [List.length_take, Nat.min_comm]
  have hpos : min p.length v.contentLength ≠ 0 := by
    rw [← hlen]
    exact fun h0 => hne (List.eq_nil_of_length_eq_zero h0)
  have hno : ¬ (v.contentLength = npos ∨ (p.length = 0 ∧ v.contentLength = 0)) := by
    rintro (h0 | ⟨h0, -⟩)
    · exact hl h0
    · rw [h0, Nat.zero_min] at hpos
      exact hpos rfl
  have hmem : ¬ (p ++ stale).length < min p.length v.contentLength := by
    rw [List.length_append]
    omega
  have htake : (p ++ stale).take (min p.length v.contentLength) = p.take v.contentLength := by
    rw [List.take_append_of_le_length (Nat.min_le_left _ _)]
    exact List.take_eq_take_iff.mpr (by omega)
  have hfill : (h.abBody.append (p.take v.contentLength)).fillSize =
      (v.body ++ p.take v.contentLength).length := by
    rw [← AutoBuffer.content_length, AutoBuffer.content_append, hs.body]
  rw [takeBody]
  simp only [localsAt, hs.contentLength, if_neg hno, hpos, ne_eq, not_false_eq_true, if_true,
    if_neg hmem, htake, hfill, hlen]

theorem body_part (hs : Shows h v) (hb : v.bodyProcess = .processingFirst)
    (hl : v.contentLength ≠ npos) (hne : p.take v.contentLength ≠ [])
    (hlt : (v.body ++ p.take v.contentLength).length < v.contentLength) (stale : List UInt8)
    (n u : Nat) :
    ∃ h', bodyPart h (localsAt p stale n u) = some (h', n + (p.take v.contentLength).length) ∧
      Shows h' { v with body := v.body ++ p.take v.contentLength } := by
  have hs' : Shows { h with abBody := h.abBody.append (p.take v.contentLength) }
      { v with body := v.body ++ p.take v.contentLength } :=
    { hs with body := by rw [AutoBuffer.content_append, hs.body] }
  have ht := take_body hs hl hne stale n u
  simp only [if_neg (Nat.not_le.mpr hlt)] at ht
  exact ⟨_, body_unfinished hs hb ht hs' hb, hs'⟩

/-- The last part of the body is stored, and the request is complete. -/
theorem body_last (hs : Shows h v) (hb : v.bodyProcess = .processingFirst) (hp : v.pairs = [])
    (hq : v.params = queryContent q) (hl : v.contentLength ≠ npos)
    (hne : p.take v.contentLength ≠ [])
    (hle : v.contentLength ≤ (v.body ++ p.take v.contentLength).length) (stale : List UInt8)
    (n u : Nat) :
    ∃ h', bodyPart h (localsAt p stale n u) =
        some (h', n + (p.take v.contentLength).length) ∧
      Shows h' { v with
        body := v.body ++ p.take v.contentLength
        bodyProcess := .successful
        contentLength := finishedLength q v.fields v.contentLength
        params := splitParams (queryText q v.fields (v.body ++ p.take v.contentLength))
        pairs := paramsPairs (queryText q v.fields (v.body ++ p.take v.contentLength)) } := by
  have hs₂ : Shows { h with
      abBody := h.abBody.append (p.take v.contentLength)
      bodyProcess := .successful } { v with
      body := v.body ++ p.take v.contentLength
      bodyProcess := .successful } :=
    { hs with
      body := by rw [AutoBuffer.content_append, hs.body]
      bodyProcess := rfl }
  have hbody : v.body ++ p.take v.contentLength ≠ [] := by
    intro h0
    exact hne (List.append_eq_nil_iff.mp h0).2
  have ht := take_body hs hl hne stale n u
  simp only [if_pos hle, shows_is_form hs₂] at ht
  by_cases hf : isFormFields v.fields = true
  · rw [if_pos hf] at ht
    have hs₁ := merge_form_shows hs₂ hp hq hf
    have hjoined : queryContent (some (joinForm q (v.body ++ p.take v.contentLength))) =
        queryContent (some (joinForm q (v.body ++ p.take v.contentLength))) := rfl
    obtain ⟨h', he, hs'⟩ := body_finished hs hb ht hs₁ rfl hp hjoined
    refine ⟨h', he, ?_⟩
    rw [queryText, if_pos ⟨hbody, hf⟩]
    exact hs'
  · rw [if_neg hf] at ht
    obtain ⟨h', he, hs'⟩ := body_finished hs hb ht hs₂ rfl hp hq
    have hlength : finishedLength q v.fields v.contentLength = v.contentLength := by
      cases q with
      | none => rfl
      | some q => exact if_neg hf
    refine ⟨h', he, ?_⟩
    rw [queryText, if_neg (fun h0 => hf h0.2), hlength]
    exact hs'

end HttpHeader

end Khorost
