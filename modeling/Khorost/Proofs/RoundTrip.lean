import Khorost.Proofs.Process

namespace Khorost.Request

open HttpHeader

/-- What a handler can ask a parser about the request. -/
structure Answers (h : HttpHeader) (r : Request) : Prop where
  ready : h.isReady = true
  method : h.getQueryMethod = some r.method
  uri : h.getQueryUri = some r.uri
  version : h.getQueryVersion = some r.version
  header : ∀ param defaultValue, h.getHeaderParameter param defaultValue =
    lookupField (r.fields.map (fun f => (f.key, f.text))) param defaultValue
  cookie : ∀ key defaultValue, h.getCookie key defaultValue =
    lookupPair (cookiesOf (r.fields.map (fun f => (f.key, f.text)))) key defaultValue
  parameter : ∀ key defaultValue, h.getParameter key defaultValue =
    lookupPair (paramsPairs (queryText r.query (r.fields.map (fun f => (f.key, f.text))) r.body))
      key defaultValue
  exist : ∀ key, h.isParameterExist key =
    (paramsPairs (queryText r.query (r.fields.map (fun f => (f.key, f.text))) r.body)).any
      (fun p => strcaseEq key p.1)
  body : h.getBody = r.body

/-- Without stray line feeds the fields are stored as they were sent. -/
theorem stored_clean (hseen : Seen seen [] all) (hclean : ∀ s ∈ seen, s.1 = false) :
    seen.map storedField = all.map (fun f => (f.key, f.text)) := by
  obtain ⟨rfl, -⟩ := hseen
  rw [List.append_nil, List.map_map]
  refine List.map_congr_left (fun s hs => ?_)
  rw [storedField, hclean s hs]
  rfl

theorem answers_of_shows (hs : Shows h (r.readyView seen params size)) (hseen : Seen seen [] r.fields)
    (hclean : ∀ s ∈ seen, s.1 = false) : Answers h r := by
  have hfields := stored_clean hseen hclean
  refine ⟨hs.is_ready.mpr ⟨rfl, rfl⟩, hs.get_query_method, hs.get_query_uri, hs.get_query_version,
    fun param d => ?_, fun key d => ?_, fun key d => ?_, fun key => ?_, hs.get_body⟩
  · rw [hs.get_header_parameter, ← hfields]
    rfl
  · rw [hs.get_cookie, ← hfields]
    rfl
  · rw [hs.get_parameter, ← hfields]
    rfl
  · rw [hs.is_parameter_exist, ← hfields]
    rfl

theorem serialize_nonempty (r : Request) : r.serialize ≠ [] := by
  simp [serialize]

theorem version_on_nonempty (r : Request) : r.versionOn ≠ [] := by
  simp [versionOn]

/-- The whole request in one piece, with nothing behind it. -/
theorem whole_arrival (r : Request) (stale : List UInt8) :
    Arrival r .method r.serialize [] stale := by
  have hnone : ∀ tail, r.serialize ++ tail = r.rest .method → tail = [] := by
    intro tail ht
    simpa [rest] using ht
  refine ⟨by rw [List.append_nil]; exact List.prefix_rfl, fun tail left ht hl => ?_,
    fun tail ht _ hv => ?_, fun _ _ _ ht => by cases ht⟩
  · rw [hnone tail ht] at hl
    cases hl
  · rw [hnone tail ht] at hv
    exact absurd hv.symm r.version_on_nonempty

theorem whole_completes (hs : Shows h (r.view .method)) (stale : List UInt8) (u : Nat) :
    ∃ h', h.processData (r.serialize ++ stale) r.serialize.length u =
        some (h', r.serialize.length) ∧ Answers h' r := by
  have hphase : h.headerProcess = .processingFirst := hs.headerProcess
  obtain ⟨h', n, he, hle, hcase⟩ := process_outcome (u := u) hs trivial r.serialize_nonempty
    (whole_arrival r stale) (stays_outside_lines (by rw [hphase]; decide))
  rw [Nat.zero_add] at he
  rcases hcase with ⟨t', hw⟩ | ⟨seen, hd⟩
  · rcases hw.short with hlt | ⟨-, -, hlt⟩
    · exact absurd hlt (Nat.lt_irrefl _)
    · exact absurd hlt (Nat.lt_irrefl _)
  · obtain ⟨params, size, hshows⟩ := hd.shows
    have hn : n = r.serialize.length := by
      have htake := congrArg List.length hd.taken
      rw [List.length_take, Nat.min_eq_left hle] at htake
      exact htake
    subst hn
    exact ⟨h', he, answers_of_shows hshows hd.fields (hd.clean trivial)⟩

theorem strcase_trans (hab : strcaseEq a b = true) (hac : strcaseEq a c = true) :
    strcaseEq b c = true := by
  simp only [strcaseEq, beq_iff_eq] at hab hac ⊢
  rw [← hab, hac]

theorem lookup_first (before after : List (List UInt8 × List UInt8)) (f : List UInt8 × List UInt8)
    (hfirst : ∀ g ∈ before, strcaseEq f.1 g.1 = false) (hname : strcaseEq name f.1 = true)
    (defaultValue : Option (List UInt8)) :
    lookupField (before ++ f :: after) name defaultValue = some (shownValue f) := by
  have hfind : (before ++ f :: after).find? (fun g => strcaseEq name g.1) = some f := by
    have hbefore : before.find? (fun g => strcaseEq name g.1) = none := by
      refine List.find?_eq_none.mpr (fun g hg hng => ?_)
      have := strcase_trans hname hng
      rw [hfirst g hg] at this
      cases this
    rw [List.find?_append, hbefore, List.find?_cons, hname]
    rfl
  rw [lookupField, hfind]

/-- A request serialised and given to a cleared parser in one call is taken to
its last byte, and every part of it can be read back. -/
theorem serialized_request_parsed (r : Request) (h : HttpHeader) (stale : List UInt8) (u : Nat) :
    ∃ h', h.clear.processData (r.serialize ++ stale) r.serialize.length u =
        some (h', r.serialize.length) ∧
      h'.isReady = true ∧ h'.getQueryMethod = some r.method ∧ h'.getQueryUri = some r.uri ∧
      h'.getQueryVersion = some r.version ∧ h'.getBody = r.body ∧
      ∀ before f after, r.fields = before ++ f :: after →
        (∀ g ∈ before, strcaseEq f.key g.key = false) →
        strcaseEq f.key (ascii "Cookie") = false →
        ∀ name defaultValue, strcaseEq name f.key = true →
          h'.getHeaderParameter name defaultValue = some (f.value.dropWhile (· = space)) := by
  obtain ⟨h', he, ha⟩ := whole_completes (r := r) (shows_clear h) stale u
  refine ⟨h', he, ha.ready, ha.method, ha.uri, ha.version, ha.body, ?_⟩
  intro before f after hfields hfirst hcookie name defaultValue hname
  have hplain : f.key ≠ ascii "Cookie" := by
    intro hc
    rw [hc] at hcookie
    exact absurd hcookie (by decide)
  rw [ha.header, hfields, List.map_append, List.map_cons, lookup_first _ _ _ _ hname, shownValue,
    if_neg hplain]
  · rfl
  · intro g hg
    obtain ⟨field, hmem, rfl⟩ := List.mem_map.mp hg
    exact hfirst field hmem

end Khorost.Request
