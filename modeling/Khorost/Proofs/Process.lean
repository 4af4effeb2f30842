import Khorost.Proofs.Requests

namespace Khorost.Request

open HttpHeader Scan

/-- The data `p` at the pointer belongs to the request, and does not end where
the parser goes wrong. `stale` is the memory behind it, `more` what follows the
request on the connection. -/
structure Arrival (r : Request) (t : Todo) (p more stale : List UInt8) : Prop where
  fits : p <+: r.rest t ++ more
  lines : ∀ tail left, p ++ tail = r.rest t → tail = lf :: r.linesFrom left →
    left <:+ r.fields → Harmless left
  uri : ∀ tail, p ++ tail = r.rest t → r.query = none → tail = r.versionOn →
    ∃ c ∈ stale.head?, c ≠ question
  body : ∀ seen got left, t = .body seen got left → got ≠ [] → p <+: left

/-- The data does not end between the two bytes of a line end. -/
def CleanCut (r : Request) (t : Todo) (p : List UInt8) : Prop :=
  ∀ tail left, p ++ tail = r.rest t → left <:+ r.fields → tail ≠ lf :: r.linesFrom left

/-- The parser has taken `n` bytes and needs more of the request. Only a request
with an empty body can be waiting although all of it has arrived. -/
structure Waits (r : Request) (t : Todo) (p : List UInt8) (h : HttpHeader) (n : Nat)
    (t' : Todo) : Prop where
  shows : Shows h (r.view t')
  at_ : r.At t'
  taken : p.take n ++ r.rest t' = r.rest t
  clean : Clean t → CleanCut r t p → Clean t'
  body : ∀ seen got left, t' = .body seen got left → got ≠ [] → p.drop n = []
  short : p.length < (r.rest t).length ∨
    (r.body = [] ∧ (∃ f ∈ r.fields, f.IsLength) ∧ (r.rest t).length < p.length)

/-- The parser has taken the request to its last byte and is ready. With a
`Content-Length` of zero nothing follows the request. -/
structure Completes (r : Request) (t : Todo) (p : List UInt8) (h : HttpHeader) (n : Nat)
    (seen : List (Bool × Field)) : Prop where
  shows : ∃ params size, Shows h (r.readyView seen params size)
  fields : Seen seen [] r.fields
  taken : p.take n = r.rest t
  clean : Clean t → ∀ s ∈ seen, s.1 = false
  alone : r.body = [] → (∃ f ∈ r.fields, f.IsLength) → p.length = (r.rest t).length

/-- What a call leaves behind that has begun at the stage `t` on the data `p`;
`start` bytes have been counted before. -/
def Outcome (r : Request) (t : Todo) (p : List UInt8) (result : Option (HttpHeader × Nat))
    (start : Nat) : Prop :=
  ∃ h n, result = some (h, start + n) ∧ n ≤ p.length ∧
    ((∃ t', Waits r t p h n t') ∨ ∃ seen, Completes r t p h n seen)

variable {r : Request} {t t₂ : Todo} {p q p₂ more stale : List UInt8} {h : HttpHeader}

/-- What holds of the data holds of the rest of it at the stage behind. -/
theorem Arrival.after (ha : Arrival r t p more stale) (hp : p = q ++ p₂)
    (hr : r.rest t = q ++ r.rest t₂) (hb : ∀ seen got left, t₂ = .body seen got left → got = []) :
    Arrival r t₂ p₂ more stale := by
  have hwhole : ∀ tail, p₂ ++ tail = r.rest t₂ → p ++ tail = r.rest t := by
    intro tail ht
    rw [hp, hr, List.append_assoc, ht]
  refine ⟨?_, fun tail left ht => ha.lines tail left (hwhole tail ht),
    fun tail ht => ha.uri tail (hwhole tail ht), fun seen got left ht hg => ?_⟩
  · have hf := ha.fits
    rw [hp, hr, List.append_assoc, List.prefix_append_right_inj] at hf
    exact hf
  · exact absurd (hb seen got left ht) hg

theorem Outcome.after (ho : Outcome r t₂ p₂ result (start + q.length)) (hp : p = q ++ p₂)
    (hr : r.rest t = q ++ r.rest t₂) (hc : Clean t → Clean t₂) : Outcome r t p result start := by
  obtain ⟨h, n, he, hle, hcase⟩ := ho
  have htake : p.take (q.length + n) = q ++ p₂.take n := by
    rw [hp, List.take_length_add_append]
  have hdrop : p.drop (q.length + n) = p₂.drop n := by
    rw [hp, List.drop_length_add_append]
  have hlen : p.length = q.length + p₂.length := by rw [hp, List.length_append]
  have hlenr : (r.rest t).length = q.length + (r.rest t₂).length := by rw [hr, List.length_append]
  refine ⟨h, q.length + n, by rw [he, Nat.add_assoc], by omega, ?_⟩
  rcases hcase with ⟨t', hw⟩ | ⟨seen, hd⟩
  · refine .inl ⟨t', hw.shows, hw.at_, ?_, fun hct hcut => ?_, fun seen got left ht hg => ?_, ?_⟩
    · rw [htake, List.append_assoc, hw.taken, hr]
    · refine hw.clean (hc hct) (fun tail left ht hl => hcut tail left ?_ hl)
      rw [hp, hr, List.append_assoc, ht]
    · rw [hdrop]
      exact hw.body seen got left ht hg
    · rcases hw.short with hlt | ⟨hb, hf, hlt⟩
      · exact .inl (by omega)
      · exact .inr ⟨hb, hf, by omega⟩
  · refine .inr ⟨seen, hd.shows, hd.fields, ?_, fun hct => hd.clean (hc hct), fun hb hf => ?_⟩
    · rw [htake, hd.taken, hr]
    · have := hd.alone hb hf
      omega

theorem Outcome.stay (hs : Shows h (r.view t)) (hat : r.At t) (hlt : p.length < (r.rest t).length)
    (hb : ∀ seen got left, t = .body seen got left → got ≠ [] → p = []) (start : Nat) :
    Outcome r t p (some (h, start)) start :=
  ⟨h, 0, rfl, Nat.zero_le _, .inl ⟨t, hs, hat, rfl, fun hc _ => hc, hb, .inl hlt⟩⟩

theorem short_of_part {a b : List UInt8} (h : p <+: a) (hlt : a.length < b.length) :
    p.length < b.length :=
  Nat.lt_of_le_of_lt h.length_le hlt

theorem length_seen_some (hseen : Seen seen [] r.fields) (hf : ∃ f ∈ r.fields, f.IsLength) :
    r.lengthSeen seen = r.body.length := by
  obtain ⟨hmap, hflag⟩ := hseen
  obtain ⟨f, hf, hl⟩ := hf
  rw [List.append_nil] at hmap
  rw [← hmap] at hf
  obtain ⟨s, hs, rfl⟩ := List.mem_map.mp hf
  have hclean : s.1 = false := by
    cases hb : s.1 with
    | false => rfl
    | true => exact absurd hl (hflag s hs hb)
  rw [lengthSeen, if_pos ⟨s, hs, hclean, hl⟩]

theorem length_seen_none (hseen : Seen seen left r.fields) (hf : ¬ ∃ f ∈ r.fields, f.IsLength) :
    r.lengthSeen seen = npos := by
  rw [lengthSeen, if_neg]
  rintro ⟨s, hs, -, hl⟩
  refine hf ⟨s.2, ?_, hl⟩
  rw [← hseen.1]
  exact List.mem_append_left _ (List.mem_map_of_mem hs)

theorem length_ne_npos (r : Request) : r.body.length ≠ npos := by
  have := r.body_lt
  simp only [npos]
  omega

theorem body_taken (hgot : got ++ left = r.body)
    (ha : Arrival r (.body seen got left) p more stale) : p.take r.body.length <+: left := by
  by_cases hg : got = []
  · subst hg
    have hbody : left = r.body := by simpa using hgot
    have htake : p.take r.body.length <+: left ++ more := (List.take_prefix _ _).trans ha.fits
    refine List.prefix_of_prefix_length_le htake (List.prefix_append left more) ?_
    rw [List.length_take, hbody]
    exact Nat.min_le_left _ _
  · exact (List.take_prefix _ _).trans (ha.body seen got left rfl hg)

/-- A request with an empty body is ready as soon as its header has ended. -/
theorem empty_body_outcome (hs : Shows h (r.view (.body seen [] []))) (hseen : Seen seen [] r.fields)
    (hbody : r.body = []) (hl : r.lengthSeen seen = npos ∨ (p.length = 0 ∧ r.lengthSeen seen = 0))
    (start u : Nat) :
    Outcome r (.body seen [] []) p (bodyPart h (localsAt p stale start u)) start := by
  obtain ⟨h', he, hs'⟩ := body_empty hs rfl rfl rfl hl stale start u
  refine ⟨h', 0, he, Nat.zero_le _, .inr ⟨seen, ⟨splitParams r.query, 0, ?_⟩, hseen, rfl, fun hc => hc,
    fun _ hgiven => ?_⟩⟩
  have hready : r.readyView seen (splitParams r.query) 0 = { r.view (.body seen [] []) with
      bodyProcess := .successful
      contentLength := 0
      params := splitParams r.query
      pairs := paramsPairs r.query } := by
    simp [readyView, view, hbody, queryText]
  · rw [hready]
    exact hs'
  · rcases hl with hl | ⟨hl, -⟩
    · rw [length_seen_some hseen hgiven] at hl
      exact absurd hl (length_ne_npos r)
    · exact hl

theorem some_body_outcome (hs : Shows h (r.view (.body seen got left)))
    (hseen : Seen seen [] r.fields) (hgot : got ++ left = r.body) (hgiven : ∃ f ∈ r.fields, f.IsLength)
    (hleft : left ≠ []) (hp : p ≠ []) (ha : Arrival r (.body seen got left) p more stale)
    (start u : Nat) :
    Outcome r (.body seen got left) p (bodyPart h (localsAt p stale start u)) start := by
  have hlength : (r.view (.body seen got left)).contentLength = r.body.length :=
    length_seen_some hseen hgiven
  have hnpos : (r.view (.body seen got left)).contentLength ≠ npos := by
    rw [hlength]
    exact length_ne_npos r
  have hgotlen : got.length + left.length = r.body.length := by rw [← hgot, List.length_append]
  have hleftlen := List.length_pos_iff.mpr hleft
  have hplen := List.length_pos_iff.mpr hp
  obtain ⟨after, hafter⟩ := body_taken hgot ha
  have hafterlen : (p.take r.body.length).length + after.length = left.length := by
    rw [← hafter, List.length_append]
  have htakelen : (p.take r.body.length).length = min r.body.length p.length := List.length_take
  have hne : p.take (r.view (.body seen got left)).contentLength ≠ [] := by
    rw [hlength, ← List.length_pos_iff, htakelen]
    omega
  have hbody : (r.view (.body seen got left)).body = got := rfl
  by_cases hlast : after = []
  · rw [hlast, List.append_nil] at hafter
    rw [hlast, List.length_nil] at hafterlen
    have hle : (r.view (.body seen got left)).contentLength ≤
        ((r.view (.body seen got left)).body ++
          p.take (r.view (.body seen got left)).contentLength).length := by
      rw [hlength, hbody, hafter, hgot]
    obtain ⟨h', he, hs'⟩ := body_last hs rfl rfl rfl hnpos hne hle stale start u
    rw [hlength, hafter] at he
    rw [hlength, hafter, hbody, hgot] at hs'
    have hsome : r.body ≠ [] := by
      intro hb
      rw [hb, List.append_eq_nil_iff] at hgot
      exact hleft hgot.2
    refine ⟨h', left.length, he, by omega, .inr ⟨seen, ⟨_, _, hs'⟩, hseen, ?_, fun hc => hc,
      fun hb => absurd hb hsome⟩⟩
    have htake : p.take left.length = p.take r.body.length :=
      List.take_eq_take_iff.mpr (by omega)
    rw [htake, hafter]
    rfl
  · have hafterpos := List.length_pos_iff.mpr hlast
    have htake : p.take r.body.length = p := List.take_of_length_le (by omega)
    rw [htake] at hafter
    have hlt : ((r.view (.body seen got left)).body ++
        p.take (r.view (.body seen got left)).contentLength).length <
          (r.view (.body seen got left)).contentLength := by
      rw [hlength, hbody, htake, List.length_append]
      omega
    have htakev : p.take (r.view (.body seen got left)).contentLength = p := by rw [hlength, htake]
    obtain ⟨h', he, hs'⟩ := body_part hs rfl hnpos hne hlt stale start u
    rw [htakev] at he hs'
    refine ⟨h', p.length, he, Nat.le_refl _, .inl ⟨.body seen (got ++ p) after, hs', ?_, ?_,
      fun hc _ => hc, fun _ _ _ _ _ => List.drop_length, .inl ?_⟩⟩
    · exact ⟨hseen, by rw [List.append_assoc, hafter, hgot], fun h0 => absurd h0 hlast⟩
    · rw [List.take_length]
      exact hafter
    · change p.length < left.length
      omega

theorem body_outcome (hs : Shows h (r.view (.body seen got left)))
    (hat : r.At (.body seen got left)) (ha : Arrival r (.body seen got left) p more stale)
    (start u : Nat) :
    Outcome r (.body seen got left) p (bodyPart h (localsAt p stale start u)) start := by
  obtain ⟨hseen, hgot, hempty⟩ := id hat
  have hlength : (r.view (.body seen got left)).contentLength = r.lengthSeen seen := rfl
  by_cases hgiven : ∃ f ∈ r.fields, f.IsLength
  · have hsize := length_seen_some hseen hgiven
    have hnpos : (r.view (.body seen got left)).contentLength ≠ npos := by
      rw [hlength, hsize]
      exact length_ne_npos r
    by_cases hleft : left = []
    · have hbody := hempty hleft
      obtain rfl : got = [] := by
        rw [hbody, hleft, List.append_nil] at hgot
        exact hgot
      subst hleft
      have hzero : r.lengthSeen seen = 0 := by rw [hsize, hbody]; rfl
      by_cases hp : p.length = 0
      · exact empty_body_outcome hs hseen hbody (.inr ⟨hp, hzero⟩) start u
      · have hmin : min p.length (r.view (.body seen [] [])).contentLength = 0 := by
          rw [hlength, hzero, Nat.min_zero]
        rw [body_idle hs rfl hnpos hmin (fun h0 => hp h0.1)]
        exact ⟨h, 0, rfl, Nat.zero_le _, .inl ⟨_, hs, hat, rfl, fun hc _ => hc,
          fun _ _ _ ht hg => absurd (Todo.body.inj ht).2.1.symm hg,
          .inr ⟨hbody, hgiven, Nat.pos_of_ne_zero hp⟩⟩⟩
    · by_cases hp : p = []
      · subst hp
        have hpos : ([] : List UInt8).length < (r.rest (.body seen got left)).length :=
          List.length_pos_iff.mpr hleft
        have hne : (r.view (.body seen got left)).contentLength ≠ 0 := by
          rw [hlength, hsize, ← hgot, List.length_append]
          exact Nat.ne_of_gt (Nat.add_pos_right _ hpos)
        rw [body_idle hs rfl hnpos (Nat.zero_min _) (fun h0 => hne h0.2)]
        exact Outcome.stay hs hat hpos (fun _ _ _ _ _ => rfl) start
      · exact some_body_outcome hs hseen hgot hgiven hleft hp ha start u
  · have hbody : r.body = [] := r.body_absent (fun f hf hl => hgiven ⟨f, hf, hl⟩)
    obtain ⟨hgot, hleft⟩ : got = [] ∧ left = [] := by
      rw [hbody] at hgot
      exact List.append_eq_nil_iff.mp hgot
    subst hgot hleft
    exact empty_body_outcome hs hseen hbody (.inl (length_seen_none hseen hgiven)) start u

theorem rest_lines (r : Request) (seen : List (Bool × Field)) (pending : Bool) (f : Field)
    (fs : List Field) :
    r.rest (.lines seen pending (f :: fs)) =
      (storedField (pending, f)).1 ++ colon :: (f.value ++ cr :: lf :: r.linesFrom fs) := by
  cases pending <;> simp [rest, linesFrom, storedField, Field.line]

theorem stored_name_clear (s : Bool × Field) : ∀ c ∈ (storedField s).1, c ∉ [nul, cr, colon] := by
  obtain ⟨pending, f⟩ := s
  intro c hc
  have hkey : c ∈ f.key → c ∉ [nul, cr, colon] := by
    intro hc
    have := f.key_clear c hc
    simp only [List.mem_cons, List.not_mem_nil, or_false, not_or] at this ⊢
    exact ⟨this.1, this.2.1, this.2.2.2⟩
  cases pending with
  | false => exact hkey hc
  | true =>
    rcases List.mem_cons.mp hc with rfl | hc
    · decide
    · exact hkey hc

theorem stored_name_start (s : Bool × Field) : (storedField s).1.head? ≠ some space := by
  obtain ⟨pending, f⟩ := s
  cases pending with
  | false => exact f.key_start
  | true =>
    change some lf ≠ some space
    decide

/-- A stored field that gives a length is one that was sent so. -/
theorem stored_length {s : Bool × Field} (h : (storedField s).1 = ascii "Content-Length") :
    s.1 = false ∧ s.2.IsLength := by
  obtain ⟨pending, f⟩ := s
  cases pending with
  | false => exact ⟨rfl, h⟩
  | true =>
    have hhead : (ascii "Content-Length").head? = some lf := by
      rw [← h]
      rfl
    exact absurd hhead (by decide)

theorem length_seen_add (r : Request) (seen : List (Bool × Field)) (s : Bool × Field) :
    r.lengthSeen (seen ++ [s]) =
      if s.1 = false ∧ s.2.IsLength then r.body.length else r.lengthSeen seen := by
  simp only [lengthSeen, List.mem_append, List.mem_singleton, or_and_right, exists_or,
    exists_eq_left]
  by_cases hs : s.1 = false ∧ s.2.IsLength
  · simp only [hs, and_self, or_true, if_true]
  · simp only [hs, or_false, if_false]

theorem length_seen_cases (r : Request) (seen : List (Bool × Field)) :
    r.lengthSeen seen = r.body.length ∨ r.lengthSeen seen = npos := by
  unfold lengthSeen
  split
  · exact .inl rfl
  · exact .inr rfl

theorem length_add (hf : f ∈ r.fields) (seen : List (Bool × Field)) (pending : Bool)
    (left : List Field) :
    ((r.view (.lines seen pending left)).addField (storedField (pending, f))).contentLength =
      r.lengthSeen (seen ++ [(pending, f)]) := by
  have hview : (r.view (.lines seen pending left)).contentLength = r.lengthSeen seen := rfl
  rw [length_seen_add, View.addField, hview]
  by_cases hname : (storedField (pending, f)).1 = ascii "Content-Length"
  · obtain ⟨hp, hl⟩ := stored_length hname
    have hsize : sizeT (atoi (storedField (pending, f)).2) = r.body.length :=
      size_atoi_decimal (r.length_given f hf hl) r.body_lt
    dsimp only
    rw [hsize, if_pos (c := pending = false ∧ f.IsLength) ⟨hp, hl⟩]
    rcases length_seen_cases r seen with hn | hn
    · rw [hn]
      split <;> rfl
    · rw [if_pos ⟨hn, hname⟩]
  · have hno : ¬ (pending = false ∧ f.IsLength) := by
      rintro ⟨rfl, hl⟩
      exact hname hl
    dsimp only
    rw [if_neg (fun h0 => hname h0.2), if_neg hno]

theorem view_add (hf : f ∈ r.fields) (pending' : Bool) (left' : List Field) :
    (r.view (.lines seen pending left)).addField (storedField (pending, f)) =
      r.view (.lines (seen ++ [(pending, f)]) pending' left') := by
  have hlength := length_add hf seen pending left
  simp only [View.addField] at hlength
  simp only [view, View.addField, List.map_append, List.map_cons, List.map_nil]
  exact congrArg (View.mk _ _ _ _ _ _ _ _ _) hlength

theorem value_split (f : Field) :
    ∃ gap, f.value = gap ++ f.text ∧ (∀ x ∈ gap, x = space) ∧ f.text.head? ≠ some space := by
  refine ⟨f.value.takeWhile (· = space), List.takeWhile_append_dropWhile.symm, ?_, ?_⟩
  · intro x hx
    simpa using List.mem_takeWhile_imp hx
  · intro hhead
    have := List.head?_dropWhile_not (fun x : UInt8 => decide (x = space)) f.value
    rw [Field.text] at hhead
    simp [hhead] at this

def linesThenBody (fuel : Nat) (h : HttpHeader) (l : Locals) : Option (HttpHeader × Nat) :=
  (headerLoop fuel h l).bind (fun (h, l) => bodyPart h l)

theorem stop_in_lines (hs : Shows h (r.view (.lines seen pending left)))
    (he : headerLoop fuel h₀ l₀ = some (h, l)) :
    linesThenBody fuel h₀ l₀ = some (h, l.processByte) := by
  rw [linesThenBody, he]
  exact body_wait hs rfl l

theorem seen_snoc (hseen : Seen seen (f :: fs) all) (hflag : pending = true → ¬ f.IsLength) :
    Seen (seen ++ [(pending, f)]) fs all := by
  refine ⟨?_, fun s hs => ?_⟩
  · rw [List.map_append, List.append_assoc]
    exact hseen.1
  · rcases List.mem_append.mp hs with hs | hs
    · exact hseen.2 s hs
    · rw [List.mem_singleton.mp hs]
      exact hflag

theorem seen_suffix (hseen : Seen seen left all) : left <:+ all := ⟨_, hseen.1⟩

theorem blank_outcome (hs : Shows h (r.view (.lines seen false [])))
    (hseen : Seen seen [] r.fields) (ha : Arrival r (.lines seen false []) p more stale)
    (start u fuel : Nat) :
    Outcome r (.lines seen false []) p (linesThenBody (fuel + 1) h (localsAt p stale start u))
      start := by
  have hrest : r.rest (.lines seen false []) = [cr, lf] ++ r.rest (.body seen [] r.body) := rfl
  rcases Nat.lt_or_ge p.length 2 with hshort | hlong
  · rw [stop_in_lines hs (loop_short h hshort stale start u fuel)]
    refine Outcome.stay hs ⟨hseen, fun h0 => absurd h0 (by decide)⟩ ?_ (fun _ _ _ ht => by cases ht)
      start
    rw [hrest, List.length_append]
    exact Nat.lt_of_lt_of_le hshort (Nat.le_add_right _ _)
  · obtain ⟨q, rfl⟩ : ∃ q, p = [cr, lf] ++ q := by
      have hf := ha.fits
      rw [hrest, List.append_assoc] at hf
      obtain ⟨q, hq⟩ := List.prefix_of_prefix_length_le (List.prefix_append _ _) hf hlong
      exact ⟨q, hq.symm⟩
    obtain ⟨h', he, hs'⟩ := loop_blank hs q stale start u fuel
    have ha' : Arrival r (.body seen [] r.body) q more stale :=
      ha.after rfl hrest (fun _ _ _ ht => by cases ht; rfl)
    have hat' : r.At (.body seen [] r.body) := ⟨hseen, rfl, id⟩
    have ho := body_outcome hs' hat' ha' (start + 2) u
    rw [linesThenBody]
    change Outcome r _ _ ((headerLoop (fuel + 1) h (localsAt (cr :: lf :: q) stale start u)).bind _) _
    rw [he]
    exact ho.after rfl hrest (fun hc => hc.2)

theorem name_no_colon (s : Bool × Field) : ∀ c ∈ (storedField s).1, c ∉ [colon] := by
  intro c hc
  have := stored_name_clear s c hc
  simp only [List.mem_cons, List.not_mem_nil, or_false, not_or] at this ⊢
  exact this.2.2

theorem name_token (s : Bool × Field) (tail : List UInt8) :
    Lexeme space [colon] ((storedField s).1 ++ colon :: tail) [] (storedField s).1 colon tail := by
  refine ⟨rfl, by simp, ?_, name_no_colon s, by simp⟩
  have hstart := stored_name_start s
  cases hn : (storedField s).1 with
  | nil => decide
  | cons c name => simpa [hn] using hstart

theorem name_head (s : Bool × Field) (tail : List UInt8) :
    ((storedField s).1 ++ colon :: tail).head? ≠ some cr := by
  cases hn : (storedField s).1 with
  | nil =>
    change some colon ≠ some cr
    decide
  | cons c name =>
    have := stored_name_clear s c (by simp [hn])
    simp only [List.mem_cons, List.not_mem_nil, or_false, not_or] at this
    simpa using this.2.1

theorem value_no_end (f : Field) : ∀ c ∈ f.value, c ∉ [cr, lf] := by
  intro c hc
  have := f.value_clear c hc
  simp only [List.mem_cons, List.not_mem_nil, or_false, not_or] at this ⊢
  exact this.2

theorem value_token (f : Field) (tail : List UInt8) :
    ∃ gap, f.value.length = gap.length + f.text.length ∧
      Lexeme space [cr, lf] (f.value ++ cr :: tail) gap f.text cr tail := by
  obtain ⟨gap, hvalue, hgap, htext⟩ := value_split f
  refine ⟨gap, by rw [hvalue, List.length_append], by rw [hvalue], hgap, ?_, fun c hc => ?_, by simp⟩
  · cases hn : f.text with
    | nil => decide
    | cons c text => simpa [hn] using htext
  · exact value_no_end f c (by rw [hvalue]; exact List.mem_append_right _ hc)

theorem text_no_nul (f : Field) : nul ∉ f.text := by
  intro hc
  have := f.value_clear nul ((List.dropWhile_sublist _).subset hc)
  simp at this

/-- What a whole header line brings, up to its carriage return. `left` is what
follows the line end, of which the line feed may still be missing. -/
theorem field_pass (hs : Shows h (r.view (.lines seen pending (f :: fs)))) (hf : f ∈ r.fields)
    (hskip : skipLineEnd ⟨q ++ stale, q.length⟩ ((storedField (pending, f)).1.length + 1) =
      some (⟨left ++ stale, left.length⟩, size)) (pending' : Bool) (start u fuel : Nat) :
    ∃ h', headerLoop (fuel + 1) h
        (localsAt ((storedField (pending, f)).1 ++ colon :: (f.value ++ cr :: q)) stale start u) =
        headerLoop fuel h' (localsAt left stale (start + (size + (f.value.length + 1))) size) ∧
      Shows h' (r.view (.lines (seen ++ [(pending, f)]) pending' fs)) ∧
      h'.abHeader.NoWrap size := by
  obtain ⟨gap, hlen, hv⟩ := value_token f q
  have hk := name_token (pending, f) (f.value ++ cr :: q)
  have hname : nul ∉ (storedField (pending, f)).1 :=
    fun hc => stored_name_clear (pending, f) _ hc (by simp)
  have hlong : 2 ≤ ((storedField (pending, f)).1 ++ colon :: (f.value ++ cr :: q)).length := by
    simp only [List.length_append, List.length_cons]
    omega
  obtain ⟨h', he, hs', hsize⟩ := loop_field hs hlong (not_blank (name_head _ _)) hk hv stale
    (by simpa using hskip) start u fuel
  rw [c_str_self hname, c_str_self (text_no_nul f)] at hs'
  refine ⟨h', ?_, ?_, hsize⟩
  · rw [he, hlen]
  · rw [← view_add hf pending' fs]
    exact hs'

/-- Where less than a whole line has arrived the loop waits for more of it. -/
theorem partial_outcome (hs : Shows h (r.view (.lines seen pending (f :: fs))))
    (hat : r.At (.lines seen pending (f :: fs)))
    (hp : p <+: (storedField (pending, f)).1 ++ colon :: f.value)
    (hu : h.abHeader.StaysForward p u) (start fuel : Nat) :
    Outcome r (.lines seen pending (f :: fs)) p
      (linesThenBody (fuel + 1) h (localsAt p stale start u)) start := by
  have hlt : p.length < (r.rest (.lines seen pending (f :: fs))).length := by
    refine short_of_part hp ?_
    rw [rest_lines]
    simp
  have stay : ∀ h' l, headerLoop (fuel + 1) h (localsAt p stale start u) = some (h', l) →
      l.processByte = start → Shows h' (r.view (.lines seen pending (f :: fs))) →
      Outcome r (.lines seen pending (f :: fs)) p
        (linesThenBody (fuel + 1) h (localsAt p stale start u)) start := by
    intro h' l he hn hs'
    rw [stop_in_lines hs' he, hn]
    exact Outcome.stay hs' hat hlt (fun _ _ _ ht => by cases ht) start
  rcases Nat.lt_or_ge p.length 2 with hshort | hlong
  · exact stay h _ (loop_short h hshort stale start u fuel) rfl hs
  · have hhead : p.head? ≠ some cr := by
      obtain ⟨after, hafter⟩ := hp
      have := name_head (pending, f) f.value
      rw [← hafter] at this
      cases p with
      | nil => simp
      | cons c p => exact this
    rcases prefix_split hp with hkey | ⟨q, rfl, hq⟩
    · obtain ⟨h', l, he, hn, hs'⟩ := loop_key_open hs hlong (not_blank hhead)
        (open_in_part space hkey (name_no_colon _)) stale start fuel hu
      exact stay h' l he hn hs'
    · obtain ⟨h', l, he, hn, hs'⟩ := loop_value_open hs hlong (not_blank hhead) (name_token (pending, f) q)
        (open_in_part space hq (value_no_end f)) stale start u fuel
      exact stay h' l he hn hs'

/-- A line whose line feed has not arrived is stored; the line feed will be
taken for a part of the next name. -/
theorem stray_outcome (hs : Shows h (r.view (.lines seen pending (f :: fs))))
    (hat : r.At (.lines seen pending (f :: fs)))
    (ha : Arrival r (.lines seen pending (f :: fs)) p more stale)
    (hp : p = (storedField (pending, f)).1 ++ colon :: (f.value ++ [cr])) (start u fuel : Nat) :
    Outcome r (.lines seen pending (f :: fs)) p
      (linesThenBody (fuel + 2) h (localsAt p stale start u)) start := by
  obtain ⟨hseen, hpending⟩ := hat
  have hf : f ∈ r.fields := (seen_suffix hseen).subset (by simp)
  have hflag : pending = true → ¬ f.IsLength := by
    intro hpend
    obtain ⟨g, hg, hl⟩ := hpending hpend
    obtain rfl : f = g := by simpa using hg
    exact hl
  have hrest : p ++ lf :: r.linesFrom fs = r.rest (.lines seen pending (f :: fs)) := by
    rw [rest_lines, hp]
    simp
  have hseen' := seen_snoc hseen hflag
  obtain ⟨h', he, hs', -⟩ := field_pass hs hf (skip_line_end_nil stale _) true start u (fuel + 1)
  rw [loop_short h' (by simp)] at he
  have hlen : start + ((storedField (pending, f)).1.length + 1 + (f.value.length + 1)) =
      start + p.length := by
    rw [hp]
    simp only [List.length_append, List.length_cons, List.length_nil]
    omega
  rw [hp, stop_in_lines hs' he, ← hp]
  refine ⟨h', p.length, by rw [← hlen]; rfl, Nat.le_refl _, .inl ⟨_, hs', ⟨hseen', fun _ => ?_⟩, ?_,
    fun _ hcut => ?_, fun _ _ _ ht => (by cases ht), .inl ?_⟩⟩
  · exact ha.lines _ fs hrest rfl (seen_suffix hseen')
  · rw [List.take_length]
    exact hrest
  · exact absurd rfl (hcut _ fs hrest (seen_suffix hseen'))
  · rw [← hrest, List.length_append, List.length_cons]
    omega

/-- The header lines by induction on those still to come. -/
theorem lines_outcome (left : List Field) (hs : Shows h (r.view (.lines seen pending left)))
    (hat : r.At (.lines seen pending left)) (ha : Arrival r (.lines seen pending left) p more stale)
    (hu : h.abHeader.StaysForward p u) (start fuel : Nat) (hfuel : p.length < fuel) :
    Outcome r (.lines seen pending left) p (linesThenBody fuel h (localsAt p stale start u))
      start := by
  induction left generalizing h seen pending p u start fuel with
  | nil =>
    obtain ⟨fuel, rfl⟩ : ∃ n, fuel = n + 1 := ⟨fuel - 1, by omega⟩
    obtain ⟨hseen, hpending⟩ := hat
    obtain rfl : pending = false := by
      cases pending with
      | false => rfl
      | true =>
        obtain ⟨g, hg, -⟩ := hpending rfl
        cases hg
    exact blank_outcome hs hseen ha start u fuel
  | cons f fs ih =>
    have hrest := rest_lines r seen pending f fs
    have hassoc : (storedField (pending, f)).1 ++ colon :: (f.value ++ cr :: lf :: r.linesFrom fs) =
        ((storedField (pending, f)).1 ++ colon :: f.value) ++ cr :: lf :: r.linesFrom fs := by simp
    have hfits := ha.fits
    rw [hrest, hassoc, List.append_assoc, List.cons_append] at hfits
    rcases prefix_split hfits with hpart | ⟨q, hp, hq⟩
    · obtain ⟨fuel, rfl⟩ : ∃ n, fuel = n + 1 := ⟨fuel - 1, by omega⟩
      exact partial_outcome hs hat hpart hu start fuel
    · have hp : p = (storedField (pending, f)).1 ++ colon :: (f.value ++ cr :: q) := by
        rw [hp]
        simp
      cases q with
      | nil =>
        obtain ⟨fuel, rfl⟩ : ∃ n, fuel = n + 2 := ⟨fuel - 2, by
          rw [hp] at hfuel
          simp only [List.length_append, List.length_cons] at hfuel
          omega⟩
        exact stray_outcome hs hat ha hp start u fuel
      | cons c q =>
        obtain rfl : c = lf := (List.cons_prefix_cons.mp hq).1
        obtain ⟨fuel, rfl⟩ : ∃ n, fuel = n + 1 := ⟨fuel - 1, by omega⟩
        obtain ⟨hseen, hpending⟩ := id hat
        have hf : f ∈ r.fields := (seen_suffix hseen).subset (by simp)
        have hflag : pending = true → ¬ f.IsLength := by
          intro hpend
          obtain ⟨g, hg, hl⟩ := hpending hpend
          obtain rfl : f = g := by simpa using hg
          exact hl
        -- the line with its line end
        have hsplit : p =
            ((storedField (pending, f)).1 ++ colon :: (f.value ++ [cr, lf])) ++ q := by
          rw [hp]
          simp
        have hrest' : r.rest (.lines seen pending (f :: fs)) =
            ((storedField (pending, f)).1 ++ colon :: (f.value ++ [cr, lf])) ++
              r.rest (.lines (seen ++ [(pending, f)]) false fs) := by
          rw [hrest]
          simp [rest]
        obtain ⟨h', he, hs', hsize⟩ :=
          field_pass hs hf (skip_line_end_lf q stale _) false start u fuel
        have ho := ih hs' ⟨seen_snoc hseen hflag, fun h0 => absurd h0 (by decide)⟩
          (ha.after hsplit hrest' (fun _ _ _ ht => by cases ht)) (hsize.stays q)
          (start + ((storedField (pending, f)).1.length + 1 + 1 + (f.value.length + 1))) fuel (by
            rw [hsplit, List.length_append] at hfuel
            simp only [List.length_append, List.length_cons] at hfuel
            omega)
        have hlen : (storedField (pending, f)).1.length + 1 + 1 + (f.value.length + 1) =
            ((storedField (pending, f)).1 ++ colon :: (f.value ++ [cr, lf])).length := by
          simp only [List.length_append, List.length_cons, List.length_nil]
          omega
        rw [linesThenBody, hp, he, ← linesThenBody, ← hp]
        rw [hlen] at ho ⊢
        refine ho.after hsplit hrest' (fun hc => ⟨rfl, fun s hs => ?_⟩)
        rcases List.mem_append.mp hs with hs | hs
        · exact hc.2 s hs
        · rw [List.mem_singleton.mp hs]
          exact hc.1

theorem next_part_eq (h : HttpHeader) (l : Locals) :
    nextPart h l = linesThenBody (l.cursor.buffer.length + 1) h l := rfl

theorem view_lines_nil (r : Request) (pending : Bool) (left : List Field) :
    r.view (.lines [] pending left) =
      { r.view .version with version := some r.version, headerProcess := .processingNext } := by
  have hlength : r.lengthSeen [] = npos := by simp [lengthSeen]
  simp only [view, hlength, List.map_nil]
  rfl

/-- The version, from a stage at which it is what comes next. -/
theorem version_outcome (hs : Shows h (r.view .version)) (hv : r.view t = r.view .version)
    (hr : r.rest t = r.versionOn) (hat : r.At t) (hbody : ∀ seen got left, t ≠ .body seen got left)
    (ha : Arrival r t p more stale) (start u : Nat) :
    Outcome r t p (Flow.andThen (versionPart h (localsAt p stale start u)) nextPart) start := by
  have hfits := ha.fits
  rw [hr, versionOn, List.append_assoc] at hfits
  have hend : ∀ c ∈ r.version, c ∉ [cr, lf] := clear_of_subset r.version_clear (by simp)
  have hspace : ∀ c ∈ r.version, c ≠ space := by
    rintro c hc rfl
    exact r.version_clear _ hc (by simp)
  have hnul : nul ∉ r.version := fun hc => r.version_clear _ hc (by simp)
  rcases prefix_split hfits with hpart | ⟨q, rfl, hq⟩
  · rw [version_open hs rfl (open_in_part space hpart hend)]
    refine Outcome.stay (by rw [hv]; exact hs) hat ?_ (fun _ _ _ ht => absurd ht (hbody _ _ _)) start
    rw [hr]
    exact short_of_part hpart (by simp [versionOn])
  · have htoken := Lexeme.of_clear r.version q cr hspace (.inl (by decide)) hend (by simp)
    cases q with
    | nil =>
      obtain ⟨h', he, hs'⟩ := version_found hs rfl htoken stale
        (skip_line_end_nil stale _) start u
      rw [c_str_self hnul, ← view_lines_nil r true r.fields] at hs'
      rw [he]
      have hrest : r.version ++ [cr] ++ lf :: r.linesFrom r.fields = r.rest t := by
        rw [hr, versionOn]
        simp
      have hshort := loop_short h' (p := []) (by simp) stale
        (start + (([] : List UInt8).length + r.version.length + 1))
        (([] : List UInt8).length + r.version.length + 1) (([] : List UInt8) ++ stale).length
      have hlen : start + (([] : List UInt8).length + r.version.length + 1) =
          start + (r.version ++ [cr]).length := by simp
      rw [Flow.andThen, next_part_eq]
      change Outcome r t _ (linesThenBody ((([] : List UInt8) ++ stale).length + 1) h' _) start
      rw [stop_in_lines hs' hshort]
      refine ⟨h', (r.version ++ [cr]).length, by rw [← hlen]; rfl, Nat.le_refl _,
        .inl ⟨_, hs', ⟨⟨rfl, by simp⟩, fun _ => ?_⟩, ?_, fun _ hcut => ?_,
          fun _ _ _ ht => (by cases ht), .inl ?_⟩⟩
      · exact ha.lines _ r.fields hrest rfl List.suffix_rfl
      · rw [List.take_length]
        exact hrest
      · exact absurd rfl (hcut _ r.fields hrest List.suffix_rfl)
      · rw [← hrest]
        simp
    | cons c q =>
      obtain rfl : c = lf := (List.cons_prefix_cons.mp hq).1
      obtain ⟨h', he, hs'⟩ := version_found hs rfl htoken stale
        (skip_line_end_lf q stale _) start u
      have hsize := version_forward he (hs.no_version rfl) (hs.fill_pos (by simp [view]))
      rw [c_str_self hnul, ← view_lines_nil r false r.fields] at hs'
      have hsplit : r.version ++ cr :: lf :: q = (r.version ++ [cr, lf]) ++ q := by simp
      have hrest : r.rest t = (r.version ++ [cr, lf]) ++ r.rest (.lines [] false r.fields) := by
        rw [hr, versionOn]
        simp [rest]
      have ho := lines_outcome r.fields hs' ⟨⟨rfl, by simp⟩, fun h0 => absurd h0 (by decide)⟩
        (ha.after hsplit hrest (fun _ _ _ ht => by cases ht))
        (hsize.stays q) (start + (r.version ++ [cr, lf]).length)
        ((q ++ stale).length + 1)
        (by rw [List.length_append]; omega)
      have hlen : start + (([] : List UInt8).length + r.version.length + 1 + 1) =
          start + (r.version ++ [cr, lf]).length := by
        simp
      rw [he, Flow.andThen, next_part_eq, hlen]
      exact ho.after hsplit hrest (fun _ => ⟨rfl, by simp⟩)

/-- The parameters and what follows them. Without a query the byte behind the
URI is looked at, wherever it comes from. -/
theorem query_outcome (hs : Shows h (r.view .query)) (hne : r.query ≠ none → p ≠ [])
    (ha : Arrival r .query p more stale) (start u : Nat) :
    Outcome r .query p (Flow.andThen (paramsPart h (localsAt p stale start u)) fun h l =>
      Flow.andThen (versionPart h l) nextPart) start := by
  cases hquery : r.query with
  | none =>
    have hrest : r.rest .query = r.versionOn := by simp [rest, queryOn, hquery]
    have hview : r.view .query = r.view .version := by
      simp only [view, hquery, queryContent]
      rfl
    obtain ⟨c, hc, hother⟩ : ∃ c, (p ++ stale)[0]? = some c ∧ c ≠ question := by
      cases p with
      | nil =>
        obtain ⟨c, hc, hother⟩ := ha.uri r.versionOn hrest.symm hquery rfl
        exact ⟨c, by simpa [List.head?_eq_getElem?] using hc, hother⟩
      | cons c p =>
        refine ⟨c, rfl, ?_⟩
        rintro rfl
        have hfits := ha.fits
        rw [hrest, versionOn] at hfits
        cases hversion : r.version with
        | nil => exact r.version_nonempty hversion
        | cons d version =>
          rw [hversion] at hfits
          obtain rfl : question = d := (List.cons_prefix_cons.mp hfits).1
          exact r.version_start (by rw [hversion]; rfl)
    rw [params_skip_other hs rfl stale hc hother, Flow.andThen]
    rw [hview] at hs
    exact version_outcome hs hview hrest trivial (fun _ _ _ ht => by cases ht) ha start u
  | some q =>
    have hrest : r.rest .query = question :: (q ++ space :: r.versionOn) := by
      simp [rest, queryOn, hquery]
    have hfits := ha.fits
    rw [hrest, List.cons_append, List.append_assoc] at hfits
    have hclear : ∀ c ∈ q, c ∉ [space] := clear_of_subset (r.query_clear q hquery) (by simp)
    cases p with
    | nil => exact absurd rfl (hne (by simp [hquery]))
    | cons c p =>
      obtain ⟨rfl, hfits'⟩ := List.cons_prefix_cons.mp hfits
      rcases prefix_split hfits' with hpart | ⟨p', rfl, -⟩
      · rw [params_open hs rfl (open_in_part question hpart hclear), Flow.andThen]
        refine Outcome.stay hs trivial ?_ (fun _ _ _ ht => by cases ht) start
        rw [hrest, List.length_cons, List.length_cons]
        exact Nat.succ_lt_succ (short_of_part hpart (by simp))
      · obtain ⟨gap, token, rfl, hgap, htoken⟩ := lead_split question q
        have ht : Lexeme question [space] (gap ++ token ++ space :: p') gap token space p' := by
          refine ⟨rfl, hgap, ?_, fun c hc => hclear c (List.mem_append_right _ hc), by simp⟩
          cases token with
          | nil => decide
          | cons c token => simpa using htoken
        obtain ⟨h', he, hs'⟩ := params_found hs rfl rfl ht stale start u
        have hview : { r.view .query with params := gap ++ token ++ [nul] } = r.view .version := by
          simp only [view, hquery, queryContent]
        rw [hview] at hs'
        have hsplit : question :: (gap ++ token ++ space :: p') =
            (question :: (gap ++ token ++ [space])) ++ p' := by simp
        have hrest' : r.rest .query =
            (question :: (gap ++ token ++ [space])) ++ r.rest .version := by
          rw [hrest]
          simp [rest]
        have hlen : start + (gap.length + token.length + 1) + 1 =
            start + (question :: (gap ++ token ++ [space])).length := by
          simp
          omega
        rw [he, Flow.andThen, hlen]
        exact (version_outcome hs' rfl rfl (by simp [At, hquery]) (fun _ _ _ ht => by cases ht)
          (ha.after hsplit hrest' (fun _ _ _ ht => by cases ht)) _ _).after hsplit hrest'
          (fun _ => trivial)

theorem uri_outcome (hs : Shows h (r.view .uri)) (ha : Arrival r .uri p more stale)
    (start u : Nat) :
    Outcome r .uri p (Flow.andThen (uriPart h (localsAt p stale start u)) fun h l =>
      Flow.andThen (paramsPart h l) fun h l => Flow.andThen (versionPart h l) nextPart) start := by
  have hstop : ∀ c ∈ r.uri, c ∉ [question, space] := clear_of_subset r.uri_clear (by simp)
  have hspace : ∀ c ∈ r.uri, c ≠ space := by
    rintro c hc rfl
    exact r.uri_clear _ hc (by simp)
  have hnul : nul ∉ r.uri := fun hc => r.uri_clear _ hc (by simp)
  -- what follows the URI begins with the character that ends it
  obtain ⟨stop, tail, hrest, hmem⟩ : ∃ stop tail, r.rest .uri = r.uri ++ stop :: tail ∧
      stop ∈ [question, space] := by
    cases hquery : r.query with
    | none => exact ⟨space, r.queryOn, by simp [rest, uriOn, hquery], by simp⟩
    | some q =>
      exact ⟨question, q ++ space :: r.versionOn, by simp [rest, uriOn, queryOn, hquery], by simp⟩
  have hfits := ha.fits
  rw [hrest, List.append_assoc] at hfits
  rcases prefix_split hfits with hpart | ⟨q, rfl, -⟩
  · rw [uri_open hs rfl (open_in_part space hpart hstop), Flow.andThen]
    refine Outcome.stay hs trivial ?_ (fun _ _ _ ht => by cases ht) start
    rw [hrest]
    exact short_of_part hpart (by simp)
  · have htoken := Lexeme.of_clear r.uri q stop hspace (.inr r.uri_nonempty) hstop hmem
    obtain ⟨h', he, hs'⟩ := uri_found hs rfl htoken stale start u
    rw [c_str_self hnul] at hs'
    rw [he, Flow.andThen]
    cases hquery : r.query with
    | none =>
      have hrest' : r.rest .uri = r.uri ++ space :: r.queryOn := by simp [rest, uriOn, hquery]
      obtain rfl : space = stop :=
        (List.cons.inj (List.append_cancel_left (hrest'.symm.trans hrest))).1
      have hsplit : r.uri ++ space :: q = (r.uri ++ [space]) ++ q := by simp
      have hrest'' : r.rest .uri = (r.uri ++ [space]) ++ r.rest .query := by
        rw [hrest']
        simp [rest]
      have hlen : start + (([] : List UInt8).length + r.uri.length + 1) =
          start + (r.uri ++ [space]).length := by simp
      rw [if_neg (by decide), hlen]
      exact (query_outcome hs' (fun h0 => absurd hquery h0)
        (ha.after hsplit hrest'' (fun _ _ _ ht => by cases ht)) _ _).after hsplit hrest''
        (fun _ => trivial)
    | some query =>
      have hrest' : r.rest .uri = r.uri ++ r.rest .query := by simp [rest, uriOn, hquery]
      obtain rfl : question = stop := by
        have hq : r.rest .query = question :: (query ++ space :: r.versionOn) := by
          simp [rest, queryOn, hquery]
        rw [hq] at hrest'
        exact (List.cons.inj (List.append_cancel_left (hrest'.symm.trans hrest))).1
      have hlen : start + (([] : List UInt8).length + r.uri.length) = start + r.uri.length := by simp
      rw [if_pos rfl, hlen]
      exact (query_outcome hs' (fun _ => by simp)
        (ha.after rfl hrest' (fun _ _ _ ht => by cases ht)) _ _).after rfl hrest' (fun _ => trivial)

theorem method_outcome (hs : Shows h (r.view .method)) (ha : Arrival r .method p more stale)
    (start u : Nat) :
    Outcome r .method p (Flow.andThen (methodPart h (localsAt p stale start u)) fun h l =>
      Flow.andThen (uriPart h l) fun h l => Flow.andThen (paramsPart h l) fun h l =>
      Flow.andThen (versionPart h l) nextPart) start := by
  have hspace : ∀ c ∈ r.method, c ≠ space := by
    rintro c hc rfl
    exact r.method_clear _ hc (by simp)
  have hstop : ∀ c ∈ r.method, c ∉ [space] := clear_of_subset r.method_clear (by simp)
  have hnul : nul ∉ r.method := fun hc => r.method_clear _ hc (by simp)
  have hfits := ha.fits
  rw [rest, serialize, List.append_assoc] at hfits
  rcases prefix_split hfits with hpart | ⟨q, rfl, -⟩
  · rw [method_open hs rfl (open_in_part space hpart hstop), Flow.andThen]
    refine Outcome.stay hs trivial ?_ (fun _ _ _ ht => by cases ht) start
    exact short_of_part hpart (by simp [rest, serialize])
  · have htoken := Lexeme.of_clear r.method q space hspace (.inr r.method_nonempty) hstop (by simp)
    obtain ⟨h', he, hs'⟩ := method_found hs rfl htoken stale start u
    rw [c_str_self hnul] at hs'
    have hsplit : r.method ++ space :: q = (r.method ++ [space]) ++ q := by simp
    have hrest : r.rest .method = (r.method ++ [space]) ++ r.rest .uri := by
      simp [rest, serialize]
    have hlen : start + (([] : List UInt8).length + r.method.length + 1) =
        start + (r.method ++ [space]).length := by simp
    rw [he, Flow.andThen, hlen]
    exact (uri_outcome hs' (ha.after hsplit hrest (fun _ _ _ ht => by cases ht)) _ _).after
      hsplit hrest (fun _ => trivial)

/-- While the rest of the request is there, the header lines begin with a whole one or with
the blank line. -/
theorem rest_stays (hs : Shows h (r.view t)) (hat : r.At t) (hp : r.rest t <+: p) :
    h.StaysForward p u := by
  have hphase := hs.headerProcess
  cases t with
  | lines seen pending left =>
    intro _ _ hline hname
    cases left with
    | nil =>
      obtain rfl : pending = false := by
        cases pending with
        | false => rfl
        | true =>
          obtain ⟨g, hg, -⟩ := hat.2 rfl
          cases hg
      exact absurd ((List.prefix_append [cr, lf] r.body).trans hp) hline
    | cons f fs =>
      rw [rest_lines] at hp
      exact absurd (hp.subset (by simp)) hname
  | method | uri | query | version | body seen got left =>
    refine stays_outside_lines ?_
    rw [hphase]
    nofun

/-- One call of `process_data` at any stage of a request. -/
theorem process_outcome (hs : Shows h (r.view t)) (hat : r.At t) (hne : p ≠ [])
    (ha : Arrival r t p more stale) (hu : h.StaysForward p u) :
    Outcome r t p (h.processData (p ++ stale) p.length u) 0 := by
  have hphase := hs.headerProcess
  cases t with
  | method =>
    rw [processData, hphase]
    exact method_outcome hs ha 0 u
  | uri =>
    rw [processData, hphase]
    change Outcome r _ _ (Flow.andThen (methodPart h (localsAt p stale 0 u)) _) 0
    rw [method_skip hs rfl, Flow.andThen]
    exact uri_outcome hs ha 0 u
  | query =>
    rw [processData, hphase]
    change Outcome r _ _ (Flow.andThen (methodPart h (localsAt p stale 0 u)) _) 0
    rw [method_skip hs rfl, Flow.andThen, uri_skip hs rfl, Flow.andThen]
    exact query_outcome hs (fun _ => hne) ha 0 u
  | version =>
    have hfilled : (r.view .version).params ≠ [] := by
      cases hquery : r.query with
      | none => exact absurd hquery hat
      | some q => simp [view, hquery, queryContent]
    rw [processData, hphase]
    change Outcome r _ _ (Flow.andThen (methodPart h (localsAt p stale 0 u)) _) 0
    rw [method_skip hs rfl, Flow.andThen, uri_skip hs rfl, Flow.andThen,
      params_skip_filled hs hfilled, Flow.andThen]
    exact version_outcome hs rfl rfl hat (fun _ _ _ ht => by cases ht) ha 0 u
  | lines seen pending left =>
    rw [processData, hphase]
    exact lines_outcome left hs hat ha (hu hphase) 0 _ (Nat.lt_succ_of_le (by simp))
  | body seen got left =>
    rw [processData, hphase]
    exact body_outcome hs hat ha 0 u

end Khorost.Request
