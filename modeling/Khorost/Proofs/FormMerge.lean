import Khorost.Proofs.BodyLength
import Khorost.Proofs.FormData
import Khorost.Proofs.PairLists

namespace Khorost

abbrev Params := List (List UInt8 × Option (List UInt8))

/-- A text alone in a buffer, with its terminator. -/
def alone (text : List UInt8) : AutoBuffer UInt8 :=
  ⟨text ++ [nul], text.length + 1, fun _ => 0, by simp⟩

/-- The list that `parse_string` gives for a text alone. -/
def aloneList (text : List UInt8) : Option Params :=
  (parseString (alone text) (text.length + 1) 0 [] ampersand false).map fun r =>
    r.2.map (readPair r.1.buffer)

def HttpHeader.paramsList (h : HttpHeader) : Params :=
  h.paramsValue.map (readPair h.abParams.buffer)

def spoken (pairs : Params) : Params := pairs.filter fun p => !p.1.isEmpty || p.2.isSome

theorem spoken_append (xs ys : Params) : spoken (xs ++ ys) = spoken xs ++ spoken ys :=
  List.filter_append ..

theorem spoken_empty : spoken (pairsOf ampersand false []) = [] := by decide

theorem alone_list (hclear : nul ∉ text) :
    aloneList text = some (pairsOf ampersand false text) := by
  have hbuffer : (alone text).buffer = [] ++ text ++ nul :: [] := rfl
  obtain ⟨b', pairs, he, hb', -, hshows⟩ := parse_string_text ampersand false (alone text) [] text
    [] hbuffer hclear (text.length + 1) (Nat.lt_succ_self _) []
  rw [List.length_nil] at he
  rw [aloneList, he, Option.map_some, List.nil_append, hb']
  exact congrArg some (shows_pairs_read (hshows []))

theorem Shows.params_list (hs : Shows h v) : h.paramsList = v.pairs := by
  have hpairs : List.Forall₂ (ShowsPair h.abParams.buffer) h.paramsValue v.pairs := by
    rw [h.abParams.buffer_split]
    exact hs.pairs.imp fun _ _ hp => hp.extend _
  exact shows_pairs_read hpairs

theorem lookup_spoken (pairs : Params) (hkey : cStr key ≠ []) (defaultValue : Option (List UInt8)) :
    lookupPair (spoken pairs) key defaultValue = lookupPair pairs key defaultValue := by
  have hfind : (spoken pairs).find? (fun p => strcaseEq key p.1) =
      pairs.find? (fun p => strcaseEq key p.1) := by
    rw [spoken, List.find?_filter]
    congr 1
    funext p
    cases hp : p.1 with
    | nil =>
      have hother : strcaseEq key [] = false := by
        rw [strcaseEq]
        cases hc : cStr key with
        | nil => exact absurd hc hkey
        | cons c key => rfl
      simp [hother]
    | cons c name => simp
  rw [lookupPair, lookupPair, hfind]

/-- The pairs of a query and a body that have been joined. -/
theorem spoken_join (q b : List UInt8) : spoken (pairsOf ampersand false (joinForm (some q) b)) =
    spoken (pairsOf ampersand false q ++ pairsOf ampersand false b) := by
  rw [joinForm]
  split
  · rename_i hend
    rcases hend with rfl | hlast
    · rw [List.nil_append, spoken_append, spoken_empty, List.nil_append]
    · -- the last pair of the query is the empty one behind its ampersand
      obtain ⟨front, rfl⟩ := List.getLast?_eq_some_iff.mp hlast
      have hfront := pairs_of_join ampersand false front []
      rw [List.append_assoc, List.singleton_append, pairs_of_join, spoken_append, hfront,
        spoken_append, spoken_append, spoken_empty, List.append_nil]
  · rw [pairs_of_join]

namespace Head

def HasForm (r : Head) : Prop :=
  ∃ before f after, r.fields = before ++ f :: after ∧
    strcaseEq (ascii "Content-Type") f.key = true ∧
    ascii "application/x-www-form-urlencoded" <+: f.text ∧
    ∀ g ∈ before, strcaseEq (ascii "Content-Type") g.key = false

/-- A call that finds the request with this body is ready with it. Its parameters are
those of the query and then those of the body, and are looked up in that order under every
name that is not empty. -/
def Merges (r : Head) (b : List UInt8) : Prop :=
  ∀ (h : HttpHeader) (more stale : List UInt8) (u : Nat), Shows h .cleared →
    ∃ h' query body,
      h.processData (r.text ++ (b ++ more) ++ stale) (r.text ++ (b ++ more)).length u =
        some (h', r.text.length + b.length) ∧
      h'.isReady = true ∧ h'.getBody = b ∧
      aloneList (r.query.getD []) = some query ∧ aloneList b = some body ∧
      spoken h'.paramsList = spoken (query ++ body) ∧
      ∀ key, cStr key ≠ [] → ∀ defaultValue,
        h'.getParameter key defaultValue = lookupPair (query ++ body) key defaultValue

variable {r : Head} {b : List UInt8} {f : Field}

theorem HasForm.is_form (hr : r.HasForm) : isFormFields r.view.fields = true := by
  obtain ⟨before, f, after, hfields, hkey, htext, hfirst⟩ := hr
  have hcookie : f.key ≠ ascii "Cookie" := by
    intro h
    rw [h] at hkey
    revert hkey
    decide +kernel
  have hfind : r.view.fields.find? (fun g => strcaseEq (ascii "Content-Type") g.1) =
      some (stored f) := by
    rw [view_fields, hfields, List.map_append, List.find?_append, List.find?_eq_none.mpr]
    · simp only [List.map_cons, List.find?_cons, stored, hkey]
      rfl
    · intro g hg
      obtain ⟨g', hg', rfl⟩ := List.mem_map.mp hg
      exact Bool.not_eq_true _ ▸ hfirst g' hg'
  obtain ⟨rest, htext⟩ := htext
  have hshown : shownValue (stored f) = ascii "application/x-www-form-urlencoded" ++ rest :=
    (if_neg hcookie).trans htext.symm
  rw [isFormFields, lookupField, hfind]
  dsimp only
  rw [hshown, find_match_here (by decide) (by decide)]
  rfl

/-- The pairs of the joined text, and those of the two texts alone. -/
theorem merged_pairs (hquery : nul ∉ r.query.getD []) (hb : nul ∉ b) :
    spoken (paramsPairs (some (joinForm r.query b))) =
      spoken (pairsOf ampersand false (r.query.getD []) ++ pairsOf ampersand false b) := by
  cases hq : r.query with
  | none =>
    have htext : paramsPairs (some (joinForm none b)) = pairsOf ampersand false b := by
      rw [paramsPairs, joinForm, c_str_self hb]
    rw [htext, Option.getD_none, spoken_append, spoken_empty, List.nil_append]
  | some q =>
    rw [hq, Option.getD_some] at hquery
    have hclear : nul ∉ joinForm (some q) b := by
      have hjoint : nul ≠ ampersand := by decide
      rw [joinForm]
      split <;> simp [hquery, hb, hjoint]
    rw [paramsPairs, c_str_self hclear, spoken_join, Option.getD_some]

theorem query_no_nul (r : Head) : nul ∉ r.query.getD [] := by
  cases hq : r.query with
  | none => simp
  | some q => exact fun hc => r.query_clear q hq nul hc (by simp)

theorem merges_of_length (hform : r.HasForm) (hl : r.view.contentLength = b.length)
    (hsmall : b.length ≠ npos) (hne : b ≠ []) (hb : nul ∉ b) : r.Merges b := by
  intro h more stale u hs
  obtain ⟨h', he, hs'⟩ := HttpHeader.process_follows hs View.sound_cleared (r.text ++ (b ++ more))
    stale (fun hcut => absurd hcut (r.not_uri_cut _))
    (HttpHeader.stays_outside_lines (by rw [hs.headerProcess]; nofun))
  have hpos : 0 < b.length := List.length_pos_iff.mpr hne
  have htake : (b ++ more).take r.view.contentLength = b := by
    rw [hl, List.take_left]
  have hread : View.cleared.read (r.text ++ (b ++ more)) =
      (({ r.view with body := b } : View).finish
        (finishedLength r.query r.view.fields b.length) (some (joinForm r.query b)), more) := by
    have hwaits : r.view.bodyProcess = .processingFirst := rfl
    have hempty : ¬ (r.view.contentLength = npos ∨ b ++ more = [] ∧ r.view.contentLength = 0) := by
      rw [hl]
      omega
    have hform' : b ≠ [] ∧ isFormFields r.view.fields = true := ⟨hne, hform.is_form⟩
    rw [read_text, View.readBody, if_pos hwaits, if_neg hempty, htake, if_neg hne, view_query,
      view_body]
    dsimp only
    rw [List.nil_append, hl, if_pos (Nat.le_refl _), List.drop_left, queryText, if_pos hform']
  rw [hread] at he hs'
  refine ⟨h', _, _, ?_, hs'.is_ready.mpr ⟨rfl, rfl⟩, hs'.get_body, alone_list r.query_no_nul,
    alone_list hb, ?_, fun key hkey defaultValue => ?_⟩
  · rw [he]
    simp only [List.length_append]
    congr 2
    omega
  · rw [hs'.params_list]
    exact merged_pairs r.query_no_nul hb
  · rw [hs'.get_parameter, ← lookup_spoken _ hkey, ← lookup_spoken (_ ++ _) hkey]
    exact congrArg (lookupPair · key defaultValue) (merged_pairs r.query_no_nul hb)

/-- A body that is merged is as long as the parser takes it to be. -/
theorem length_of_merges (hmerges : r.Merges b) (hne : b ≠ []) :
    r.view.contentLength = b.length ∧ r.view.contentLength ≠ npos := by
  have hpos : 0 < b.length := List.length_pos_iff.mpr hne
  obtain ⟨h₁, -, -, he₁, hready, -⟩ := hmerges (.new fun _ => 0) [] [] 0 (shows_new _)
  obtain ⟨h', he, hs'⟩ := HttpHeader.process_follows (shows_new fun _ => 0) View.sound_cleared
    (r.text ++ (b ++ [])) [] (fun hcut => absurd hcut (r.not_uri_cut _)) (u := 0)
    (HttpHeader.stays_outside_lines nofun)
  obtain ⟨rfl, hlen⟩ := Prod.mk.inj (Option.some.inj (he₁.symm.trans he))
  rw [read_text, List.append_nil] at hs' hlen
  obtain ⟨-, hphase⟩ := hs'.is_ready.mp hready
  have hrest := (View.body_suffix r.view b).length_le
  rw [List.length_append] at hlen
  have hnothing : (r.view.readBody b).2.length = 0 := by omega
  have hwaits : r.view.bodyProcess = .processingFirst := rfl
  by_cases hl : r.view.contentLength = npos
  · have hall : (r.view.readBody b).2 = b := by
      rw [View.readBody, if_pos hwaits, if_pos (.inl hl)]
    rw [hall] at hnothing
    omega
  · refine ⟨?_, hl⟩
    rcases View.read_body_cases hwaits hl b with hdone | hopen
    · have hlong := hdone.long
      have hrest := congrArg List.length hdone.rest
      rw [List.length_drop] at hrest
      rw [hdone.body, view_body, List.nil_append, List.length_take] at hlong
      omega
    · cases hopen with
      | idle hw => rw [hw] at hphase; cases hphase
      | taken hw => rw [hw] at hphase; cases hphase

theorem small_of_kept {n : Nat} (h : Numeral s n) (hkept : sizeT (atoi s) = n) (hn : n ≠ npos) :
    n < 2 ^ 31 := by
  have hlong := strtol_numeral h
  obtain ⟨hlow, hhigh⟩ := atoi_bounds s
  by_cases hfits : n < 2 ^ 63 - 1
  · rw [sizeT] at hkept
    omega
  · have hmax : strtol s = 2 ^ 63 - 1 := by omega
    have hminus : atoi s = -1 := by
      rw [atoi, hmax]
      decide
    rw [hminus] at hkept
    exact absurd hkept.symm hn

/-- Query and body of a form are merged exactly if the body is shorter than 2^31. -/
theorem merges_iff (hform : r.HasForm) (hf : r.HasLength f) (hlength : Numeral f.text b.length)
    (hne : b ≠ []) (hb : nul ∉ b) : r.Merges b ↔ b.length < 2 ^ 31 := by
  constructor
  · intro hmerges
    obtain ⟨hl, hnpos⟩ := length_of_merges hmerges hne
    rw [hl] at hnpos
    exact small_of_kept hlength (hf.view_length.symm.trans hl) hnpos
  · intro hsmall
    have hl := hf.view_length.trans (size_atoi_numeral hlength hsmall)
    refine merges_of_length hform hl ?_ hne hb
    rw [npos]
    omega

/-- `Content-Type:application/x-www-form-urlencoded`. -/
def formField : Field where
  key := ascii "Content-Type"
  value := ascii "application/x-www-form-urlencoded"
  key_clear := clear_literal (by decide)
  key_start := by decide
  value_clear := clear_literal (by decide)

/-- `POST /?a=1 HTTP/1.1` with a form as long as the field says. -/
def postForm (f : Field) : Head :=
  { posting f with
    query := some (ascii "a=1")
    fields := [formField, f]
    query_clear := by
      intro q hq
      rw [← Option.mem_some_iff.mp hq]
      exact clear_literal (by decide) }

theorem post_form_form (f : Field) : (postForm f).HasForm :=
  ⟨[], formField, [f], rfl, by decide +kernel, List.prefix_rfl, by simp⟩

theorem post_form_length (hf : f.IsLength) : (postForm f).HasLength f := by
  refine ⟨[formField], [], rfl, hf, ?_⟩
  simp only [List.append_nil, List.forall_mem_singleton]
  decide

theorem three_merged : (postForm Request.lengthThree).Merges (ascii "a=2") := by
  refine (merges_iff (post_form_form _) (post_form_length (f := Request.lengthThree) rfl) ?_
    (by decide) (by decide)).mpr (by decide)
  exact ⟨[], [], ascii "3", [], by decide, by simp, 3,
    ⟨by decide, List.all_eq_true.mp (by decide), by decide⟩, .inl ⟨rfl, by simp⟩⟩

def lengthHuge : Field :=
  { Request.lengthThree with
    value := ascii "2147483648"
    value_clear := clear_literal (by decide) }

/-- A form of 2^31 bytes is not taken. -/
theorem huge_form_lost : ¬ ∀ (r : Head) (f : Field) (b : List UInt8), r.HasForm → r.HasLength f →
    Numeral f.text b.length → b ≠ [] → nul ∉ b → r.Merges b := by
  intro h
  let b : List UInt8 := List.replicate (2 ^ 31) 97
  have hlen : b.length = 2 ^ 31 := List.length_replicate
  have hne : b ≠ [] := List.length_pos_iff.mp (by omega)
  have hclear : nul ∉ b := fun hc => absurd (List.eq_of_mem_replicate hc) (by decide)
  have hlength : Numeral lengthHuge.text b.length := by
    rw [hlen]
    exact ⟨[], [], ascii "2147483648", [], by decide, by simp, 2 ^ 31,
      ⟨by decide, List.all_eq_true.mp (by decide), by decide⟩, .inl ⟨rfl, by simp⟩⟩
  have hf := post_form_length (f := lengthHuge) rfl
  obtain ⟨hl, hnpos⟩ := length_of_merges
    (h (postForm lengthHuge) lengthHuge b (post_form_form _) hf hlength hne hclear) hne
  rw [hl] at hnpos
  have hsmall := small_of_kept hlength (hf.view_length.symm.trans hl) hnpos
  omega

end Head

end Khorost
