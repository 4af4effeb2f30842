import Khorost.Proofs.BodyPart

namespace Khorost

open Scan

/-- A line feed or a second line end behind a stop character goes with it. -/
def afterLineEnd : List UInt8 → List UInt8
  | [] => []
  | c :: rest => if c = cr ∨ c = lf then rest else c :: rest

theorem after_line_end_length (p : List UInt8) : (afterLineEnd p).length ≤ p.length := by
  cases p with
  | nil => exact Nat.le_refl _
  | cons c p =>
    rw [afterLineEnd]
    split <;> simp

/-- A part of the first line goes on with the text behind it, or waits. -/
abbrev ReadPart := View → List UInt8 → Option (View × List UInt8)

namespace View

def readMethod : ReadPart := fun v p =>
  if v.method.isSome then some (v, p)
  else (cut space [space] p).map fun c => ({ v with method := some (cStr c.token) }, c.rest)

def readUri : ReadPart := fun v p =>
  if v.uri.isSome then some (v, p)
  else (cut space [question, space] p).map fun c =>
    ({ v with uri := some (cStr c.token) }, if c.stop = question then question :: c.rest else c.rest)

def readParams : ReadPart := fun v p =>
  if v.params ≠ [] then some (v, p)
  else
    match p with
    | [] => some (v, [])
    | c :: rest =>
      if c = question then
        (cut question [space] rest).map fun c =>
          ({ v with params := c.gap ++ c.token ++ [nul] }, c.rest)
      else some (v, c :: rest)

def readVersion : ReadPart := fun v p =>
  if v.version.isSome then some (v, p)
  else (cut space [cr, lf] p).map fun c =>
    ({ v with version := some (cStr c.token), headerProcess := .processingNext },
      afterLineEnd c.rest)

/-- A part and, unless it waits, what comes behind it. -/
def andRead (part : ReadPart) (next : View → List UInt8 → View × List UInt8) (v : View)
    (p : List UInt8) : View × List UInt8 :=
  match part v p with
  | none => (v, p)
  | some r => next r.1 r.2

/-- The header lines, up to the blank one or to one that is not complete. -/
def readLines (v : View) (p : List UInt8) : View × List UInt8 :=
  if p.length < 2 then (v, p)
  else if [cr, lf] <+: p then
    ({ v with headerProcess := .successful, bodyProcess := .processingFirst }, p.drop 2)
  else
    match hk : cut space [colon] p with
    | none => (v, p)
    | some key =>
      match hv : cut space [cr, lf] key.rest with
      | none => (v, p)
      | some value =>
        have : (afterLineEnd value.rest).length < p.length := by
          have hkey := cut_shorter hk
          have hvalue := cut_shorter hv
          have hend := after_line_end_length value.rest
          omega
        readLines (v.addField (cStr key.token, cStr value.token)) (afterLineEnd value.rest)
termination_by p.length

def query (v : View) : Option (List UInt8) := if v.params = [] then none else some v.params.dropLast

/-- The request is complete, with the given parameters. -/
def finish (v : View) (contentLength : Nat) (text : Option (List UInt8)) : View :=
  { v with
    bodyProcess := .successful
    contentLength := contentLength
    params := splitParams text
    pairs := paramsPairs text }

def readBody (v : View) (p : List UInt8) : View × List UInt8 :=
  if v.bodyProcess = .processingFirst then
    if v.contentLength = npos ∨ (p = [] ∧ v.contentLength = 0) then (v.finish 0 v.query, p)
    else if p.take v.contentLength = [] then (v, p)
    else
      let w := { v with body := v.body ++ p.take v.contentLength }
      if v.contentLength ≤ w.body.length then
        (w.finish (finishedLength v.query v.fields v.contentLength)
          (queryText v.query v.fields w.body), p.drop v.contentLength)
      else (w, p.drop v.contentLength)
  else (v, p)

def readNext (v : View) (p : List UInt8) : View × List UInt8 :=
  (v.readLines p).1.readBody (v.readLines p).2

/-- One call: what the parser has read afterwards, and what it leaves of the text. -/
def read (v : View) (p : List UInt8) : View × List UInt8 :=
  match v.headerProcess with
  | .processingFirst =>
    andRead readMethod (andRead readUri (andRead readParams (andRead readVersion readNext))) v p
  | .processingNext => v.readNext p
  | _ => v.readBody p

/-- The views that a parser comes to. -/
structure Sound (v : View) : Prop where
  pairs : v.bodyProcess ≠ .successful → v.pairs = []
  params : v.bodyProcess ≠ .successful → v.params = queryContent v.query
  body : v.headerProcess ≠ .successful → v.bodyProcess = .none
  started : v.headerProcess = .successful →
    v.bodyProcess = .processingFirst ∨ v.bodyProcess = .successful
  version : v.headerProcess = .processingFirst → v.version = none

variable {v : View} {p : List UInt8}

theorem lines_short (v : View) (hp : p.length < 2) : v.readLines p = (v, p) := by
  rw [readLines, if_pos hp]

theorem lines_blank (v : View) (rest : List UInt8) : v.readLines (cr :: lf :: rest) =
    ({ v with headerProcess := .successful, bodyProcess := .processingFirst }, rest) := by
  have hblank : [cr, lf] <+: cr :: lf :: rest := ⟨rest, rfl⟩
  rw [readLines, if_neg (by simp), if_pos hblank]
  rfl

theorem lines_name_open (v : View) (hp : 2 ≤ p.length) (hc : ¬ [cr, lf] <+: p)
    (ho : Open space [colon] p) : v.readLines p = (v, p) := by
  rw [readLines, if_neg (Nat.not_lt.mpr hp), if_neg hc]
  split
  · rfl
  · rename_i hk
    rw [cut_open ho] at hk
    cases hk

theorem lines_value_open (v : View) (hp : 2 ≤ p.length) (hc : ¬ [cr, lf] <+: p)
    (hk : Lexeme space [colon] p gap name stop rest) (ho : Open space [cr, lf] rest) :
    v.readLines p = (v, p) := by
  rw [readLines, if_neg (Nat.not_lt.mpr hp), if_neg hc]
  split
  · rfl
  · rename_i hk'
    rw [cut_lexeme hk] at hk'
    obtain rfl := Option.some.inj hk'
    split
    · rfl
    · rename_i hv
      rw [cut_open ho] at hv
      cases hv

theorem lines_field (v : View) (hp : 2 ≤ p.length) (hc : ¬ [cr, lf] <+: p)
    (hk : Lexeme space [colon] p gap₁ name stop₁ rest₁)
    (hv : Lexeme space [cr, lf] rest₁ gap₂ text stop₂ rest₂) :
    v.readLines p = (v.addField (cStr name, cStr text)).readLines (afterLineEnd rest₂) := by
  rw [readLines, if_neg (Nat.not_lt.mpr hp), if_neg hc]
  split
  · rename_i hk'
    rw [cut_lexeme hk] at hk'
    cases hk'
  · rename_i hk'
    rw [cut_lexeme hk] at hk'
    obtain rfl := Option.some.inj hk'
    split
    · rename_i hv'
      rw [cut_lexeme hv] at hv'
      cases hv'
    · rename_i hv'
      rw [cut_lexeme hv] at hv'
      obtain rfl := Option.some.inj hv'
      rfl

/-- What one pass of the loop over the header lines finds. -/
inductive LinePass (p : List UInt8) : Prop
  | short (hp : p.length < 2)
  | blank (rest : List UInt8) (hp : p = cr :: lf :: rest)
  | waits (hp : 2 ≤ p.length) (hc : ¬ [cr, lf] <+: p)
      (ho : Open space [colon] p ∨
        ∃ gap name stop rest, Lexeme space [colon] p gap name stop rest ∧ Open space [cr, lf] rest)
  | field (hp : 2 ≤ p.length) (hc : ¬ [cr, lf] <+: p) (gap₁ name rest₁ gap₂ text rest₂ : List UInt8)
      (stop₁ stop₂ : UInt8) (hk : Lexeme space [colon] p gap₁ name stop₁ rest₁)
      (hv : Lexeme space [cr, lf] rest₁ gap₂ text stop₂ rest₂)

theorem line_pass (p : List UInt8) : LinePass p := by
  rcases Nat.lt_or_ge p.length 2 with hp | hp
  · exact .short hp
  · by_cases hc : [cr, lf] <+: p
    · obtain ⟨rest, rfl⟩ := hc
      exact .blank rest rfl
    · rcases token_or_open space [colon] p with ⟨gap₁, name, stop₁, rest₁, hk⟩ | ho
      · rcases token_or_open space [cr, lf] rest₁ with ⟨gap₂, text, stop₂, rest₂, hv⟩ | ho
        · exact .field hp hc _ _ _ _ _ _ _ _ hk hv
        · exact .waits hp hc (.inr ⟨gap₁, name, stop₁, rest₁, hk, ho⟩)
      · exact .waits hp hc (.inl ho)

theorem lines_waits (v : View) (hp : 2 ≤ p.length) (hc : ¬ [cr, lf] <+: p)
    (ho : Open space [colon] p ∨
      ∃ gap name stop rest, Lexeme space [colon] p gap name stop rest ∧ Open space [cr, lf] rest) :
    v.readLines p = (v, p) := by
  rcases ho with ho | ⟨gap, name, stop, rest, hk, ho⟩
  · exact lines_name_open v hp hc ho
  · exact lines_value_open v hp hc hk ho

theorem after_line_end_suffix (p : List UInt8) : afterLineEnd p <:+ p := by
  cases p with
  | nil => exact List.suffix_rfl
  | cons c p =>
    rw [afterLineEnd]
    split
    · exact List.suffix_cons c p
    · exact List.suffix_rfl

theorem lexeme_suffix (h : Lexeme lead stops p gap token stop rest) : rest <:+ p :=
  ⟨gap ++ token ++ [stop], by rw [h.split]; simp⟩

/-- The whole loop: what holds of a view holds of the view it comes to, if a
field more and the blank line keep it. -/
theorem lines_keep {I : View → List UInt8 → Prop}
    (blank : ∀ v rest, I v (cr :: lf :: rest) →
      I { v with headerProcess := .successful, bodyProcess := .processingFirst } rest)
    (field : ∀ v p gap₁ name stop₁ rest₁ gap₂ text stop₂ rest₂, I v p →
      Lexeme space [colon] p gap₁ name stop₁ rest₁ →
      Lexeme space [cr, lf] rest₁ gap₂ text stop₂ rest₂ →
      I (v.addField (cStr name, cStr text)) (afterLineEnd rest₂))
    (p : List UInt8) (v : View) (hI : I v p) : I (v.readLines p).1 (v.readLines p).2 := by
  induction hlen : p.length using Nat.strongRecOn generalizing p v with
  | _ len ih =>
    subst hlen
    rcases line_pass p with hp | ⟨rest, rfl⟩ | ⟨hp, hc, ho⟩ | ⟨hp, hc, _, _, _, _, _, rest₂, _, _, hk, hv⟩
    · rw [lines_short v hp]
      exact hI
    · rw [lines_blank]
      exact blank v rest hI
    · rw [lines_waits v hp hc ho]
      exact hI
    · rw [lines_field v hp hc hk hv]
      have hk' := hk.length
      have hv' := hv.length
      have hend := after_line_end_length rest₂
      exact ih _ (by omega) _ _ (field _ _ _ _ _ _ _ _ _ _ hI hk hv) rfl

theorem lines_suffix (v : View) (p : List UInt8) : (v.readLines p).2 <:+ p := by
  refine lines_keep (I := fun _ q => q <:+ p) (fun _ rest h => ?_)
    (fun _ q _ _ _ _ _ _ _ rest₂ h hk hv => ?_) p v List.suffix_rfl
  · exact ((List.suffix_cons lf rest).trans (List.suffix_cons cr _)).trans h
  · exact (((after_line_end_suffix rest₂).trans (lexeme_suffix hv)).trans (lexeme_suffix hk)).trans h

end View

namespace HttpHeader

variable {h : HttpHeader} {v : View} {p : List UInt8}

theorem skip_line_end (rest stale : List UInt8) (n : Nat) :
    skipLineEnd ⟨rest ++ stale, rest.length⟩ n =
      some (⟨afterLineEnd rest ++ stale, (afterLineEnd rest).length⟩,
        n + (rest.length - (afterLineEnd rest).length)) := by
  cases rest with
  | nil => exact skip_line_end_nil stale n
  | cons c rest =>
    have hc : skipLineEnd ⟨c :: rest ++ stale, (c :: rest).length⟩ n =
        if c = cr ∨ c = lf then some (⟨rest ++ stale, rest.length⟩, n + 1)
        else some (⟨c :: rest ++ stale, (c :: rest).length⟩, n) := rfl
    rw [hc, afterLineEnd]
    split
    · simp
    · simp

/-- The loop over the header lines does what the reader of texts does. -/
theorem lines_follow (p : List UInt8) (hs : Shows h v) (hv : v.headerProcess ≠ .successful)
    (stale : List UInt8) (hu : h.abHeader.StaysForward p u) (n fuel : Nat)
    (hfuel : p.length ≤ fuel) :
    ∃ h' l, headerLoop (fuel + 1) h (localsAt p stale n u) = some (h', l) ∧
      Shows h' (v.readLines p).1 ∧ l.processByte = n + (p.length - (v.readLines p).2.length) ∧
      ((v.readLines p).1.headerProcess = .successful →
        ∃ u', l = localsAt (v.readLines p).2 stale l.processByte u') := by
  induction hlen : p.length using Nat.strongRecOn generalizing p h v u n fuel with
  | _ len ih =>
    subst hlen
    rcases View.line_pass p with hp | ⟨rest, rfl⟩ | ⟨hp, hc, ho⟩ |
      ⟨hp, hc, gap₁, name, rest₁, gap₂, text, rest₂, stop₁, stop₂, hk, hval⟩
    · rw [View.lines_short v hp]
      refine ⟨h, _, loop_short h hp stale n u fuel, hs, ?_, fun hdone => absurd hdone hv⟩
      rw [Nat.sub_self]
      rfl
    · obtain ⟨h', he, hs'⟩ := loop_blank hs rest stale n u fuel
      rw [View.lines_blank]
      refine ⟨h', _, he, hs', ?_, fun _ => ⟨u, rfl⟩⟩
      simp only [localsAt, List.length_cons]
      omega
    · rw [View.lines_waits v hp hc ho]
      have hwaits : ∃ h' l, headerLoop (fuel + 1) h (localsAt p stale n u) = some (h', l) ∧
          l.processByte = n ∧ Shows h' v := by
        rcases ho with ho | ⟨gap, name, stop, rest, hk, ho⟩
        · exact loop_key_open hs hp hc ho stale n fuel hu
        · exact loop_value_open hs hp hc hk ho stale n u fuel
      obtain ⟨h', l, he, hn, hs'⟩ := hwaits
      exact ⟨h', l, he, hs', by simp [hn], fun hdone => absurd hdone hv⟩
    · have hskip := skip_line_end rest₂ stale (gap₁.length + name.length + 1)
      have hk' := hk.length
      have hv' := hval.length
      have hend := after_line_end_length rest₂
      obtain ⟨h₁, he, hs₁, hsize⟩ := loop_field hs hp hc hk hval stale hskip n u fuel
      obtain ⟨fuel, rfl⟩ : ∃ k, fuel = k + 1 := ⟨fuel - 1, by omega⟩
      obtain ⟨h', l, he', hs', hn, hdone⟩ := ih (afterLineEnd rest₂).length (by omega)
        (afterLineEnd rest₂) hs₁ hv (hsize.stays _) _ fuel (by omega) rfl
      rw [View.lines_field v hp hc hk hval, he]
      refine ⟨h', l, he', hs', ?_, hdone⟩
      have hle := (View.lines_suffix (v.addField (cStr name, cStr text)) (afterLineEnd rest₂)).length_le
      omega

end HttpHeader

namespace View

variable {v : View} {p : List UInt8}

theorem Sound.not_next (hv : v.Sound) : v.bodyProcess ≠ .processingNext := by
  intro hb
  by_cases hp : v.headerProcess = .successful
  · rcases hv.started hp with h | h <;> rw [hb] at h <;> cases h
  · have h := hv.body hp
    rw [hb] at h
    cases h

theorem sound_cleared : View.cleared.Sound := by
  refine ⟨fun _ => rfl, fun _ => rfl, fun _ => rfl, fun h => ?_, fun _ => rfl⟩
  cases h

theorem query_append (v : View) (q : List UInt8) :
    ({ v with params := q ++ [nul] } : View).query = some q := by
  rw [query, if_neg (by simp), List.dropLast_concat]

theorem lines_sound (hv : v.Sound) (hb : v.bodyProcess ≠ .successful) (p : List UInt8) :
    (v.readLines p).1.Sound := by
  refine (lines_keep (I := fun w _ => w.Sound ∧ w.bodyProcess ≠ .successful) ?_ ?_ p v ⟨hv, hb⟩).1
  · intro w rest ⟨hw, hwb⟩
    refine ⟨⟨fun _ => hw.pairs hwb, fun _ => hw.params hwb, fun h => absurd rfl h,
      fun _ => .inl rfl, fun h => ?_⟩, ?_⟩
    · cases h
    · exact Phase.noConfusion
  · intro w q gap₁ name stop₁ rest₁ gap₂ text stop₂ rest₂ ⟨hw, hwb⟩ _ _
    exact ⟨⟨hw.pairs, hw.params, hw.body, hw.started, hw.version⟩, hwb⟩

theorem Sound.header_done (hv : v.Sound) (hb : v.bodyProcess = .processingFirst) :
    v.headerProcess = .successful := by
  by_contra hp
  have h := hv.body hp
  rw [hb] at h
  cases h

theorem finish_sound (hv : v.Sound) (hb : v.bodyProcess = .processingFirst) (n : Nat)
    (text : Option (List UInt8)) : (v.finish n text).Sound := by
  have hdone := hv.header_done hb
  refine ⟨fun h => absurd rfl h, fun h => absurd rfl h, fun h => absurd hdone h,
    fun _ => .inr rfl, fun h => ?_⟩
  have hfirst : v.headerProcess = .processingFirst := h
  rw [hdone] at hfirst
  cases hfirst

theorem body_sound (hv : v.Sound) (p : List UInt8) : (v.readBody p).1.Sound := by
  rw [readBody]
  split
  · rename_i hb
    have hw : ∀ body : List UInt8, ({ v with body := body } : View).Sound := fun body =>
      ⟨hv.pairs, hv.params, hv.body, hv.started, hv.version⟩
    split
    · exact finish_sound hv hb 0 _
    · split
      · exact hv
      · dsimp only
        split
        · exact finish_sound (hw (v.body ++ p.take v.contentLength)) hb _ _
        · exact hw _
  · exact hv

theorem next_sound (hv : v.Sound) (hb : v.bodyProcess ≠ .successful) (p : List UInt8) :
    (v.readNext p).1.Sound := body_sound (lines_sound hv hb p) _

theorem body_suffix (v : View) (p : List UInt8) : (v.readBody p).2 <:+ p := by
  rw [readBody]
  split
  · split
    · exact List.suffix_rfl
    · split
      · exact List.suffix_rfl
      · dsimp only
        split
        · exact List.drop_suffix _ _
        · exact List.drop_suffix _ _
  · exact List.suffix_rfl

theorem next_suffix (v : View) (p : List UInt8) : (v.readNext p).2 <:+ p :=
  (body_suffix _ _).trans (lines_suffix v p)

theorem method_reads (h : v.readMethod p = some (w, rest)) :
    rest <:+ p ∧ ∃ m, w = { v with method := m } := by
  unfold readMethod at h
  split at h
  · obtain ⟨rfl, rfl⟩ := Prod.mk.inj (Option.some.inj h)
    exact ⟨List.suffix_rfl, v.method, rfl⟩
  · obtain ⟨c, hc, h⟩ := Option.map_eq_some_iff.mp h
    obtain ⟨rfl, rfl⟩ := Prod.mk.inj h
    exact ⟨lexeme_suffix (lexeme_of_cut hc), some (cStr c.token), rfl⟩

theorem uri_reads (h : v.readUri p = some (w, rest)) :
    rest <:+ p ∧ ∃ m, w = { v with uri := m } := by
  unfold readUri at h
  split at h
  · obtain ⟨rfl, rfl⟩ := Prod.mk.inj (Option.some.inj h)
    exact ⟨List.suffix_rfl, v.uri, rfl⟩
  · obtain ⟨c, hc, h⟩ := Option.map_eq_some_iff.mp h
    obtain ⟨rfl, rfl⟩ := Prod.mk.inj h
    have ht := lexeme_of_cut hc
    refine ⟨?_, some (cStr c.token), rfl⟩
    split
    · rename_i hq
      exact ⟨c.gap ++ c.token, by rw [ht.split, hq]⟩
    · exact lexeme_suffix ht

theorem params_reads (h : v.readParams p = some (w, rest)) :
    rest <:+ p ∧ (w = v ∨ ∃ q, w = { v with params := q ++ [nul] }) := by
  unfold readParams at h
  split at h
  · obtain ⟨rfl, rfl⟩ := Prod.mk.inj (Option.some.inj h)
    exact ⟨List.suffix_rfl, .inl rfl⟩
  · cases p with
    | nil =>
      obtain ⟨rfl, rfl⟩ := Prod.mk.inj (Option.some.inj h)
      exact ⟨List.suffix_rfl, .inl rfl⟩
    | cons c p =>
      dsimp only at h
      split at h
      · obtain ⟨cut, hc, h⟩ := Option.map_eq_some_iff.mp h
        obtain ⟨rfl, rfl⟩ := Prod.mk.inj h
        exact ⟨(lexeme_suffix (lexeme_of_cut hc)).trans (List.suffix_cons _ _),
          .inr ⟨cut.gap ++ cut.token, rfl⟩⟩
      · obtain ⟨rfl, rfl⟩ := Prod.mk.inj (Option.some.inj h)
        exact ⟨List.suffix_rfl, .inl rfl⟩

theorem version_reads (hv : v.version = none) (h : v.readVersion p = some (w, rest)) :
    rest <:+ p ∧ ∃ m, w = { v with version := some m, headerProcess := .processingNext } := by
  unfold readVersion at h
  rw [if_neg (by simp [hv])] at h
  obtain ⟨c, hc, h⟩ := Option.map_eq_some_iff.mp h
  obtain ⟨rfl, rfl⟩ := Prod.mk.inj h
  exact ⟨(after_line_end_suffix c.rest).trans (lexeme_suffix (lexeme_of_cut hc)), _, rfl⟩

theorem method_there (h₁ : v.readMethod p = some (v₁, p₁)) (h₂ : v₁.readUri p₁ = some (v₂, p₂))
    (h₃ : v₂.readParams p₂ = some (v₃, p₃)) : v₃.method ≠ none := by
  have hsome : v₁.method.isSome := by
    unfold readMethod at h₁
    split at h₁
    · rename_i hm
      obtain ⟨rfl, rfl⟩ := Prod.mk.inj (Option.some.inj h₁)
      exact hm
    · obtain ⟨c, -, h₁⟩ := Option.map_eq_some_iff.mp h₁
      obtain ⟨rfl, rfl⟩ := Prod.mk.inj h₁
      rfl
  have hmethod : v₃.method = v₁.method := by
    obtain ⟨-, _, rfl⟩ := uri_reads h₂
    obtain ⟨-, rfl | ⟨_, rfl⟩⟩ := params_reads h₃ <;> rfl
  rw [hmethod]
  exact Option.isSome_iff_ne_none.mp hsome

/-- The views that the first line comes to. -/
structure Starting (v : View) : Prop where
  sound : v.Sound
  first : v.headerProcess = .processingFirst

theorem Starting.waits (hv : v.Starting) : v.bodyProcess = .none := by
  refine hv.sound.body ?_
  rw [hv.first]
  decide

theorem Starting.method (hv : v.Starting) (h : v.readMethod p = some (w, rest)) : w.Starting := by
  obtain ⟨-, m, rfl⟩ := method_reads h
  have hs := hv.sound
  exact ⟨⟨hs.pairs, hs.params, hs.body, hs.started, hs.version⟩, hv.first⟩

theorem Starting.uri (hv : v.Starting) (h : v.readUri p = some (w, rest)) : w.Starting := by
  obtain ⟨-, m, rfl⟩ := uri_reads h
  have hs := hv.sound
  exact ⟨⟨hs.pairs, hs.params, hs.body, hs.started, hs.version⟩, hv.first⟩

theorem Starting.params (hv : v.Starting) (h : v.readParams p = some (w, rest)) : w.Starting := by
  obtain ⟨-, rfl | ⟨q, rfl⟩⟩ := params_reads h
  · exact hv
  · have hs := hv.sound
    exact ⟨⟨hs.pairs, fun _ => by rw [query_append]; rfl, hs.body, hs.started, hs.version⟩, hv.first⟩

theorem Starting.version (hv : v.Starting) (h : v.readVersion p = some (w, rest)) :
    w.Sound ∧ w.headerProcess = .processingNext ∧ w.bodyProcess ≠ .successful := by
  obtain ⟨-, m, rfl⟩ := version_reads (hv.sound.version hv.first) h
  have hs := hv.sound
  have hnone := hv.waits
  have hwait : v.bodyProcess ≠ .successful := by
    rw [hnone]
    decide
  refine ⟨⟨hs.pairs, hs.params, fun _ => hnone, fun h => ?_, fun h => ?_⟩, rfl, hwait⟩
  · cases h
  · cases h

theorem and_read_keep {I : View → Prop} {part : ReadPart}
    {next : View → List UInt8 → View × List UInt8} (hv : I v)
    (hnext : ∀ w rest, part v p = some (w, rest) → I (next w rest).1) :
    I (andRead part next v p).1 := by
  unfold andRead
  split
  · exact hv
  · rename_i r hr
    exact hnext r.1 r.2 hr

theorem and_read_suffix {part : ReadPart} {next : View → List UInt8 → View × List UInt8}
    (hpart : ∀ w rest, part v p = some (w, rest) → rest <:+ p)
    (hnext : ∀ w rest, part v p = some (w, rest) → (next w rest).2 <:+ rest) :
    (andRead part next v p).2 <:+ p := by
  unfold andRead
  split
  · exact List.suffix_rfl
  · rename_i r hr
    exact (hnext r.1 r.2 hr).trans (hpart r.1 r.2 hr)

theorem read_sound (hv : v.Sound) (p : List UInt8) : (v.read p).1.Sound := by
  unfold read
  split
  · rename_i hp
    have hstart : v.Starting := ⟨hv, hp⟩
    refine and_read_keep hv fun w p hw => ?_
    have hw := hstart.method hw
    refine and_read_keep hw.sound fun w p hw' => ?_
    have hw := hw.uri hw'
    refine and_read_keep hw.sound fun w p hw' => ?_
    have hw := hw.params hw'
    refine and_read_keep hw.sound fun w p hw' => ?_
    obtain ⟨hsound, -, hbody⟩ := hw.version hw'
    exact next_sound hsound hbody p
  · rename_i hp
    have hphase : v.headerProcess ≠ .successful := by
      rw [hp]
      decide
    refine next_sound hv ?_ p
    rw [hv.body hphase]
    decide
  · exact body_sound hv p

theorem version_part_suffix (h : v.readVersion p = some (w, rest)) : rest <:+ p := by
  unfold readVersion at h
  split at h
  · obtain ⟨rfl, rfl⟩ := Prod.mk.inj (Option.some.inj h)
    exact List.suffix_rfl
  · obtain ⟨c, hc, h⟩ := Option.map_eq_some_iff.mp h
    obtain ⟨rfl, rfl⟩ := Prod.mk.inj h
    exact (after_line_end_suffix c.rest).trans (lexeme_suffix (lexeme_of_cut hc))

theorem version_next_suffix (v : View) (p : List UInt8) :
    (andRead readVersion readNext v p).2 <:+ p :=
  and_read_suffix (fun _ _ h => version_part_suffix h) fun w rest _ => next_suffix w rest

theorem params_next_suffix (v : View) (p : List UInt8) :
    (andRead readParams (andRead readVersion readNext) v p).2 <:+ p :=
  and_read_suffix (fun _ _ h => (params_reads h).1) fun w rest _ => version_next_suffix w rest

theorem uri_next_suffix (v : View) (p : List UInt8) :
    (andRead readUri (andRead readParams (andRead readVersion readNext)) v p).2 <:+ p :=
  and_read_suffix (fun _ _ h => (uri_reads h).1) fun w rest _ => params_next_suffix w rest

theorem read_suffix (v : View) (p : List UInt8) : (v.read p).2 <:+ p := by
  unfold read
  split
  · exact and_read_suffix (fun _ _ h => (method_reads h).1) fun w rest _ => uri_next_suffix w rest
  · exact next_suffix v p
  · exact body_suffix v p

/-- The text ends with the URI, and there are no parameters yet. -/
structure UriCut (v : View) (p : List UInt8) : Prop where
  first : v.headerProcess = .processingFirst
  params : v.params = []
  ends : ∃ w rest w', v.readMethod p = some (w, rest) ∧ w.readUri rest = some (w', [])

end View

namespace HttpHeader

variable {h : HttpHeader} {v : View} {p : List UInt8}

theorem body_follows (hs : Shows h v) (hv : v.Sound) (p stale : List UInt8) (n u : Nat) :
    ∃ h', bodyPart h (localsAt p stale n u) =
        some (h', n + (p.length - (v.readBody p).2.length)) ∧ Shows h' (v.readBody p).1 := by
  rw [View.readBody]
  split
  · rename_i hb
    have hnot : v.bodyProcess ≠ .successful := by
      rw [hb]
      decide
    split
    · rename_i hl
      have hl' : v.contentLength = npos ∨ (p.length = 0 ∧ v.contentLength = 0) := by
        rwa [List.length_eq_zero_iff]
      obtain ⟨h', he, hs'⟩ := body_empty hs hb (hv.pairs hnot) (hv.params hnot) hl' stale n u
      refine ⟨h', ?_, hs'⟩
      rw [he, Nat.sub_self]
      rfl
    · rename_i hl
      rw [not_or] at hl
      split
      · rename_i htake
        have hmin : min p.length v.contentLength = 0 := by
          have hlen := congrArg List.length htake
          rw [List.length_take, List.length_nil] at hlen
          omega
        refine ⟨h, ?_, hs⟩
        rw [body_idle hs hb hl.1 hmin (by rw [List.length_eq_zero_iff]; exact hl.2), Nat.sub_self]
        rfl
      · rename_i htake
        have hlen : (p.take v.contentLength).length = p.length - (p.drop v.contentLength).length := by
          rw [List.length_take, List.length_drop]
          omega
        dsimp only
        split
        · rename_i hle
          obtain ⟨h', he, hs'⟩ := body_last hs hb (hv.pairs hnot) (hv.params hnot) hl.1 htake hle
            stale n u
          exact ⟨h', by rw [he, hlen], hs'⟩
        · rename_i hlt
          obtain ⟨h', he, hs'⟩ := body_part hs hb hl.1 htake (Nat.lt_of_not_le hlt) stale n u
          exact ⟨h', by rw [he, hlen], hs'⟩
  · rename_i hb
    refine ⟨h, ?_, hs⟩
    have hno : ¬ (h.bodyProcess = .processingFirst ∨ h.bodyProcess = .processingNext) := by
      rw [hs.bodyProcess, not_or]
      exact ⟨hb, hv.not_next⟩
    rw [bodyPart, if_neg hno, Nat.sub_self]
    rfl

theorem next_follows (hs : Shows h v) (hv : v.Sound) (hn : v.headerProcess = .processingNext)
    (p stale : List UInt8) (hu : h.abHeader.StaysForward p u) (n : Nat) :
    ∃ h', nextPart h (localsAt p stale n u) =
        some (h', n + (p.length - (v.readNext p).2.length)) ∧ Shows h' (v.readNext p).1 := by
  have hphase : v.headerProcess ≠ .successful := by
    rw [hn]
    decide
  have hbody : v.bodyProcess ≠ .successful := by
    rw [hv.body hphase]
    decide
  obtain ⟨h₁, l, he, hs₁, hl, hdone⟩ := lines_follow p hs hphase stale hu n (p ++ stale).length
    (by rw [List.length_append]; omega)
  have hsound := View.lines_sound hv hbody p
  have hlines := (View.lines_suffix v p).length_le
  have hrest := (View.body_suffix (v.readLines p).1 (v.readLines p).2).length_le
  have hnext : nextPart h (localsAt p stale n u) = bodyPart h₁ l := by
    change (headerLoop ((p ++ stale).length + 1) h (localsAt p stale n u)).bind _ = _
    rw [he]
    rfl
  rw [hnext, View.readNext]
  by_cases hp : (v.readLines p).1.headerProcess = .successful
  · obtain ⟨u', hlocals⟩ := hdone hp
    obtain ⟨h', he', hs'⟩ := body_follows hs₁ hsound (v.readLines p).2 stale l.processByte u'
    refine ⟨h', ?_, hs'⟩
    rw [hlocals, he', hl]
    congr 2
    omega
  · have hnone := hsound.body hp
    have hwait : ¬ (v.readLines p).1.bodyProcess = .processingFirst := by
      rw [hnone]
      decide
    refine ⟨h₁, ?_, ?_⟩
    · rw [body_wait hs₁ hnone, hl, View.readBody, if_neg hwait]
    · rw [View.readBody, if_neg hwait]
      exact hs₁

/-- A call, or the rest of one, leaves what the reader leaves, and counts what it takes. -/
def Follows (result : Option (HttpHeader × Nat)) (p : List UInt8) (n : Nat)
    (read : View × List UInt8) : Prop :=
  ∃ h', result = some (h', n + (p.length - read.2.length)) ∧ Shows h' read.1

/-- A part of the first line does what a part of the reader does. -/
def PartFollows (part : Option Flow) (h : HttpHeader) (p stale : List UInt8) (n : Nat) :
    Option (View × List UInt8) → Prop
  | none => part = some (.ret h n)
  | some (w, rest) => rest <:+ p ∧
    ∃ h' u, part = some (.next h' (localsAt rest stale (n + (p.length - rest.length)) u)) ∧ Shows h' w

theorem part_then {part : Option Flow} {read : ReadPart}
    {next : HttpHeader → Locals → Option (HttpHeader × Nat)}
    {readNext : View → List UInt8 → View × List UInt8} (hs : Shows h v)
    (hpart : PartFollows part h p stale n (read v p))
    (hnext : ∀ w rest, read v p = some (w, rest) → (readNext w rest).2 <:+ rest ∧
      ∀ h' m u, part = some (.next h' (localsAt rest stale m u)) → Shows h' w →
        Follows (next h' (localsAt rest stale m u)) rest m (readNext w rest)) :
    Follows (Flow.andThen part next) p n (View.andRead read readNext v p) := by
  unfold View.andRead
  cases hread : read v p with
  | none =>
    rw [hread] at hpart
    refine ⟨h, ?_, hs⟩
    rw [show part = some (.ret h n) from hpart, Nat.sub_self]
    rfl
  | some r =>
    obtain ⟨w, rest⟩ := r
    rw [hread] at hpart
    obtain ⟨hsuffix, h', u, he, hs'⟩ := hpart
    obtain ⟨hrest, hfollows⟩ := hnext w rest hread
    obtain ⟨h'', he', hs''⟩ := hfollows h' _ u he hs'
    refine ⟨h'', ?_, hs''⟩
    have hle := hsuffix.length_le
    have hle' := hrest.length_le
    rw [he, Flow.andThen, he']
    dsimp only
    congr 2
    omega

theorem method_follows (hs : Shows h v) (p stale : List UInt8) (n u : Nat) :
    PartFollows (methodPart h (localsAt p stale n u)) h p stale n (v.readMethod p) := by
  rw [View.readMethod]
  split
  · rename_i hm
    obtain ⟨m, hm⟩ := Option.isSome_iff_exists.mp hm
    exact ⟨List.suffix_rfl, h, u, by rw [method_skip hs hm, Nat.sub_self]; rfl, hs⟩
  · rename_i hm
    rw [Option.not_isSome_iff_eq_none] at hm
    cases hc : cut space [space] p with
    | none => exact method_open hs hm (open_of_cut hc) stale n u
    | some c =>
      have ht := lexeme_of_cut hc
      have hlen := ht.length
      obtain ⟨h', he, hs'⟩ := method_found hs hm ht stale n u
      refine ⟨View.lexeme_suffix ht, h', c.gap.length + c.token.length + 1, ?_, hs'⟩
      rw [he]
      congr 3
      omega

theorem uri_follows (hs : Shows h v) (p stale : List UInt8) (n u : Nat) :
    PartFollows (uriPart h (localsAt p stale n u)) h p stale n (v.readUri p) := by
  rw [View.readUri]
  split
  · rename_i hm
    obtain ⟨m, hm⟩ := Option.isSome_iff_exists.mp hm
    exact ⟨List.suffix_rfl, h, u, by rw [uri_skip hs hm, Nat.sub_self]; rfl, hs⟩
  · rename_i hm
    rw [Option.not_isSome_iff_eq_none] at hm
    cases hc : cut space [question, space] p with
    | none => exact uri_open hs hm (open_of_cut hc) stale n u
    | some c =>
      have ht := lexeme_of_cut hc
      have hlen := ht.length
      obtain ⟨h', he, hs'⟩ := uri_found hs hm ht stale n u
      by_cases hq : c.stop = question
      · rw [if_pos hq] at he
        have hsuffix : question :: c.rest <:+ p := ⟨c.gap ++ c.token, by rw [ht.split, hq]⟩
        refine ⟨by rw [if_pos hq]; exact hsuffix, h', c.gap.length + c.token.length, ?_, hs'⟩
        rw [he, if_pos hq, List.length_cons]
        congr 3
        omega
      · rw [if_neg hq] at he
        refine ⟨by rw [if_neg hq]; exact View.lexeme_suffix ht, h',
          c.gap.length + c.token.length + 1, ?_, hs'⟩
        rw [he, if_neg hq]
        congr 3
        omega

/-- The byte at the pointer is looked at even when it is not part of the text. -/
theorem params_follows (hs : Shows h v) (hp : v.pairs = []) (p stale : List UInt8)
    (hquiet : v.params = [] → p = [] → ∃ c ∈ stale.head?, c ≠ question) (n u : Nat) :
    PartFollows (paramsPart h (localsAt p stale n u)) h p stale n (v.readParams p) := by
  unfold View.readParams
  split
  · rename_i hv
    exact ⟨List.suffix_rfl, h, u, by rw [params_skip_filled hs hv, Nat.sub_self]; rfl, hs⟩
  · rename_i hv
    have hv := Decidable.not_not.mp hv
    cases p with
    | nil =>
      obtain ⟨c, hc, hother⟩ := hquiet hv rfl
      have hfirst : ([] ++ stale)[0]? = some c := by
        rw [List.nil_append, ← List.head?_eq_getElem?]
        exact hc
      exact ⟨List.suffix_rfl, h, u, params_skip_other hs hv stale hfirst hother n u, hs⟩
    | cons c rest =>
      dsimp only
      split
      · rename_i hc
        subst hc
        cases hcut : cut question [space] rest with
        | none => exact params_open hs hv (open_of_cut hcut) stale n u
        | some cut =>
          have ht := lexeme_of_cut hcut
          have hlen := ht.length
          obtain ⟨h', he, hs'⟩ := params_found hs hv hp ht stale n u
          refine ⟨(View.lexeme_suffix ht).trans (List.suffix_cons _ _), h',
            cut.gap.length + cut.token.length + 1, ?_, hs'⟩
          rw [he, List.length_cons]
          congr 3
          omega
      · rename_i hc
        refine ⟨List.suffix_rfl, h, u, ?_, hs⟩
        rw [params_skip_other hs hv stale rfl hc, Nat.sub_self]
        rfl

theorem version_follows (hs : Shows h v) (hv : v.version = none) (p stale : List UInt8)
    (n u : Nat) :
    PartFollows (versionPart h (localsAt p stale n u)) h p stale n (v.readVersion p) := by
  have hnone : ¬ v.version.isSome = true := by simp [hv]
  rw [View.readVersion, if_neg hnone]
  cases hc : cut space [cr, lf] p with
  | none => exact version_open hs hv (open_of_cut hc) stale n u
  | some c =>
    have ht := lexeme_of_cut hc
    have hlen := ht.length
    have hend := after_line_end_length c.rest
    obtain ⟨h', he, hs'⟩ := version_found hs hv ht stale (skip_line_end c.rest stale _) n u
    refine ⟨(View.after_line_end_suffix c.rest).trans (View.lexeme_suffix ht), h',
      c.gap.length + c.token.length + 1 + (c.rest.length - (afterLineEnd c.rest).length), ?_, hs'⟩
    rw [he]
    congr 3
    omega

/-- A call does what the reader does, unless it looks at a byte behind its text and
takes it for the beginning of the parameters. -/
theorem process_follows (hs : Shows h v) (hv : v.Sound) (p stale : List UInt8)
    (hquiet : v.UriCut p → ∃ c ∈ stale.head?, c ≠ question) (hu : h.StaysForward p u) :
    Follows (h.processData (p ++ stale) p.length u) p 0 (v.read p) := by
  have hphase := hs.headerProcess
  unfold View.read
  split
  · rename_i hp
    rw [hp] at hphase
    have hv : v.Starting := ⟨hv, hp⟩
    rw [processData, hphase]
    refine part_then hs (method_follows hs p stale 0 u) fun v₁ p₁ h₁ =>
      ⟨View.uri_next_suffix v₁ p₁, fun h m u _ hs => ?_⟩
    have hv₁ := hv.method h₁
    refine part_then hs (uri_follows hs p₁ stale m u) fun v₂ p₂ h₂ =>
      ⟨View.params_next_suffix v₂ p₂, fun h m u _ hs => ?_⟩
    have hv₂ := hv₁.uri h₂
    have hquiet₂ : v₂.params = [] → p₂ = [] → ∃ c ∈ stale.head?, c ≠ question := by
      rintro hparams rfl
      refine hquiet ⟨hp, ?_, v₁, p₁, v₂, h₁, h₂⟩
      obtain ⟨-, _, rfl⟩ := View.method_reads h₁
      obtain ⟨-, _, rfl⟩ := View.uri_reads h₂
      exact hparams
    have hpairs : v₂.pairs = [] := by
      refine hv₂.sound.pairs ?_
      rw [hv₂.waits]
      decide
    refine part_then hs (params_follows hs hpairs p₂ stale hquiet₂ m u) fun v₃ p₃ h₃ =>
      ⟨View.version_next_suffix v₃ p₃, fun h m u _ hs => ?_⟩
    have hv₃ := hv₂.params h₃
    have hnone := hv₃.sound.version hv₃.first
    refine part_then hs (version_follows hs hnone p₃ stale m u)
      fun v₄ p₄ h₄ => ⟨View.next_suffix v₄ p₄, fun h' m' u' he hs' => ?_⟩
    obtain ⟨hsound, hnext, -⟩ := hv₃.version h₄
    have hmethod : v₃.method ≠ none := View.method_there h₁ h₂ h₃
    have hsize := version_forward he (hs.no_version hnone) (hs.fill_pos hmethod)
    exact next_follows hs' hsound hnext p₄ stale (hsize.stays p₄) m'
  · rename_i hp
    rw [hp] at hphase
    rw [processData, hphase]
    exact next_follows hs hv hp p stale (hu hphase) 0
  · rename_i hfirst hnext
    have hcall : h.processData (p ++ stale) p.length u = bodyPart h (localsAt p stale 0 u) := by
      rw [processData]
      split
      · rename_i hp
        exact absurd (hphase.symm.trans hp) hfirst
      · rename_i hp
        exact absurd (hphase.symm.trans hp) hnext
      · rfl
    rw [hcall]
    exact body_follows hs hv p stale 0 u

end HttpHeader

end Khorost
