import Khorost.Proofs.ParseString

namespace Khorost

/-- The texts a parser has stored, and where it is: what a reader of the buffers
can see, without the positions and without what has been left behind in them. -/
structure View where
  method : Option (List UInt8)
  uri : Option (List UInt8)
  version : Option (List UInt8)
  fields : List (List UInt8 × List UInt8)
  params : List UInt8
  pairs : List (List UInt8 × Option (List UInt8))
  body : List UInt8
  headerProcess : Phase
  bodyProcess : Phase
  contentLength : Nat

/-- What a lookup returns for a field: the value of a `Cookie` ends at the first
separator that `parse_string` has overwritten. -/
def shownValue (f : List UInt8 × List UInt8) : List UInt8 :=
  if f.1 = ascii "Cookie" then cStr (splitText semicolon true f.2 [] 0 none).1 else f.2

def cookiesOf (fields : List (List UInt8 × List UInt8)) :
    List (List UInt8 × Option (List UInt8)) :=
  fields.flatMap (fun f => if f.1 = ascii "Cookie" then pairsOf semicolon true f.2 else [])

/-- A field is added; the first `Content-Length` gives the length of the body. -/
def View.addField (v : View) (f : List UInt8 × List UInt8) : View :=
  { v with
    fields := v.fields ++ [f]
    contentLength := if v.contentLength = npos ∧ f.1 = ascii "Content-Length" then
      sizeT (atoi f.2) else v.contentLength }

def ShowsField (content : List UInt8) (p : Nat × Nat) (f : List UInt8 × List UInt8) : Prop :=
  StrAt content p.1 f.1 ∧ StrAt content p.2 (shownValue f)

/-- The parser shows the view: every reference leads to the text. -/
structure Shows (h : HttpHeader) (v : View) : Prop where
  method : Option.Rel (StrAt h.abHeader.content) h.queryMethod v.method
  uri : Option.Rel (StrAt h.abHeader.content) h.queryUri v.uri
  version : Option.Rel (StrAt h.abHeader.content) h.queryVersion v.version
  fields : List.Forall₂ (ShowsField h.abHeader.content) h.headerValues v.fields
  cookies : List.Forall₂ (ShowsPair h.abHeader.content) h.cookies (cookiesOf v.fields)
  params : h.abParams.content = v.params
  pairs : List.Forall₂ (ShowsPair h.abParams.content) h.paramsValue v.pairs
  body : h.abBody.content = v.body
  headerProcess : h.headerProcess = v.headerProcess
  bodyProcess : h.bodyProcess = v.bodyProcess
  contentLength : h.contentLength = v.contentLength

def View.cleared : View :=
  ⟨none, none, none, [], [], [], [], .processingFirst, .none, npos⟩

theorem shows_clear (h : HttpHeader) : Shows h.clear .cleared :=
  ⟨.none, .none, .none, .nil, .nil, rfl, .nil, rfl, rfl, rfl, rfl⟩

theorem shows_new (fresh : Nat → UInt8) : Shows (HttpHeader.new fresh) .cleared :=
  ⟨.none, .none, .none, .nil, .nil, rfl, .nil, rfl, rfl, rfl, rfl⟩

theorem rel_extend {content grown : List UInt8} (hg : content <+: grown)
    (h : Option.Rel (StrAt content) p s) : Option.Rel (StrAt grown) p s := by
  obtain ⟨more, rfl⟩ := hg
  cases h with
  | some h => exact .some (h.extend more)
  | none => exact .none

theorem ShowsField.extend (h : ShowsField content p f) (more : List UInt8) :
    ShowsField (content ++ more) p f :=
  ⟨h.1.extend more, h.2.extend more⟩

/-- A header buffer that only grows shows what it has shown before. -/
theorem Shows.grow (hs : Shows h v) (b : AutoBuffer UInt8)
    (hg : h.abHeader.content <+: b.content) : Shows { h with abHeader := b } v := by
  obtain ⟨more, hm⟩ := hg
  refine ⟨rel_extend ⟨more, hm⟩ hs.method, rel_extend ⟨more, hm⟩ hs.uri,
    rel_extend ⟨more, hm⟩ hs.version, ?_, ?_, hs.params, hs.pairs, hs.body, hs.headerProcess,
    hs.bodyProcess, hs.contentLength⟩
  · rw [← hm]
    exact hs.fields.imp (fun _ _ hf => hf.extend more)
  · rw [← hm]
    exact hs.cookies.imp (fun _ _ hc => hc.extend more)

/-- As long as it does not wrap around, `decrement_free_size` takes over bytes that no
reference leads to. -/
theorem Shows.decrement (hs : Shows h v) (b : AutoBuffer UInt8) (hn : b.NoWrap n)
    (hg : h.abHeader.content <+: b.content) :
    Shows { h with abHeader := b.decrementFreeSize n } v := by
  obtain ⟨taken, ht⟩ := b.content_decrement hn
  apply hs.grow
  rw [ht]
  exact hg.trans (List.prefix_append _ _)

/-- A text that is shown takes at least its terminator. -/
theorem Shows.fill_pos (hs : Shows h v) (hm : v.method ≠ none) : 0 < h.abHeader.fillSize := by
  have hmethod := hs.method
  generalize h.queryMethod = position at hmethod
  generalize v.method = method at hm hmethod
  cases hmethod with
  | none => exact absurd rfl hm
  | some hat =>
    obtain ⟨before, after, hcontent, -, -⟩ := hat
    rw [← AutoBuffer.content_length, hcontent]
    simp only [List.length_append, List.length_cons]
    omega

theorem rel_isSome (h : Option.Rel R p s) : p.isSome = s.isSome := by
  cases h <;> rfl

theorem Shows.no_version (hs : Shows h v) (hv : v.version = none) : h.queryVersion = none := by
  rw [← Option.not_isSome_iff_eq_none, rel_isSome hs.version, hv]
  simp

theorem str_read (b : AutoBuffer UInt8) (h : StrAt b.content position s) :
    cStr (b.buffer.drop position) = s := by
  rw [b.buffer_split]
  exact h.read b.stale

theorem rel_read (b : AutoBuffer UInt8) (h : Option.Rel (StrAt b.content) p s) :
    p.map (fun position => cStr (b.buffer.drop position)) = s := by
  cases h with
  | some h => rw [Option.map_some, str_read b h]
  | none => rfl

theorem Shows.get_query_method (hs : Shows h v) : h.getQueryMethod = v.method :=
  rel_read h.abHeader hs.method

theorem Shows.get_query_uri (hs : Shows h v) : h.getQueryUri = v.uri :=
  rel_read h.abHeader hs.uri

theorem Shows.get_query_version (hs : Shows h v) : h.getQueryVersion = v.version :=
  rel_read h.abHeader hs.version

theorem Shows.get_body (hs : Shows h v) : h.getBody = v.body := hs.body

/-- Looking for a name among positions and among the texts they lead to. -/
theorem find_related {R : α → β → Prop} {p : α → Bool} {q : β → Bool}
    (h : List.Forall₂ R xs ys) (hpq : ∀ x y, R x y → p x = q y) :
    Option.Rel R (xs.find? p) (ys.find? q) := by
  induction h with
  | nil => exact .none
  | @cons x y xs ys hxy _ ih =>
    rw [List.find?_cons, List.find?_cons, hpq x y hxy]
    cases q y with
    | true => exact .some hxy
    | false => exact ih

/-- The first field of a name, however its letters are written. -/
def lookupField (fields : List (List UInt8 × List UInt8)) (param : List UInt8)
    (defaultValue : Option (List UInt8)) : Option (List UInt8) :=
  match fields.find? (fun f => strcaseEq param f.1) with
  | some f => some (shownValue f)
  | none => defaultValue

def lookupPair (pairs : List (List UInt8 × Option (List UInt8))) (key : List UInt8)
    (defaultValue : Option (List UInt8)) : Option (List UInt8) :=
  match pairs.find? (fun p => strcaseEq key p.1) with
  | some (_, some value) => some value
  | _ => defaultValue

theorem Shows.get_header_parameter (hs : Shows h v) (param : List UInt8)
    (defaultValue : Option (List UInt8)) :
    h.getHeaderParameter param defaultValue = lookupField v.fields param defaultValue := by
  have hfind := find_related (p := fun p => strcaseEq param (h.headerText p.1))
    (q := fun f => strcaseEq param f.1) hs.fields (by
      intro p f hf
      rw [HttpHeader.headerText, str_read h.abHeader hf.1])
  rw [HttpHeader.getHeaderParameter, lookupField]
  generalize h.headerValues.find? _ = found at hfind
  generalize v.fields.find? _ = field at hfind
  cases hfind with
  | some hf => exact congrArg some (str_read h.abHeader hf.2)
  | none => rfl

theorem find_pair (b : AutoBuffer UInt8) (key : List UInt8) (defaultValue : Option (List UInt8))
    (hp : List.Forall₂ (ShowsPair b.content) ps pairs) :
    (match ps.find? (fun p => strcaseEq key (cStr (b.buffer.drop p.1))) with
      | some (_, some value) => some (cStr (b.buffer.drop value))
      | _ => defaultValue) = lookupPair pairs key defaultValue := by
  have hfind := find_related (p := fun p => strcaseEq key (cStr (b.buffer.drop p.1)))
    (q := fun p => strcaseEq key p.1) hp (by
      intro p s h
      rw [str_read b h.1])
  rw [lookupPair]
  generalize ps.find? _ = found at hfind
  generalize pairs.find? _ = pair at hfind
  cases hfind with
  | none => rfl
  | @some p s h =>
    obtain ⟨k, value⟩ := p
    obtain ⟨name, text⟩ := s
    obtain ⟨-, hv⟩ := h
    dsimp only at hv
    cases hv with
    | none => rfl
    | some hv => exact congrArg some (str_read b hv)

theorem Shows.get_cookie (hs : Shows h v) (key : List UInt8)
    (defaultValue : Option (List UInt8)) :
    h.getCookie key defaultValue = lookupPair (cookiesOf v.fields) key defaultValue :=
  find_pair h.abHeader key defaultValue hs.cookies

theorem Shows.get_parameter (hs : Shows h v) (key : List UInt8)
    (defaultValue : Option (List UInt8)) :
    h.getParameter key defaultValue = lookupPair v.pairs key defaultValue :=
  find_pair h.abParams key defaultValue hs.pairs

theorem Shows.is_parameter_exist (hs : Shows h v) (key : List UInt8) :
    h.isParameterExist key = v.pairs.any (fun p => strcaseEq key p.1) := by
  have hp := hs.pairs
  rw [HttpHeader.isParameterExist]
  generalize h.paramsValue = ps at hp
  generalize v.pairs = pairs at hp
  induction hp with
  | nil => rfl
  | cons hxy _ ih => rw [List.any_cons, List.any_cons, ih, HttpHeader.paramsText, str_read _ hxy.1]

theorem Shows.is_ready (hs : Shows h v) :
    h.isReady = true ↔ v.headerProcess = .successful ∧ v.bodyProcess = .successful := by
  rw [HttpHeader.isReady, hs.headerProcess, hs.bodyProcess, decide_eq_true_iff]

end Khorost
