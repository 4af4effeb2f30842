import Khorost.Proofs.ValueRange

namespace Khorost

open Blocks Quoted

/-- A parameter as it is sent, with the spaces in front of it. The value is a token, or
anything between quotes. -/
structure Parameter where
  gap : List UInt8
  key : List UInt8
  q : List UInt8
  value : List UInt8
  gap_spaces : ∀ c ∈ gap, c = space
  key_clear : ∀ c ∈ key, c ∉ [quote, equals, semicolon]
  key_start : key.head? ≠ some space
  written : Written equals semicolon value q

namespace Parameter

def text (p : Parameter) : List UInt8 := p.gap ++ p.key ++ equals :: (p.q ++ p.value ++ p.q)

/-- Where the value stands in the text of the parameter. -/
def valuePlace (p : Parameter) : Nat := p.gap.length + p.key.length + 1 + p.q.length

end Parameter

def paramsText (params : List Parameter) : List UInt8 :=
  [semicolon].intercalate (params.map Parameter.text)

/-- What stands in front of the first parameter: nothing, or a type and a semicolon. -/
def leadText : Option (List UInt8) → List UInt8
  | none => []
  | some type => type ++ [semicolon]

/-- The first parameter with exactly this key, and where it begins. -/
def findParameter (name : List UInt8) : Nat → List Parameter → Option (Nat × Parameter)
  | _, [] => none
  | n, p :: params =>
    if p.key = name then some (n, p) else findParameter name (n + p.text.length + 1) params

variable {lead : Option (List UInt8)} {params : List Parameter}
  {name front tail text v q : List UInt8} {divKV divKK : UInt8} {p : Parameter}

/-- A written value shows no separator outside of its quotes. -/
theorem Written.free (hw : Written divKV divKK v q) (hkv : divKV ≠ quote) (hkk : divKK ≠ quote) :
    Free quote divKV false (q ++ v ++ q) ∧ Free quote divKK false (q ++ v ++ q) ∧
      after quote false (q ++ v ++ q) = false := by
  cases hw with
  | bare hne hclear =>
    rw [List.nil_append, List.append_nil]
    exact ⟨free_clear (fun hc => (hclear _ hc).2.1 rfl) false,
      free_clear (fun hc => (hclear _ hc).2.2 rfl) false,
      after_clear (fun hc => (hclear _ hc).1 rfl) false⟩
  | quoted hclear =>
    have hfree : ∀ d, d ≠ quote → Free quote d false ([quote] ++ v ++ [quote]) := by
      intro d hd
      rw [List.append_assoc, List.singleton_append, free_cons, toggle_self, free_append,
        after_clear hclear]
      exact ⟨fun _ => hd.symm, free_inside hclear d, nofun, trivial⟩
    refine ⟨hfree _ hkv, hfree _ hkk, ?_⟩
    rw [List.append_assoc, List.singleton_append, after_cons, toggle_self, after_append,
      after_clear hclear]
    rfl

theorem Parameter.balanced (p : Parameter) : after quote false p.text = false := by
  have hgap : quote ∉ p.gap := fun hc => absurd (p.gap_spaces quote hc) (by decide)
  have hkey : quote ∉ p.key := fun hc => p.key_clear quote hc (by simp)
  rw [text, after_append, after_append, after_clear hgap, after_clear hkey, after_cons,
    toggle_of_ne (by decide)]
  exact (p.written.free (by decide) (by decide)).2.2

/-- Where a parameter may begin: at the beginning, or behind a semicolon that does not
stand between quotes. -/
def Begins (front : List UInt8) : Prop :=
  front = [] ∨ ∃ before, front = before ++ [semicolon] ∧ after quote false before = false

theorem Begins.outside (h : Begins front) : after quote false front = false := by
  rcases h with rfl | ⟨before, rfl, hbefore⟩
  · rfl
  · rw [after_append, hbefore]
    rfl

theorem lead_begins (hlead : ∀ type ∈ lead, quote ∉ type) : Begins (leadText lead) := by
  cases lead with
  | none => exact .inl rfl
  | some type => exact .inr ⟨type, rfl, after_clear (hlead type rfl) false⟩

theorem params_text_cons (p : Parameter) (params : List Parameter) :
    ∃ rest, paramsText (p :: params) = p.text ++ rest ∧
      (rest = [] ∨ params ≠ [] ∧ rest = semicolon :: paramsText params) := by
  cases params with
  | nil => exact ⟨[], by simp [paramsText], .inl rfl⟩
  | cons p' params =>
    exact ⟨semicolon :: paramsText (p' :: params),
      by simp [paramsText, List.intercalate_cons_cons], .inr ⟨by simp, rfl⟩⟩

/-- A parameter that is found stands where it is said to. -/
theorem find_parameter (hfront : Begins front)
    (hfind : findParameter name front.length params = some (n, p)) :
    p.key = name ∧ ∃ front' tail, front ++ paramsText params = front' ++ p.text ++ tail ∧
      front'.length = n ∧ Begins front' ∧ (tail = [] ∨ tail.head? = some semicolon) := by
  induction params generalizing front with
  | nil => cases hfind
  | cons p' params ih =>
    rw [findParameter] at hfind
    split at hfind
    · rename_i hkey
      obtain ⟨rfl, rfl⟩ := Prod.mk.inj (Option.some.inj hfind)
      obtain ⟨rest, hrest, hends⟩ := params_text_cons p' params
      refine ⟨hkey, front, rest, by rw [hrest, List.append_assoc], rfl, hfront, hends.imp_right ?_⟩
      rintro ⟨-, rfl⟩
      rfl
    · cases params with
      | nil => cases hfind
      | cons p'' params =>
        have hbegins : Begins (front ++ p'.text ++ [semicolon]) := by
          refine .inr ⟨_, rfl, ?_⟩
          rw [after_append, hfront.outside, p'.balanced]
        have hlength : front.length + p'.text.length + 1 =
            (front ++ p'.text ++ [semicolon]).length := by simp [Nat.add_assoc]
        have hjoin : front ++ paramsText (p' :: p'' :: params) =
            front ++ p'.text ++ [semicolon] ++ paramsText (p'' :: params) := by
          simp [paramsText, List.intercalate_cons_cons]
        rw [hlength] at hfind
        rw [hjoin]
        exact ih hbegins hfind

/-- What `find_sub_value` should find: where the value of the parameter stands. -/
def Parameter.range (found : Nat × Parameter) : SubValue :=
  ⟨some (found.1 + found.2.valuePlace), found.2.value.length⟩

/-- The name is first met, outside of quotes, as the key of the parameter with exactly
that key. Where no parameter has it, it is met nowhere outside of quotes. -/
def FirstIsKey (text name : List UInt8) (found : Option (Nat × Parameter)) : Prop :=
  ∀ i, First quote name text i ↔ ∃ f ∈ found, i = f.1 + f.2.gap.length

theorem value_at_key (hsplit : text = front ++ p.text ++ tail)
    (hends : tail = [] ∨ tail.head? = some semicolon)
    (hfirst : First quote p.key text (front.length + p.gap.length)) :
    ValueAt p.key equals semicolon text (front ++ p.gap) [] (p.q ++ p.value ++ p.q) tail := by
  obtain ⟨hlast, hfree, hafter⟩ := p.written.free (by decide) (by decide)
  refine ⟨?_, by rwa [List.length_append], rfl, hlast, ?_, ?_⟩
  · rw [hsplit, Parameter.text]
    simp
  · rw [List.nil_append, free_cons, toggle_of_ne (by decide)]
    exact ⟨fun _ => by decide, hfree⟩
  · exact hends.imp_right fun hhead => ⟨hhead, hafter⟩

theorem sub_value_key (hne : p.key ≠ []) (hlen : text.length < npos)
    (hsplit : text = front ++ p.text ++ tail) (hends : tail = [] ∨ tail.head? = some semicolon)
    (hfirst : First quote p.key text (front.length + p.gap.length)) :
    findSubValue text text.length p.key equals semicolon =
      some (some (Parameter.range (front.length, p))) := by
  have hat := value_at_key hsplit hends hfirst
  have hdrop : text.drop ((front ++ p.gap).length + p.key.length + ([] : List UInt8).length + 1) =
      [] ++ p.q ++ p.value ++ p.q ++ tail := by
    have hs : text = (front ++ p.gap ++ p.key ++ [] ++ [equals]) ++
        ([] ++ p.q ++ p.value ++ p.q ++ tail) := by
      rw [hsplit, Parameter.text]
      simp
    have hplace : (front ++ p.gap).length + p.key.length + ([] : List UInt8).length + 1 =
        (front ++ p.gap ++ p.key ++ [] ++ [equals]).length := by
      simp only [List.length_append, List.length_singleton]
    rw [hplace, hs, List.drop_left]
  have hvalue : p.value.length < 2 ^ 64 := by
    rw [hsplit, Parameter.text] at hlen
    simp only [List.length_append, List.length_cons, npos] at hlen
    omega
  have htrim := trim_written (by simp) p.written hvalue hdrop
  have hplace : (front ++ p.gap).length + p.key.length + ([] : List UInt8).length + 1 +
      ([] ++ p.q ++ p.value ++ p.q).length - 1 = (front ++ p.gap).length + p.key.length +
        ([] : List UInt8).length + (p.q ++ p.value ++ p.q).length := by
    rw [List.nil_append]
    omega
  rw [hplace] at htrim
  rw [sub_value_at hne (by decide) (by decide) (by decide) hlen hat, htrim]
  simp only [Option.map_some, Parameter.range, Parameter.valuePlace, List.nil_append,
    List.length_append, List.length_nil, Nat.add_zero, Nat.add_assoc]

theorem prefix_get (h : name <+: text.drop j) (hi : i < name.length) :
    text[j + i]? = name[i]? := by
  obtain ⟨rest, hrest⟩ := h
  rw [← List.getElem?_drop, ← hrest, List.getElem?_append_left hi]

/-- A name that is met in front of a key is met in front of the semicolon before it. -/
theorem met_before (hfront : Begins front) (hsplit : text = front ++ gap ++ rest)
    (hgap : ∀ c ∈ gap, c = space) (hne : name ≠ []) (hclear : semicolon ∉ name)
    (hstart : name.head? ≠ some space) (hmet : name <+: text.drop j)
    (hj : j < front.length + gap.length) : ∃ before, front = before ++ [semicolon] ∧
      after quote false before = false ∧ j + name.length ≤ before.length := by
  have hpos := List.length_pos_of_ne_nil hne
  have hhead := prefix_get hmet hpos
  rw [Nat.add_zero, ← List.head?_eq_getElem?] at hhead
  have hnotGap : ¬ front.length ≤ j := by
    intro hle
    have hlt : j - front.length < gap.length := by omega
    have hspace : text[j]? = some space := by
      rw [hsplit, List.append_assoc, List.getElem?_append_right hle, List.getElem?_append_left hlt,
        List.getElem?_eq_getElem hlt, hgap _ (List.getElem_mem hlt)]
    exact hstart (hhead.symm.trans hspace)
  rcases hfront with rfl | ⟨before, rfl, hbefore⟩
  · exact absurd (Nat.zero_le j) hnotGap
  · refine ⟨before, rfl, hbefore, Nat.le_of_not_lt fun hlt => hclear ?_⟩
    rw [List.length_append, List.length_singleton] at hnotGap
    have hplace : j + (before.length - j) = before.length := by omega
    have hsemicolon : text[before.length]? = some semicolon := by
      rw [hsplit]
      simp
    have hmem := prefix_get hmet (show before.length - j < name.length by omega)
    rw [hplace, hsemicolon] at hmem
    exact List.mem_of_getElem? hmem.symm

/-- The range of a parameter's value is found only if its key is met first. -/
theorem key_of_range (hfront : Begins front) (hsplit : text = front ++ p.text ++ tail)
    (hne : p.key ≠ []) (hlen : text.length < npos)
    (hfound : findSubValue text text.length p.key equals semicolon =
      some (some (Parameter.range (front.length, p)))) :
    First quote p.key text (front.length + p.gap.length) := by
  have hfinding : Finding p.key equals semicolon text
      (findSubValue text text.length p.key equals semicolon) :=
    finding hne (by decide) (by decide) (by decide) hlen
  generalize findSubValue text text.length p.key equals semicolon = result at hfound hfinding
  have hquote : ∀ c ∈ p.key, c ≠ quote := fun c hc he => p.key_clear c hc (by simp [he])
  have hsemicolon : semicolon ∉ p.key := fun hc => p.key_clear semicolon hc (by simp)
  have hgap : ∀ c ∈ p.gap, c = space := p.gap_spaces
  have hrest : text = front ++ p.gap ++ (p.key ++ equals :: (p.q ++ p.value ++ p.q) ++ tail) := by
    rw [hsplit, Parameter.text]
    simp
  cases hfinding with
  | nothing => cases hfound
  | bare => cases hfound
  | value front₁ between value tail₁ hat =>
    obtain ⟨v, hv, hrange⟩ := Option.map_eq_some_iff.mp hfound
    obtain rfl := Option.some.inj hrange
    have hkey : Occurs quote p.key text (front.length + p.gap.length) := by
      refine ⟨?_, ?_, fun hhead => ?_⟩
      · rw [hrest, ← List.length_append, List.take_left, after_append, hfront.outside]
        exact after_clear (fun hc => absurd (hgap quote hc) (by decide)) false
      · rw [hrest, ← List.length_append, List.drop_left, List.append_assoc]
        exact List.prefix_append _ _
      · exact hquote quote (List.mem_of_head? hhead) rfl
    have hle : front₁.length ≤ front.length + p.gap.length :=
      Nat.le_of_not_lt fun hlt => hat.first.2 _ hlt hkey
    rcases Nat.eq_or_lt_of_le hle with heq | hlt
    · rw [← heq]
      exact hat.first
    · exfalso
      obtain ⟨before, rfl, hbefore, hin⟩ := met_before hfront hrest hgap hne hsemicolon p.key_start
        hat.first.1.2.1 hlt
      have hsplit₁ := hat.split
      have hpieces : before ++ semicolon :: (p.text ++ tail) =
          front₁ ++ p.key ++ (between ++ equals :: value ++ tail₁) := by
        rw [← hsplit₁, hsplit]
        simp
      have hpassed : front₁ ++ p.key <+: text := ⟨_, hsplit₁.symm⟩
      have hfirst : before <+: text := ⟨semicolon :: (p.text ++ tail), by rw [hpieces, ← hsplit₁]⟩
      obtain ⟨w, rfl⟩ := List.prefix_of_prefix_length_le hpassed hfirst (by simpa using hin)
      rw [List.append_assoc, List.append_cancel_left_eq] at hpieces
      have hw : after quote false w = false := by
        have hout := hat.first.1.1
        rw [hsplit₁, List.append_assoc, List.take_left] at hout
        rw [after_append, after_append, hout, after_clear fun hc => hquote quote hc rfl] at hbefore
        exact hbefore
      -- the loop stops at the semicolon in front of the parameter, or before it
      have hstop : (between ++ equals :: value).length ≤ w.length := by
        refine Nat.le_of_not_lt fun hlonger => ?_
        have hw₁ : w ++ [semicolon] <+: w ++ semicolon :: (p.text ++ tail) :=
          ⟨p.text ++ tail, by simp⟩
        have hw₂ : between ++ equals :: value <+: w ++ semicolon :: (p.text ++ tail) :=
          ⟨tail₁, hpieces.symm⟩
        obtain ⟨more, hmore⟩ := List.prefix_of_prefix_length_le hw₁ hw₂
          (by rw [List.length_append]; exact hlonger)
        have hfree := hat.free
        rw [← hmore, List.append_assoc, free_append, hw] at hfree
        exact hfree.2.1 rfl rfl
      have htail : tail₁ ≠ [] := by
        rintro rfl
        have hlength := congrArg List.length hpieces
        simp only [List.length_append, List.length_cons, List.length_nil] at hlength hstop
        omega
      have hhead := (hat.ends.resolve_left htail).1
      have hs : text = front₁ ++ p.key ++ between ++ equals :: (value ++ tail₁) := by
        rw [hsplit₁]
        simp
      have hstart := trim_start_le (by decide) ⟨semicolon, hhead, by decide⟩ hs
        (by simpa only [List.length_append] using hv) _ rfl
      simp only [List.length_append, List.length_cons, List.length_nil, Parameter.valuePlace]
        at hstart hstop
      omega

/-- The value of the parameter with exactly this key is found, whatever stands behind the
text, and a string takes it over. Without such a parameter nothing is found. -/
def FindsParameter (lead : Option (List UInt8)) (params : List Parameter) (name : List UInt8) :
    Prop :=
  let text := leadText lead ++ paramsText params
  let found := findParameter name (leadText lead).length params
  ∀ behind, findSubValue (text ++ behind) text.length name equals semicolon =
      some (found.map Parameter.range) ∧
    ∀ old, text.length ≤ maxSize → lineValue (text ++ behind) text.length name equals old =
      .ok ((found.map fun f => f.2.value).getD old)

theorem take_parameter (hsplit : text = front ++ p.text ++ tail) (hlen : text.length ≤ maxSize)
    (behind : List UInt8) :
    takeString (text ++ behind) (Parameter.range (front.length, p)) 0 = .ok p.value := by
  have hs : text ++ behind = (front ++ p.gap ++ p.key ++ equals :: p.q) ++ p.value ++
      (p.q ++ tail ++ behind) := by
    rw [hsplit, Parameter.text]
    simp
  have hplace : front.length + p.valuePlace =
      (front ++ p.gap ++ p.key ++ equals :: p.q).length := by
    simp only [Parameter.valuePlace, List.length_append, List.length_cons]
    omega
  have hfits : ¬ maxSize - 0 < (Parameter.range (front.length, p)).resultSize := by
    change ¬ maxSize - 0 < p.value.length
    rw [hsplit, Parameter.text] at hlen
    simp only [List.length_append, List.length_cons] at hlen
    omega
  rw [takeString, if_neg hfits]
  change orOutside (read (text ++ behind) (front.length + p.valuePlace) p.value.length) = _
  rw [hplace, hs, read_at]
  rfl

/-- The value of a parameter is found under its name exactly if the name is first met,
outside of quotes, as the key. -/
theorem finds_parameter_iff (hlead : ∀ type ∈ lead, quote ∉ type) (hne : name ≠ [])
    (hlen : (leadText lead ++ paramsText params).length < npos) :
    FindsParameter lead params name ↔ FirstIsKey (leadText lead ++ paramsText params) name
      (findParameter name (leadText lead).length params) := by
  have hfront := lead_begins hlead
  have hstands : ∀ n p, findParameter name (leadText lead).length params = some (n, p) → _ :=
    fun n p => find_parameter hfront
  rw [FindsParameter]
  generalize leadText lead ++ paramsText params = text at *
  generalize findParameter name (leadText lead).length params = found at *
  have hfinding : Finding name equals semicolon text
      (findSubValue text text.length name equals semicolon) :=
    finding hne (by decide) (by decide) (by decide) hlen
  cases found with
  | none =>
    constructor
    · intro hfinds i
      have halone := (hfinds []).1
      rw [List.append_nil] at halone
      rw [halone] at hfinding
      refine ⟨fun hfirst => ?_, fun ⟨f, hf, _⟩ => by cases hf⟩
      generalize hresult : (some (Option.map Parameter.range none) : Option (Option SubValue)) =
        result at hfinding
      cases hfinding with
      | nothing hno => exact absurd hfirst.1 (hno i)
      | bare => cases hresult
      | value =>
        obtain ⟨v, -, hv⟩ := Option.map_eq_some_iff.mp hresult.symm
        cases hv
    · intro hkey behind
      have hno : ∀ i, ¬ Occurs quote name text i := by
        intro i hi
        obtain ⟨k, hfirst⟩ := exists_first hi
        obtain ⟨f, hf, -⟩ := (hkey k).mp hfirst
        cases hf
      have halone : findSubValue text text.length name equals semicolon = some none :=
        sub_value_nothing hne hlen hno
      have hnothing := sub_value_more (Nat.ne_of_lt hlen) halone behind
      refine ⟨hnothing, fun old _ => ?_⟩
      rw [lineValue, hnothing]
      rfl
  | some f =>
    obtain ⟨n, p⟩ := f
    obtain ⟨rfl, front, tail, hsplit, rfl, hbegins, hends⟩ := hstands n p rfl
    constructor
    · intro hfinds i
      have halone := (hfinds []).1
      rw [List.append_nil] at halone
      have hfirst := key_of_range hbegins hsplit hne hlen halone
      refine ⟨fun hi => ⟨_, rfl, hi.unique hfirst⟩, ?_⟩
      rintro ⟨f, hf, rfl⟩
      cases hf
      exact hfirst
    · intro hkey behind
      have hfirst := (hkey _).mpr ⟨_, rfl, rfl⟩
      have hrange := sub_value_more (Nat.ne_of_lt hlen)
        (sub_value_key hne hlen hsplit hends hfirst) behind
      refine ⟨hrange, fun old hmax => ?_⟩
      rw [lineValue, hrange]
      exact take_parameter hsplit hmax behind

/-- A parameter with its value between quotes, behind a space. -/
def quotedParameter (key value : List UInt8) (hkey : ∀ c ∈ key, c ∉ [quote, equals, semicolon])
    (hstart : key.head? ≠ some space) (hvalue : quote ∉ value) : Parameter where
  gap := [space]
  key := key
  q := [quote]
  value := value
  gap_spaces := by simp
  key_clear := hkey
  key_start := hstart
  written := .quoted hvalue

def nameParameter : Parameter :=
  quotedParameter (ascii "name") (ascii "b") (by decide +kernel) (by decide) (by decide)

def filenameParameter : Parameter :=
  quotedParameter (ascii "filename") (ascii "a") (by decide +kernel) (by decide) (by decide)

def disposition : Option (List UInt8) := some (ascii "Content-Disposition: form-data")

theorem name_before_filename :
    FindsParameter disposition [nameParameter, filenameParameter] (ascii "name") := by
  have hfirst : First quote (ascii "name")
      (leadText disposition ++ paramsText [nameParameter, filenameParameter]) 32 := by
    decide +kernel
  have hfound : findParameter (ascii "name") (leadText disposition).length
      [nameParameter, filenameParameter] = some (31, nameParameter) := rfl
  refine (finds_parameter_iff ?_ (by decide) (by decide +kernel)).mpr fun i => ?_
  · rintro type htype
    rw [← Option.some.inj htype]
    decide +kernel
  · rw [hfound]
    refine ⟨fun hi => ⟨_, rfl, hi.unique hfirst⟩, ?_⟩
    rintro ⟨f, hf, rfl⟩
    cases hf
    exact hfirst

/-- With the file's name in front of it the name is not found. -/
theorem filename_before_name : ¬ ∀ (lead : Option (List UInt8)) (params : List Parameter)
    (name : List UInt8), (∀ type ∈ lead, quote ∉ type) → name ≠ [] →
    (leadText lead ++ paramsText params).length < npos → FindsParameter lead params name := by
  intro h
  have hfinds := h none [filenameParameter, nameParameter] (ascii "name") (by simp) (by decide)
    (by decide +kernel) []
  have hfound : findSubValue (leadText none ++ paramsText [filenameParameter, nameParameter] ++ [])
      (leadText none ++ paramsText [filenameParameter, nameParameter]).length (ascii "name")
      equals semicolon = some (some ⟨some 11, 1⟩) := by decide +kernel
  have hsame := hfound.symm.trans hfinds.1
  exact absurd hsame (by decide +kernel)

end Khorost
