import Khorost.Proofs.View

namespace Khorost

/-- A pair as it is written: a key alone, or with a value. -/
def pairText (p : List UInt8 × Option (List UInt8)) : List UInt8 :=
  match p.2 with
  | none => p.1
  | some value => p.1 ++ equals :: value

def joinPairs (div : UInt8) (pairs : List (List UInt8 × Option (List UInt8))) : List UInt8 :=
  [div].intercalate (pairs.map pairText)

/-- What a pair may be made of: a key that is trimmed does not begin with a space. -/
structure Writable (div : UInt8) (trim : Bool) (p : List UInt8 × Option (List UInt8)) : Prop where
  key_clear : ∀ c ∈ p.1, c ∉ [div, equals, nul]
  key_start : trim = true → p.1.head? ≠ some space
  value_clear : ∀ value ∈ p.2, ∀ c ∈ value, c ∉ [div, nul]

theorem c_str_append (s rest : List UInt8) : cStr (s ++ nul :: rest) = cStr s := by
  induction s with
  | nil => rfl
  | cons c s ih =>
    by_cases hc : c = nul
    · rw [hc]
      rfl
    · simpa [cStr, hc] using ih

theorem trimmed_shift (trim : Bool) (before done : List UInt8) (k : Nat) :
    trimmed trim (before ++ done) (before.length + k) = before.length + trimmed trim done k := by
  unfold trimmed
  split
  · rw [← List.drop_drop, List.drop_left, Nat.add_assoc]
  · rfl

/-- A text is split in the same way wherever it stands. -/
theorem split_text_shift (div : UInt8) (trim : Bool) (rest before done : List UInt8) (k : Nat)
    (v : Option Nat) :
    splitText div trim rest (before ++ done) (before.length + k) (v.map (before.length + ·)) =
      (before ++ (splitText div trim rest done k v).1,
        (splitText div trim rest done k v).2.map (movePair before.length)) := by
  induction rest generalizing done k v with
  | nil => simp [splitText, trimmed_shift, movePair]
  | cons c rest ih =>
    have hlength : (before ++ done).length + 1 = before.length + (done.length + 1) := by
      rw [List.length_append, Nat.add_assoc]
    simp only [splitText]
    split
    · have hnext := ih (done ++ [nul]) (done.length + 1) none
      rw [Option.map_none, ← List.append_assoc, ← hlength] at hnext
      rw [hnext]
      simp [trimmed_shift, movePair]
    · split
      · have hnext := ih (done ++ [nul]) k (some (done.length + 1))
        rw [Option.map_some, ← List.append_assoc, ← hlength] at hnext
        exact hnext
      · have hnext := ih (done ++ [c]) k v
        rw [← List.append_assoc] at hnext
        exact hnext

theorem split_text_join (div : UInt8) (trim : Bool) (a b done : List UInt8) (k : Nat)
    (v : Option Nat) :
    splitText div trim (a ++ div :: b) done k v =
      ((splitText div trim a done k v).1 ++ nul :: (splitText div trim b [] 0 none).1,
        (splitText div trim a done k v).2 ++ (splitText div trim b [] 0 none).2.map
          (movePair ((splitText div trim a done k v).1.length + 1))) := by
  induction a generalizing done k v with
  | nil =>
    have hshift := split_text_shift div trim b (done ++ [nul]) [] 0 none
    rw [List.append_nil, Nat.add_zero, Option.map_none, List.length_append,
      List.length_singleton] at hshift
    simp [splitText, hshift]
  | cons c a ih =>
    simp only [splitText, List.cons_append]
    split
    · rw [ih]
      simp
    · split
      · rw [ih]
      · rw [ih]

/-- The strings that the positions of a pair lead to in a text. -/
def readPair (text : List UInt8) (p : Nat × Option Nat) : List UInt8 × Option (List UInt8) :=
  (cStr (text.drop p.1), p.2.map (fun i => cStr (text.drop i)))

theorem read_pair_append (text rest : List UInt8) (p : Nat × Option Nat)
    (hk : p.1 ≤ text.length) (hv : ∀ i ∈ p.2, i ≤ text.length) :
    readPair (text ++ nul :: rest) p = readPair text p := by
  obtain ⟨k, v⟩ := p
  have hdrop : ∀ i ≤ text.length, cStr ((text ++ nul :: rest).drop i) = cStr (text.drop i) := by
    intro i hi
    rw [List.drop_append_of_le_length hi, c_str_append]
  cases v with
  | none => simp only [readPair, hdrop k hk, Option.map_none]
  | some i => simp only [readPair, hdrop k hk, Option.map_some, hdrop i (hv i rfl)]

theorem read_pair_behind (before text : List UInt8) (p : Nat × Option Nat) :
    readPair (before ++ text) (movePair before.length p) = readPair text p := by
  obtain ⟨k, v⟩ := p
  have hdrop : ∀ i, (before ++ text).drop (before.length + i) = text.drop i := by
    intro i
    rw [← List.drop_drop, List.drop_left]
  cases v with
  | none => simp only [readPair, movePair, hdrop, Option.map_none]
  | some i => simp only [readPair, movePair, hdrop, Option.map_some]

theorem pairs_of_eq (div : UInt8) (trim : Bool) (text : List UInt8) : pairsOf div trim text =
    (splitText div trim text [] 0 none).2.map (readPair (splitText div trim text [] 0 none).1) := rfl

/-- The pairs of two texts with a divider between them. -/
theorem pairs_of_join (div : UInt8) (trim : Bool) (a b : List UInt8) :
    pairsOf div trim (a ++ div :: b) = pairsOf div trim a ++ pairsOf div trim b := by
  have hbounds := split_text_bounds div trim a [] 0 none (Nat.le_refl 0) (by simp)
  have hlength := split_text_length div trim a [] 0 none
  simp only [pairs_of_eq, split_text_join, List.map_append, List.map_map]
  congr 1
  · refine List.map_congr_left fun p hp => ?_
    obtain ⟨hk, hv⟩ := hbounds p hp
    rw [← hlength] at hk hv
    exact read_pair_append _ _ p hk hv
  · refine List.map_congr_left fun p _ => ?_
    have hbehind := read_pair_behind ((splitText div trim a [] 0 none).1 ++ [nul])
      (splitText div trim b [] 0 none).1 p
    rw [List.length_append, List.length_singleton, List.append_assoc] at hbehind
    exact hbehind

/-- What is neither a divider nor an equals sign is gone through unchanged. -/
theorem split_text_clear (div : UInt8) (trim : Bool) (x rest done : List UInt8) (k : Nat)
    (v : Option Nat) (hx : ∀ c ∈ x, c ≠ div ∧ c ≠ equals) :
    splitText div trim (x ++ rest) done k v = splitText div trim rest (done ++ x) k v := by
  induction x generalizing done with
  | nil => rw [List.nil_append, List.append_nil]
  | cons c x ih =>
    obtain ⟨hdiv, heq⟩ := hx c List.mem_cons_self
    rw [List.cons_append, splitText, if_neg hdiv, if_neg heq,
      ih _ fun c' hc' => hx c' (List.mem_cons_of_mem c hc'), List.append_assoc,
      List.singleton_append]

/-- A key that is trimmed has nothing in front of it that would be trimmed. -/
theorem trimmed_start (text : List UInt8) (h : trim = true → text.head? ≠ some space) :
    trimmed trim text 0 = 0 := by
  unfold trimmed
  split
  · rename_i ht
    cases text with
    | nil => rfl
    | cons c text =>
      have hc : c ≠ space := fun he => h ht (by rw [he]; rfl)
      rw [List.drop_zero, List.takeWhile_cons_of_neg (by simpa using hc), List.length_nil]
  · rfl

/-- A single pair whose value has no equals sign is found as it was written. -/
theorem pairs_of_pair (hp : Writable div trim p) (hdiv : div ≠ equals)
    (hplain : ∀ value ∈ p.2, equals ∉ value) : pairsOf div trim (pairText p) = [p] := by
  obtain ⟨key, value⟩ := p
  obtain ⟨hkey, hstart, hvalue⟩ := hp
  have hkey' : ∀ c ∈ key, c ≠ div ∧ c ≠ equals := by
    intro c hc
    have hclear := hkey c hc
    simp only [List.mem_cons, not_or] at hclear
    exact ⟨hclear.1, hclear.2.1⟩
  have hnul : nul ∉ key := fun hc => hkey nul hc (by simp)
  cases value with
  | none =>
    have hsplit := split_text_clear div trim key [] [] 0 none hkey'
    rw [List.append_nil, List.nil_append, splitText, trimmed_start key hstart] at hsplit
    rw [pairText, pairs_of_eq, hsplit]
    simp [readPair, c_str_self hnul]
  | some value =>
    have hvalue' : ∀ c ∈ value, c ≠ div ∧ c ≠ equals := by
      intro c hc
      exact ⟨fun he => hvalue value rfl c hc (by simp [he]),
        fun he => hplain value rfl (he ▸ hc)⟩
    have hnul' : nul ∉ value := fun hc => hvalue value rfl nul hc (by simp)
    have hhead : trim = true → (key ++ nul :: value).head? ≠ some space := by
      intro ht he
      cases key with
      | nil => cases he
      | cons c key => exact hstart ht he
    have hsplit := split_text_clear div trim key (equals :: value) [] 0 none hkey'
    have hsplit' := split_text_clear div trim value [] (key ++ [nul]) 0 (some (key.length + 1))
      hvalue'
    rw [List.append_nil, splitText, List.append_assoc, List.singleton_append,
      trimmed_start _ hhead] at hsplit'
    rw [List.nil_append, splitText, if_neg (Ne.symm hdiv), if_pos rfl, hsplit'] at hsplit
    rw [pairText, pairs_of_eq, hsplit]
    simp only [List.map_cons, List.map_nil, readPair, List.drop_zero, Option.map_some]
    rw [c_str_terminated hnul, ← List.drop_drop, List.drop_left, List.drop_one, List.tail_cons,
      c_str_self hnul']

/-- Pairs whose values have no equals sign are found as they were written. -/
theorem pairs_of_pairs (hdiv : div ≠ equals) (hne : pairs ≠ [])
    (hp : ∀ p ∈ pairs, Writable div trim p) (hplain : ∀ p ∈ pairs, ∀ value ∈ p.2, equals ∉ value) :
    pairsOf div trim (joinPairs div pairs) = pairs := by
  induction pairs with
  | nil => exact absurd rfl hne
  | cons p pairs ih =>
    obtain ⟨hfirst, hps⟩ := List.forall_mem_cons.mp hp
    obtain ⟨hv, hvs⟩ := List.forall_mem_cons.mp hplain
    cases pairs with
    | nil =>
      rw [joinPairs, List.map_singleton, List.intercalate_singleton, pairs_of_pair hfirst hdiv hv]
    | cons p' pairs =>
      have hjoin : joinPairs div (p :: p' :: pairs) =
          pairText p ++ div :: joinPairs div (p' :: pairs) := by
        simp [joinPairs, List.intercalate_cons_cons]
      rw [hjoin, pairs_of_join, pairs_of_pair hfirst hdiv hv, ih (by simp) hps hvs]
      rfl

/-- Nothing that `parse_string` finds has an equals sign in it. -/
theorem split_text_plain (div : UInt8) (trim : Bool) (rest done : List UInt8) (k : Nat)
    (v : Option Nat) (hdone : equals ∉ done) : equals ∉ (splitText div trim rest done k v).1 := by
  induction rest generalizing done k v with
  | nil => exact hdone
  | cons c rest ih =>
    have hnul : equals ∉ done ++ [nul] := by
      rw [List.mem_append, List.mem_singleton, not_or]
      exact ⟨hdone, by decide⟩
    simp only [splitText]
    split
    · exact ih _ _ _ hnul
    · split
      · exact ih _ _ _ hnul
      · rename_i hc
        refine ih _ _ _ ?_
        rw [List.mem_append, List.mem_singleton, not_or]
        exact ⟨hdone, Ne.symm hc⟩

theorem pairs_of_plain (hp : p ∈ pairsOf div trim text) : ∀ value ∈ p.2, equals ∉ value := by
  rw [pairs_of_eq] at hp
  obtain ⟨⟨k, v⟩, -, rfl⟩ := List.mem_map.mp hp
  intro value hvalue hin
  obtain ⟨i, -, rfl⟩ := Option.map_eq_some_iff.mp (Option.mem_def.mp hvalue)
  refine split_text_plain div trim text [] 0 none (by simp) ?_
  exact List.mem_of_mem_drop ((List.takeWhile_sublist _).subset hin)

theorem pairs_of_nonempty (div : UInt8) (trim : Bool) (text : List UInt8) :
    pairsOf div trim text ≠ [] := by
  rw [pairs_of_eq, ne_eq, List.map_eq_nil_iff]
  generalize [] = done
  generalize 0 = k
  generalize none = v
  induction text generalizing done k v with
  | nil => simp [splitText]
  | cons c text ih =>
    simp only [splitText]
    split
    · simp
    · split
      · exact ih _ _ _
      · exact ih _ _ _

theorem join_pairs_clear (hnul : div ≠ nul) (hp : ∀ p ∈ pairs, Writable div trim p) :
    nul ∉ joinPairs div pairs := by
  have hpair : ∀ p, Writable div trim p → nul ∉ pairText p := by
    rintro ⟨key, value⟩ ⟨hkey, -, hvalue⟩ hin
    cases value with
    | none => exact hkey nul hin (by simp)
    | some value =>
      rcases List.mem_append.mp hin with hin | hin
      · exact hkey nul hin (by simp)
      · rcases List.mem_cons.mp hin with he | hin
        · exact absurd he (by decide)
        · exact hvalue value rfl nul hin (by simp)
  induction pairs with
  | nil => simp [joinPairs]
  | cons p pairs ih =>
    obtain ⟨hfirst, hps⟩ := List.forall_mem_cons.mp hp
    cases pairs with
    | nil =>
      rw [joinPairs, List.map_singleton, List.intercalate_singleton]
      exact hpair p hfirst
    | cons p' pairs =>
      have hjoin : joinPairs div (p :: p' :: pairs) =
          pairText p ++ div :: joinPairs div (p' :: pairs) := by
        simp [joinPairs, List.intercalate_cons_cons]
      rw [hjoin, List.mem_append, List.mem_cons, not_or, not_or]
      exact ⟨hpair p hfirst, Ne.symm hnul, ih hps⟩

theorem ShowsPair.read_pair (h : ShowsPair content p s) : readPair content p = s := by
  obtain ⟨k, v⟩ := p
  obtain ⟨name, value⟩ := s
  obtain ⟨hname, hvalue⟩ := h
  have hread : ∀ {i text}, StrAt content i text → cStr (content.drop i) = text := by
    intro i text hi
    have hstr := hi.read []
    rwa [List.append_nil] at hstr
  dsimp only at hname hvalue
  cases hvalue with
  | none => rw [readPair, hread hname, Option.map_none]
  | some hvalue => rw [readPair, hread hname, Option.map_some, hread hvalue]

theorem shows_pairs_read (h : List.Forall₂ (ShowsPair content) refs pairs) :
    refs.map (readPair content) = pairs := by
  induction h with
  | nil => rfl
  | cons hfirst _ ih => rw [List.map_cons, hfirst.read_pair, ih]

/-- The pairs that `parse_string` has found, and what is looked up among them. -/
structure PairsShown (b : AutoBuffer UInt8) (refs : ListPairs)
    (pairs : List (List UInt8 × Option (List UInt8))) : Prop where
  shows : List.Forall₂ (ShowsPair b.buffer) refs pairs
  get_cookie : ∀ h : HttpHeader, h.abHeader = b → h.cookies = refs →
    ∀ key defaultValue, h.getCookie key defaultValue = lookupPair pairs key defaultValue
  get_parameter : ∀ h : HttpHeader, h.abParams = b → h.paramsValue = refs →
    ∀ key defaultValue, h.getParameter key defaultValue = lookupPair pairs key defaultValue

theorem pairs_shown (h : List.Forall₂ (ShowsPair b.buffer) refs pairs) :
    PairsShown b refs pairs := by
  -- the lookups read the allocation, however much of it counts as filled
  let whole : AutoBuffer UInt8 := ⟨b.buffer, b.buffer.length, b.fresh, Nat.le_refl _⟩
  have hwhole : List.Forall₂ (ShowsPair whole.content) refs pairs := by
    rw [AutoBuffer.content, List.take_length]
    exact h
  have hfind := fun key defaultValue => find_pair whole key defaultValue hwhole
  refine ⟨h, ?_, ?_⟩
  · rintro header rfl rfl key defaultValue
    exact hfind key defaultValue
  · rintro header rfl rfl key defaultValue
    exact hfind key defaultValue

/-- The splitter finds the pairs of the text, wherever it stands. -/
theorem pairs_shown_iff (hclear : nul ∉ text) (b : AutoBuffer UInt8)
    (hb : b.buffer = before ++ text ++ nul :: after) (hsize : text.length < size)
    (target : ListPairs) :
    (∃ b' refs, parseString b size before.length target div trim = some (b', target ++ refs) ∧
      PairsShown b' refs pairs) ↔ pairsOf div trim text = pairs := by
  obtain ⟨b', refs, he, hb', -, hshows⟩ := parse_string_text div trim b before text after hb hclear
    size hsize target
  have hfound := hshows after
  rw [← hb'] at hfound
  constructor
  · rintro ⟨b'', refs', he', hshown⟩
    obtain ⟨rfl, hrefs⟩ := Prod.mk.inj (Option.some.inj (he.symm.trans he'))
    obtain rfl := List.append_cancel_left hrefs
    rw [← shows_pairs_read hfound, shows_pairs_read hshown.shows]
  · rintro rfl
    exact ⟨b', refs, he, pairs_shown hfound⟩

/-- Pairs that are joined by a divider and split again come back, and with them
every cookie and every parameter, if and only if there are some and no value has
an equals sign in it. -/
theorem pairs_kept_iff (hdiv : div ≠ equals) (hnul : div ≠ nul)
    (hp : ∀ p ∈ pairs, Writable div trim p) (b : AutoBuffer UInt8)
    (hb : b.buffer = before ++ joinPairs div pairs ++ nul :: after)
    (hsize : (joinPairs div pairs).length < size) (target : ListPairs) :
    (∃ b' refs, parseString b size before.length target div trim = some (b', target ++ refs) ∧
      PairsShown b' refs pairs) ↔ pairs ≠ [] ∧ ∀ p ∈ pairs, ∀ value ∈ p.2, equals ∉ value := by
  rw [pairs_shown_iff (join_pairs_clear hnul hp) b hb hsize target]
  constructor
  · intro hsame
    rw [← hsame]
    exact ⟨pairs_of_nonempty div trim _, fun p hin => pairs_of_plain hin⟩
  · rintro ⟨hne, hplain⟩
    exact pairs_of_pairs hdiv hne hp hplain

/-- Two parameters, one of them without a value. -/
theorem two_pairs_kept : ∃ b' refs, parseString
      ⟨ascii "a=1&b" ++ [nul], 6, fun _ => 0, by decide⟩ 6 0 [] ampersand false =
        some (b', [] ++ refs) ∧
    PairsShown b' refs [(ascii "a", some (ascii "1")), (ascii "b", none)] := by
  have hp : ∀ p ∈ [(ascii "a", some (ascii "1")), (ascii "b", none)],
      Writable ampersand false p := by
    intro p hp
    rcases List.mem_cons.mp hp with rfl | hp
    · exact ⟨by decide +kernel, by decide, by decide +kernel⟩
    · obtain rfl := List.mem_singleton.mp hp
      exact ⟨by decide +kernel, by decide, by decide +kernel⟩
  have hkept := pairs_kept_iff (by decide) (by decide) hp
    ⟨ascii "a=1&b" ++ [nul], 6, fun _ => 0, by decide⟩
    (show _ = [] ++ _ ++ nul :: [] by decide +kernel) (show _ < 6 by decide +kernel) []
  exact hkept.mpr ⟨by simp, by decide +kernel⟩

/-- A cookie that ends with the padding of base64 is not returned. -/
theorem padding_lost : ¬ ∀ div trim pairs (b : AutoBuffer UInt8) before after size target,
    div ≠ equals → div ≠ nul → (∀ p ∈ pairs, Writable div trim p) →
    b.buffer = before ++ joinPairs div pairs ++ nul :: after →
    (joinPairs div pairs).length < size →
    ∃ b' refs, parseString b size before.length target div trim = some (b', target ++ refs) ∧
      PairsShown b' refs pairs := by
  intro h
  have hp : ∀ p ∈ [(ascii "t", some (ascii "YQ=="))], Writable semicolon true p := by
    intro p hp
    obtain rfl := List.mem_singleton.mp hp
    exact ⟨by decide +kernel, by decide +kernel, by decide +kernel⟩
  have hb : (⟨ascii "t=YQ==" ++ [nul], 7, fun _ => 0, by decide⟩ : AutoBuffer UInt8).buffer =
      [] ++ joinPairs semicolon [(ascii "t", some (ascii "YQ=="))] ++ nul :: [] := by
    decide +kernel
  have hfound := h _ _ _ _ _ _ 7 [] (by decide) (by decide) hp hb (by decide +kernel)
  rw [pairs_shown_iff (join_pairs_clear (by decide) hp) _ hb (by decide +kernel) []] at hfound
  exact absurd hfound (by decide +kernel)

end Khorost
