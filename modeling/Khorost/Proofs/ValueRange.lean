import Khorost.Lib.Quoted
import Khorost.Lib.Scan
import Khorost.Proofs.LineLoop

namespace Khorost

open Blocks Quoted

variable {source text pMatch front between value tail w rest : List UInt8} {divKV divKK : UInt8}

/-- The second loop passes over what has no `divKK` outside of quotes. -/
theorem find_value_pass (divKV : UInt8) (n : Nat) (pStart : Option Nat) {p : Nat} {inQuote : Bool}
    (hfree : Free quote divKK inQuote w) (hs : source.drop p = w ++ rest) :
    ∃ pStart', findValue source divKV divKK (w.length + n) p inQuote pStart =
        findValue source divKV divKK n (p + w.length) (after quote inQuote w) pStart' ∧
      (divKV ≠ quote → Free quote divKV inQuote w → pStart' = pStart) := by
  induction w generalizing p inQuote pStart with
  | nil => exact ⟨pStart, by rw [List.length_nil, Nat.zero_add]; rfl, fun _ _ => rfl⟩
  | cons c w ih =>
    obtain ⟨hc, hfree⟩ := hfree
    have hcount : (c :: w).length + n = w.length + n + 1 := by
      rw [List.length_cons]
      omega
    have hplace : p + (c :: w).length = p + 1 + w.length := by
      rw [List.length_cons]
      omega
    have hnext := drop_succ_of_drop hs
    rw [hcount, hplace, findValue, get_of_drop hs, after_cons]
    simp only [Option.bind_eq_bind, Option.bind_some]
    by_cases hquote : c = quote
    · subst hquote
      rw [if_pos rfl, toggle_self]
      rw [toggle_self] at hfree
      obtain ⟨pStart', he, hkeep⟩ := ih pStart hfree hnext
      refine ⟨pStart', he, fun hkv hlast => hkeep hkv ?_⟩
      have hlast := hlast.2
      rwa [toggle_self] at hlast
    · rw [toggle_of_ne hquote] at hfree ⊢
      rw [if_neg hquote]
      by_cases hkv : inQuote = false ∧ c = divKV
      · rw [if_pos hkv]
        obtain ⟨pStart', he, -⟩ := ih (some (p + 1)) hfree hnext
        exact ⟨pStart', he, fun _ hlast => absurd hkv.2 (hlast.1 hkv.1)⟩
      · rw [if_neg hkv, if_neg fun h => hc h.1 h.2]
        obtain ⟨pStart', he, hkeep⟩ := ih pStart hfree hnext
        refine ⟨pStart', he, fun hkv hlast => hkeep hkv ?_⟩
        have hlast := hlast.2
        rwa [toggle_of_ne hquote] at hlast

/-- The loop stops at the end of the source or at a `divKK`. -/
theorem find_value_stop {p : Nat} {inQuote : Bool} {pStart : Option Nat} (hkv : divKV ≠ divKK)
    (hkk : divKK ≠ quote) (hs : source.drop p = tail)
    (hends : tail = [] ∨ tail.head? = some divKK ∧ inQuote = false) :
    findValue source divKV divKK tail.length p inQuote pStart = some (p, pStart) := by
  rcases hends with rfl | ⟨hhead, rfl⟩
  · rfl
  · cases tail with
    | nil => cases hhead
    | cons c tail =>
      obtain rfl := Option.some.inj hhead
      rw [List.length_cons, findValue, get_of_drop hs]
      simp [hkk, hkv.symm]

/-- The pieces of a text in which the name is found with a value behind it: the value
stands behind the last `divKV` and goes up to the first `divKK` or the end. -/
structure ValueAt (pMatch : List UInt8) (divKV divKK : UInt8)
    (text front between value tail : List UInt8) : Prop where
  split : text = front ++ pMatch ++ (between ++ divKV :: value ++ tail)
  first : First quote pMatch text front.length
  outside : after quote false between = false
  last : Free quote divKV false value
  free : Free quote divKK false (between ++ divKV :: value)
  ends : tail = [] ∨ tail.head? = some divKK ∧ after quote false value = false

theorem find_value_at (hkv : divKV ≠ quote) (hkk : divKK ≠ quote) (hdiv : divKV ≠ divKK)
    (ha : ValueAt pMatch divKV divKK text front between value tail) :
    findValue text divKV divKK (text.length - (front.length + pMatch.length))
        (front.length + pMatch.length) false none =
      some (front.length + pMatch.length + between.length + 1 + value.length,
        some (front.length + pMatch.length + between.length + 1)) := by
  have hrest : text.drop (front.length + pMatch.length) =
      between ++ (divKV :: (value ++ tail)) := by
    rw [ha.split, ← List.length_append, List.drop_left]
    simp
  have hleft : text.length - (front.length + pMatch.length) =
      between.length + (value.length + tail.length + 1) := by
    rw [ha.split]
    simp only [List.length_append, List.length_cons]
    omega
  obtain ⟨hbetween, hvalue⟩ := (free_append quote divKK false between (divKV :: value)).mp ha.free
  rw [ha.outside] at hvalue
  have hvalue := hvalue.2
  rw [toggle_of_ne hkv] at hvalue
  have hat := drop_add_of_drop hrest
  have hbehind := drop_succ_of_drop hat
  have htail := drop_add_of_drop hbehind
  obtain ⟨start, hpass, -⟩ := find_value_pass divKV (value.length + tail.length + 1) none hbetween
    hrest
  obtain ⟨start', hpass', hkeep⟩ := find_value_pass divKV tail.length
    (some (front.length + pMatch.length + between.length + 1)) hvalue hbehind
  rw [hleft, hpass, ha.outside, find_value_separator hkv hat, hpass', hkeep hkv ha.last]
  exact find_value_stop hdiv hkk htail ha.ends

theorem match_at_first (hne : pMatch ≠ []) (hfirst : First quote pMatch text k) :
    findMatchAt text pMatch (text.length - pMatch.length + 1) 0 false = some (some k) := by
  have hbound := hfirst.1.bound hne
  have hpos := List.length_pos_of_ne_nil hne
  obtain ⟨found, hfind, hat, hbefore⟩ := find_match_spec text (p := 0)
    (n := text.length - pMatch.length + 1) hne (by omega)
    (show after quote false (text.take 0) = false from rfl)
  cases found with
  | none =>
    refine absurd hfirst.1 (hbefore k (Nat.zero_le k) ?_)
    simp only [Option.getD_none]
    omega
  | some k' =>
    have hfirst' : First quote pMatch text k' :=
      ⟨(hat k' rfl).2, fun j hj => hbefore j (Nat.zero_le j) hj⟩
    rw [hfind, hfirst.unique hfirst']

theorem sub_value_nothing (hne : pMatch ≠ []) (hlen : text.length < npos)
    (hno : ∀ i, ¬ Occurs quote pMatch text i) :
    findSubValue text text.length pMatch divKV divKK = some none := by
  have hpos := List.length_pos_of_ne_nil hne
  rw [findSubValue, if_neg (Nat.ne_of_lt hlen)]
  simp only [Option.bind_eq_bind, Option.bind_some]
  split
  · rfl
  · obtain ⟨found, hfind, hat, -⟩ := find_match_spec text (p := 0)
      (n := text.length - pMatch.length + 1) hne (by omega)
      (show after quote false (text.take 0) = false from rfl)
    rw [hfind]
    cases found with
    | none => rfl
    | some k => exact absurd (hat k rfl).2 (hno k)

theorem sub_value_at (hne : pMatch ≠ []) (hkv : divKV ≠ quote) (hkk : divKK ≠ quote)
    (hdiv : divKV ≠ divKK) (hlen : text.length < npos)
    (ha : ValueAt pMatch divKV divKK text front between value tail) :
    findSubValue text text.length pMatch divKV divKK =
      (trimValue text (front.length + pMatch.length + between.length + 1)
        (front.length + pMatch.length + between.length + value.length)).map some := by
  have hbound := ha.first.1.bound hne
  have hplace : front.length + pMatch.length + between.length + 1 + value.length - 1 =
      front.length + pMatch.length + between.length + value.length := by omega
  rw [findSubValue, if_neg (Nat.ne_of_lt hlen)]
  simp only [Option.bind_eq_bind, Option.bind_some]
  rw [if_neg (by omega), match_at_first hne ha.first]
  simp only [Option.bind_some]
  rw [find_value_at hkv hkk hdiv ha]
  simp only [Option.bind_some, hplace]

/-- What is found in a text that stands alone in its memory. -/
inductive Finding (pMatch : List UInt8) (divKV divKK : UInt8) (text : List UInt8) :
    Option (Option SubValue) → Prop
  | nothing (hno : ∀ i, ¬ Occurs quote pMatch text i) : Finding pMatch divKV divKK text (some none)
  | bare (front rest : List UInt8) (hsplit : text = front ++ pMatch ++ rest)
      (hfirst : First quote pMatch text front.length) :
      Finding pMatch divKV divKK text (some (some ⟨none, 0⟩))
  | value (front between value tail : List UInt8)
      (hat : ValueAt pMatch divKV divKK text front between value tail) :
      Finding pMatch divKV divKK text
        ((trimValue text (front.length + pMatch.length + between.length + 1)
          (front.length + pMatch.length + between.length + value.length)).map some)

/-- The decomposition of a text at the first occurrence of a name. -/
theorem finding (hne : pMatch ≠ []) (hkv : divKV ≠ quote) (hkk : divKK ≠ quote)
    (hdiv : divKV ≠ divKK) (hlen : text.length < npos) :
    Finding pMatch divKV divKK text (findSubValue text text.length pMatch divKV divKK) := by
  by_cases hno : ∀ i, ¬ Occurs quote pMatch text i
  · rw [sub_value_nothing hne hlen hno]
    exact .nothing hno
  · obtain ⟨i, hi⟩ := Classical.not_forall.mp hno
    obtain ⟨k, hfirst⟩ := exists_first (Classical.not_not.mp hi)
    have hbound := hfirst.1.bound hne
    obtain ⟨rest, hrest⟩ := hfirst.1.2.1
    have hfront : (text.take k).length = k := by
      rw [List.length_take]
      omega
    have hsplit : text = text.take k ++ pMatch ++ rest := by
      rw [List.append_assoc, hrest, List.take_append_drop]
    have hdrop : text.drop (k + pMatch.length) = rest := by
      rw [← List.drop_drop, ← hrest, List.drop_left]
    generalize text.take k = front at hsplit hfront
    subst hfront
    obtain ⟨passed, tail, rfl, hfree, hends⟩ := split_first quote divKK false rest
    rcases split_last hkv false passed with hlast | ⟨between, value, rfl, houtside, hlast⟩
    · have hleft : text.length - (front.length + pMatch.length) = passed.length + tail.length := by
        rw [hsplit]
        simp only [List.length_append]
        omega
      obtain ⟨start, hpass, hkeep⟩ := find_value_pass divKV tail.length none hfree hdrop
      rw [findSubValue, if_neg (Nat.ne_of_lt hlen)]
      simp only [Option.bind_eq_bind, Option.bind_some]
      rw [if_neg (by omega), match_at_first hne hfirst]
      simp only [Option.bind_some]
      rw [hleft, hpass, hkeep hkv hlast, find_value_stop hdiv hkk (drop_add_of_drop hdrop) hends]
      exact .bare front (passed ++ tail) hsplit hfirst
    · have hat : ValueAt pMatch divKV divKK text front between value tail := by
        refine ⟨hsplit, hfirst, houtside, hlast, hfree, ?_⟩
        rwa [after_append, houtside, after_cons, toggle_of_ne hkv] at hends
      rw [sub_value_at hne hkv hkk hdiv hlen hat]
      exact .value front between value tail hat

/-- A value is blank, or has a core between its spaces. -/
theorem blank_or_core (value : List UInt8) : (∀ c ∈ value, c = space) ∨
    ∃ gap core gap', value = gap ++ core ++ gap' ∧ (∀ c ∈ gap, c = space) ∧
      (∀ c ∈ gap', c = space) ∧ core ≠ [] ∧ core.head? ≠ some space ∧
      core.getLast? ≠ some space := by
  obtain ⟨gap, rest, rfl, hgap, hhead⟩ := Scan.lead_split space value
  obtain ⟨gap', core, hsplit, hgap', hlast⟩ := Scan.lead_split space rest.reverse
  have hrest : rest = core.reverse ++ gap'.reverse := by
    rw [← List.reverse_append, ← hsplit, List.reverse_reverse]
  by_cases hcore : core = []
  · left
    rw [hrest, hcore, List.reverse_nil, List.nil_append]
    intro c hc
    rcases List.mem_append.mp hc with hc | hc
    · exact hgap c hc
    · exact hgap' c (List.mem_reverse.mp hc)
  · right
    refine ⟨gap, core.reverse, gap'.reverse, by rw [hrest, List.append_assoc], hgap, fun c hc =>
      hgap' c (List.mem_reverse.mp hc), by simpa using hcore, ?_, ?_⟩
    · rw [hrest, List.head?_append_of_ne_nil _ (by simpa using hcore)] at hhead
      exact hhead
    · rwa [List.getLast?_reverse]

theorem spaces_at_end (hgap : ∀ c ∈ w, c = space) : spacesAt w = none := by
  induction w with
  | nil => rfl
  | cons c w ih =>
    obtain ⟨rfl, hw⟩ := List.forall_mem_cons.mp hgap
    simp [spacesAt, ih hw]

/-- Spaces are passed backwards down to something else. -/
theorem spaces_back_run {c : UInt8} {i p : Nat} (hle : i ≤ p) (hi : source[i]? = some c)
    (hc : c ≠ space) (hrun : ∀ j, i < j → j ≤ p → source[j]? = some space) :
    spacesBack source p = some i := by
  induction p with
  | zero =>
    obtain rfl := Nat.le_zero.mp hle
    exact spaces_back_stay hi hc
  | succ p ih =>
    rcases Nat.eq_or_lt_of_le hle with rfl | hlt
    · exact spaces_back_stay hi hc
    · rw [spacesBack, hrun (p + 1) hlt (Nat.le_refl _)]
      simp only [Option.bind_eq_bind, Option.bind_some, if_true]
      exact ih (by omega) fun j hij hj => hrun j hij (by omega)

/-- The value can be trimmed: it is not all blank, except that it may be empty where a
parameter follows, and it is not a quote alone. -/
def Trimmable (value tail : List UInt8) : Prop :=
  ((∀ c ∈ value, c = space) → value = [] ∧ tail ≠ []) ∧
  ∀ gap gap', (∀ c ∈ gap ++ gap', c = space) → value ≠ gap ++ quote :: gap'

variable {before gap core gap' : List UInt8}

/-- A blank value is read on up to what follows it, and it has no end behind its
beginning. -/
theorem trim_blank (hblank : ∀ c ∈ value, c = space) (hkv : divKV ≠ space ∧ divKV ≠ quote)
    (htail : ∃ c ∈ tail.head?, c ≠ space ∧ c ≠ quote)
    (hs : text = before ++ divKV :: (value ++ tail)) :
    trimValue text (before.length + 1) (before.length + value.length) =
      some ⟨some (before.length + 1 + value.length),
        sizeSub (before.length + 1) (before.length + 1 + value.length)⟩ := by
  obtain ⟨c, hc, hspace, hquote⟩ := htail
  have hdrop : text.drop (before.length + 1) = value ++ tail := by
    rw [hs, ← List.drop_drop, List.drop_left]
    rfl
  have htail : tail ≠ [] := by
    rintro rfl
    cases hc
  have hspaces : spacesAt (text.drop (before.length + 1)) = some value.length := by
    rw [hdrop]
    exact spaces_at_run hblank (by rw [Option.mem_def.mp hc]; simpa using hspace) htail
  have hfirst : text[before.length + 1 + value.length]? = some c := by
    rw [← List.head?_drop, ← List.drop_drop, hdrop, List.drop_left]
    exact hc
  have hkvAt : text[before.length]? = some divKV := by
    rw [hs]
    simp
  have hrun : ∀ j, before.length < j → j ≤ before.length + value.length →
      text[j]? = some space := by
    intro j hlow hhigh
    obtain ⟨k, rfl⟩ := Nat.exists_eq_add_of_lt hlow
    have hk : k < value.length := by omega
    rw [Nat.add_right_comm, ← List.getElem?_drop, hdrop, List.getElem?_append_left hk,
      List.getElem?_eq_getElem hk, hblank _ (List.getElem_mem hk)]
  have hback := spaces_back_run (Nat.le_add_right _ _) hkvAt hkv.1 hrun
  simp only [trimValue, hspaces, Option.bind_eq_bind, Option.bind_some, hfirst, if_neg hquote,
    hback, hkvAt, if_neg hkv.2]

def quoteLength (c : Option UInt8) : Nat := if c = some quote then 1 else 0

theorem trim_core (hgap : ∀ c ∈ gap, c = space) (hgap' : ∀ c ∈ gap', c = space) (hne : core ≠ [])
    (hhead : core.head? ≠ some space) (hlast : core.getLast? ≠ some space)
    (hs : text = before ++ divKV :: (gap ++ core ++ gap' ++ tail)) :
    trimValue text (before.length + 1) (before.length + (gap ++ core ++ gap').length) =
      some ⟨some (before.length + 1 + gap.length + quoteLength core.head?),
        sizeSub (before.length + 1 + gap.length + core.length - quoteLength core.getLast?)
          (before.length + 1 + gap.length + quoteLength core.head?)⟩ := by
  have hpos := List.length_pos_of_ne_nil hne
  obtain ⟨first, hfirst⟩ : ∃ c, core.head? = some c := ⟨_, List.head?_eq_some_head hne⟩
  obtain ⟨last, hlastc⟩ : ∃ c, core.getLast? = some c := ⟨_, List.getLast?_eq_some_getLast hne⟩
  have hdrop : text.drop (before.length + 1) = gap ++ (core ++ (gap' ++ tail)) := by
    rw [hs, ← List.drop_drop, List.drop_left]
    simp
  have hspaces : spacesAt (text.drop (before.length + 1)) = some gap.length := by
    rw [hdrop]
    refine spaces_at_run hgap ?_ (by simp [hne])
    rwa [List.head?_append_of_ne_nil _ hne]
  have hcore : text.drop (before.length + 1 + gap.length) = core ++ (gap' ++ tail) := by
    rw [← List.drop_drop, hdrop, List.drop_left]
  have hfirstAt : text[before.length + 1 + gap.length]? = some first := by
    rw [← List.head?_drop, hcore, List.head?_append_of_ne_nil _ hne, hfirst]
  have hlastAt : text[before.length + gap.length + core.length]? = some last := by
    have hplace : before.length + gap.length + core.length =
        before.length + 1 + gap.length + (core.length - 1) := by omega
    rw [hplace, ← List.getElem?_drop, hcore, List.getElem?_append_left (by omega),
      ← List.getLast?_eq_getElem?, hlastc]
  have hlastSpace : last ≠ space := fun he => hlast (he ▸ hlastc)
  have hrun : ∀ j, before.length + gap.length + core.length < j →
      j ≤ before.length + (gap ++ core ++ gap').length → text[j]? = some space := by
    intro j hlow hhigh
    obtain ⟨k, rfl⟩ := Nat.exists_eq_add_of_lt hlow
    simp only [List.length_append] at hhigh
    have hk : k < gap'.length := by omega
    have hplace : before.length + gap.length + core.length + k + 1 =
        before.length + 1 + gap.length + (core.length + k) := by omega
    rw [hplace, ← List.getElem?_drop, hcore, List.getElem?_append_right (Nat.le_add_right _ _),
      Nat.add_sub_cancel_left, List.getElem?_append_left hk, List.getElem?_eq_getElem hk,
      hgap' _ (List.getElem_mem hk)]
  have hback := spaces_back_run (by simp only [List.length_append]; omega) hlastAt hlastSpace hrun
  have hstart : (if first = quote then before.length + 1 + gap.length + 1
      else before.length + 1 + gap.length) =
        before.length + 1 + gap.length + quoteLength core.head? := by
    rw [quoteLength, hfirst]
    by_cases hq : first = quote <;> simp [hq]
  have hend : (if last = quote then before.length + gap.length + core.length
      else before.length + gap.length + core.length + 1) =
        before.length + 1 + gap.length + core.length - quoteLength core.getLast? := by
    rw [quoteLength, hlastc]
    by_cases hq : last = quote <;> simp [hq] <;> omega
  simp only [trimValue, hspaces, Option.bind_eq_bind, Option.bind_some, hfirstAt, hback, hlastAt,
    hstart, hend]

theorem drop_spaces (hgap : ∀ c ∈ gap, c = space) (hw : w.head? ≠ some space) :
    (gap ++ w).dropWhile (· = space) = w := by
  rw [List.dropWhile_append_of_pos fun c hc => decide_eq_true (hgap c hc)]
  cases w with
  | nil => rfl
  | cons c w =>
    have hc : c ≠ space := fun he => hw (congrArg some he)
    exact List.dropWhile_cons_of_neg (by simpa using hc)

/-- A value with a core can be trimmed unless its core is a quote alone. -/
theorem trimmable_core (hgap : ∀ c ∈ gap, c = space) (hgap' : ∀ c ∈ gap', c = space)
    (hne : core ≠ []) (hhead : core.head? ≠ some space) (hlast : core.getLast? ≠ some space) :
    Trimmable (gap ++ core ++ gap') tail ↔ core ≠ [quote] := by
  have hnotBlank : ¬ ∀ c ∈ gap ++ core ++ gap', c = space := by
    intro hblank
    obtain ⟨c, rest, rfl⟩ := List.exists_cons_of_ne_nil hne
    exact hhead (congrArg some (hblank c (by simp)))
  refine ⟨fun ht he => ?_, fun hno => ⟨fun hblank => absurd hblank hnotBlank, ?_⟩⟩
  · refine ht.2 gap gap' (fun c hc => ?_) (by rw [he]; simp)
    exact (List.mem_append.mp hc).elim (hgap c) (hgap' c)
  · intro gap₁ gap₂ hspaces he
    have hgap₁ : ∀ c ∈ gap₁, c = space := fun c hc => hspaces c (List.mem_append_left _ hc)
    have hquote : (quote :: gap₂).head? ≠ some space := fun h =>
      absurd (Option.some.inj h) (by decide)
    have hcore : core ++ gap' = quote :: gap₂ := by
      rw [List.append_assoc] at he
      have hdrop := congrArg (List.dropWhile (· = space)) he
      rwa [drop_spaces hgap (by rwa [List.head?_append_of_ne_nil _ hne]),
        drop_spaces hgap₁ hquote] at hdrop
    obtain ⟨c, core', rfl⟩ := List.exists_cons_of_ne_nil hne
    obtain ⟨rfl, hrest⟩ := List.cons.inj hcore
    have hcore' : ∀ c ∈ core', c = space := fun c hc =>
      hspaces c (List.mem_append_right _ (hrest ▸ List.mem_append_left _ hc))
    -- behind the quote the core has only spaces, so it has nothing
    refine hno ?_
    rcases List.eq_nil_or_concat core' with rfl | ⟨front, c, rfl⟩
    · rfl
    · obtain rfl := hcore' c (by simp)
      have hconcat : quote :: front.concat space = (quote :: front) ++ [space] := by simp
      rw [hconcat, List.getLast?_concat] at hlast
      exact absurd rfl hlast

theorem quote_length_le (c : Option UInt8) : quoteLength c ≤ 1 := by
  rw [quoteLength]
  split
  · exact Nat.le_refl 1
  · exact Nat.zero_le 1

theorem quotes_fit_iff (hne : core ≠ []) :
    quoteLength core.head? + quoteLength core.getLast? ≤ core.length ↔ core ≠ [quote] := by
  obtain ⟨c, rest, rfl⟩ := List.exists_cons_of_ne_nil hne
  cases rest with
  | nil => by_cases hc : c = quote <;> simp [quoteLength, hc]
  | cons d rest =>
    have hhead := quote_length_le (c :: d :: rest).head?
    have hlast := quote_length_le (c :: d :: rest).getLast?
    refine iff_of_true ?_ (by simp)
    simp only [List.length_cons]
    omega

/-- A value of spaces is trimmed past its end unless it is empty. -/
theorem trim_blank_inside_iff (hkv : divKV ≠ space ∧ divKV ≠ quote)
    (hkk : divKK ≠ space ∧ divKK ≠ quote) (hends : tail = [] ∨ tail.head? = some divKK)
    (hlen : text.length < npos) (hs : text = before ++ divKV :: (value ++ tail))
    (hblank : ∀ c ∈ value, c = space) :
    (∃ v, trimValue text (before.length + 1) (before.length + value.length) = some v ∧
      ∀ p ∈ v.result, p + v.resultSize ≤ text.length) ↔ Trimmable value tail := by
  have hlength : text.length = before.length + 1 + value.length + tail.length := by
    rw [hs]
    simp only [List.length_append, List.length_cons]
    omega
  have hquote : ∀ gap gap', (∀ c ∈ gap ++ gap', c = space) → value ≠ gap ++ quote :: gap' := by
    rintro gap gap' - rfl
    exact absurd (hblank quote (by simp)) (by decide)
  rcases hends with rfl | hhead
  · have hnone : trimValue text (before.length + 1) (before.length + value.length) = none := by
      have hdrop : text.drop (before.length + 1) = value := by
        rw [hs, ← List.drop_drop, List.drop_left]
        simp
      rw [trimValue, hdrop, spaces_at_end hblank]
      rfl
    rw [hnone]
    constructor
    · rintro ⟨v, hv, -⟩
      cases hv
    · intro h
      exact absurd rfl (h.1 hblank).2
  · rw [trim_blank hblank hkv ⟨divKK, hhead, hkk⟩ hs]
    have htail : tail ≠ [] := by
      rintro rfl
      cases hhead
    constructor
    · rintro ⟨v, hv, hfits⟩
      obtain rfl := Option.some.inj hv
      have hbound := hfits _ rfl
      refine ⟨fun _ => ⟨?_, htail⟩, hquote⟩
      -- an end in front of the beginning wraps around
      rcases Nat.eq_zero_or_pos value.length with hzero | hpos
      · exact List.eq_nil_of_length_eq_zero hzero
      · simp only [sizeSub] at hbound
        rw [npos] at hlen
        omega
    · rintro ⟨hempty, -⟩
      obtain ⟨rfl, -⟩ := hempty hblank
      refine ⟨_, rfl, fun p hp => ?_⟩
      cases hp
      simp only [sizeSub, List.length_nil] at hlength ⊢
      rw [npos] at hlen
      omega

/-- A trimmable value gives a range in the text, and no other value does. -/
theorem trim_inside_iff (hkv : divKV ≠ space ∧ divKV ≠ quote) (hkk : divKK ≠ space ∧ divKK ≠ quote)
    (hends : tail = [] ∨ tail.head? = some divKK) (hlen : text.length < npos)
    (hs : text = before ++ divKV :: (value ++ tail)) :
    (∃ v, trimValue text (before.length + 1) (before.length + value.length) = some v ∧
      ∀ p ∈ v.result, p + v.resultSize ≤ text.length) ↔ Trimmable value tail := by
  rcases blank_or_core value with hblank | ⟨gap, core, gap', rfl, hgap, hgap', hne, hhead, hlast⟩
  · exact trim_blank_inside_iff hkv hkk hends hlen hs hblank
  · rw [trimmable_core hgap hgap' hne hhead hlast, trim_core hgap hgap' hne hhead hlast hs,
      ← quotes_fit_iff hne]
    have hpos := List.length_pos_of_ne_nil hne
    have hfirst := quote_length_le core.head?
    have hlastLe := quote_length_le core.getLast?
    have hlength := congrArg List.length hs
    simp only [List.length_append, List.length_cons] at hlength
    rw [npos] at hlen
    constructor
    · rintro ⟨v, hv, hfits⟩
      obtain rfl := Option.some.inj hv
      have hbound := hfits _ rfl
      simp only [sizeSub] at hbound
      omega
    · intro hle
      refine ⟨_, rfl, fun p hp => ?_⟩
      cases hp
      simp only [sizeSub]
      omega

/-- What is left of a value begins no later than what follows it. -/
theorem trim_start_le (hkv : divKV ≠ space ∧ divKV ≠ quote)
    (htail : ∃ c ∈ tail.head?, c ≠ space ∧ c ≠ quote)
    (hs : text = before ++ divKV :: (value ++ tail))
    (h : trimValue text (before.length + 1) (before.length + value.length) = some v) :
    ∀ p ∈ v.result, p ≤ before.length + 1 + value.length := by
  intro p hp
  rcases blank_or_core value with hblank | ⟨gap, core, gap', rfl, hgap, hgap', hne, hhead, hlast⟩
  · rw [trim_blank hblank hkv htail hs] at h
    obtain rfl := Option.some.inj h
    cases hp
    exact Nat.le_refl _
  · rw [trim_core hgap hgap' hne hhead hlast hs] at h
    obtain rfl := Option.some.inj h
    cases hp
    have hpos := List.length_pos_of_ne_nil hne
    have hquote := quote_length_le core.head?
    simp only [List.length_append]
    omega

theorem get_more {i : Nat} {c : UInt8} (h : source[i]? = some c) (behind : List UInt8) :
    (source ++ behind)[i]? = some c := by
  obtain ⟨hlt, -⟩ := List.getElem?_eq_some_iff.mp h
  rw [List.getElem?_append_left hlt, h]

theorem find_match_more {n p : Nat} {inQuote : Bool} {r : Option Nat}
    (h : findMatchAt source pMatch n p inQuote = some r) (behind : List UInt8) :
    findMatchAt (source ++ behind) pMatch n p inQuote = some r := by
  induction n generalizing p inQuote with
  | zero => exact h
  | succ n ih =>
    obtain ⟨c, hc, h⟩ := Option.bind_eq_some_iff.mp h
    rw [findMatchAt, get_more hc]
    simp only [Option.bind_eq_bind, Option.bind_some]
    split at h
    · rename_i hquote
      rw [if_pos hquote]
      exact ih h
    · rename_i hquote
      rw [if_neg hquote]
      split at h
      · rename_i hout
        obtain ⟨there, hread, h⟩ := Option.bind_eq_some_iff.mp h
        rw [if_pos hout, read_more hread, Option.bind_some]
        split at h
        · rename_i hsame
          rw [if_pos hsame]
          exact h
        · rename_i hother
          rw [if_neg hother]
          exact ih h
      · rename_i hin
        rw [if_neg hin]
        exact ih h

theorem find_value_more {n p : Nat} {inQuote : Bool} {pStart : Option Nat} {r : Nat × Option Nat}
    (h : findValue source divKV divKK n p inQuote pStart = some r) (behind : List UInt8) :
    findValue (source ++ behind) divKV divKK n p inQuote pStart = some r := by
  induction n generalizing p inQuote pStart with
  | zero => exact h
  | succ n ih =>
    obtain ⟨c, hc, h⟩ := Option.bind_eq_some_iff.mp h
    rw [findValue, get_more hc]
    simp only [Option.bind_eq_bind, Option.bind_some]
    split at h
    · rename_i hquote
      rw [if_pos hquote]
      exact ih h
    · rename_i hquote
      rw [if_neg hquote]
      split at h
      · rename_i hkv
        rw [if_pos hkv]
        exact ih h
      · rename_i hkv
        rw [if_neg hkv]
        split at h
        · rename_i hkk
          rw [if_pos hkk]
          exact h
        · rename_i hkk
          rw [if_neg hkk]
          exact ih h

theorem spaces_back_more {p r : Nat} (h : spacesBack source p = some r) (behind : List UInt8) :
    spacesBack (source ++ behind) p = some r := by
  induction p with
  | zero =>
    obtain ⟨c, hc, h⟩ := Option.bind_eq_some_iff.mp h
    rw [spacesBack, get_more hc]
    exact h
  | succ p ih =>
    obtain ⟨c, hc, h⟩ := Option.bind_eq_some_iff.mp h
    rw [spacesBack, get_more hc]
    simp only [Option.bind_eq_bind, Option.bind_some]
    split at h
    · rename_i hspace
      rw [if_pos hspace]
      exact ih h
    · rename_i hspace
      rw [if_neg hspace]
      exact h

theorem trim_more {pStart pCheck : Nat} {v : SubValue} (h : trimValue source pStart pCheck = some v)
    (behind : List UInt8) : trimValue (source ++ behind) pStart pCheck = some v := by
  obtain ⟨n, hn, h⟩ := Option.bind_eq_some_iff.mp h
  obtain ⟨first, hfirst, h⟩ := Option.bind_eq_some_iff.mp h
  obtain ⟨back, hback, h⟩ := Option.bind_eq_some_iff.mp h
  obtain ⟨last, hlast, h⟩ := Option.bind_eq_some_iff.mp h
  obtain ⟨hlt, -⟩ := List.getElem?_eq_some_iff.mp hfirst
  rw [trimValue, List.drop_append_of_le_length (by omega), spaces_at_more hn]
  simp only [Option.bind_eq_bind, Option.bind_some, get_more hfirst, spaces_back_more hback,
    get_more hlast]
  exact h

/-- What is found in a text alone is found in it wherever it stands. -/
theorem sub_value_more {size : Nat} {found : Option SubValue} (hsize : size ≠ npos)
    (h : findSubValue source size pMatch divKV divKK = some found) (behind : List UInt8) :
    findSubValue (source ++ behind) size pMatch divKV divKK = some found := by
  rw [findSubValue, if_neg hsize] at h ⊢
  simp only [Option.bind_eq_bind, Option.bind_some] at h ⊢
  split at h
  · rename_i hshort
    rw [if_pos hshort]
    exact h
  · rename_i hshort
    rw [if_neg hshort]
    obtain ⟨k, hk, h⟩ := Option.bind_eq_some_iff.mp h
    rw [find_match_more hk, Option.bind_some]
    cases k with
    | none => exact h
    | some k =>
      obtain ⟨⟨stop, start⟩, hvalue, h⟩ := Option.bind_eq_some_iff.mp h
      dsimp only
      rw [find_value_more hvalue, Option.bind_some]
      cases start with
      | none => exact h
      | some start =>
        obtain ⟨v, hv, hfound⟩ := Option.map_eq_some_iff.mp h
        dsimp only
        rw [trim_more hv, Option.map_some, hfound]

/-- Whatever stands behind the text, nothing of it is read, and a value that is
found is a range of the text. -/
def ReadsInside (text pMatch : List UInt8) (divKV divKK : UInt8) : Prop :=
  ∃ found, (∀ behind, findSubValue (text ++ behind) text.length pMatch divKV divKK = some found) ∧
    ∀ v ∈ found, ∀ p ∈ v.result, p + v.resultSize ≤ text.length

/-- Nothing behind the text is read exactly if the value found can be trimmed. -/
theorem reads_inside_iff (hne : pMatch ≠ []) (hdiv : divKV ≠ divKK)
    (hkv : divKV ≠ quote ∧ divKV ≠ space) (hkk : divKK ≠ quote ∧ divKK ≠ space)
    (hlen : text.length < npos) : ReadsInside text pMatch divKV divKK ↔
      ∀ front between value tail, ValueAt pMatch divKV divKK text front between value tail →
        Trimmable value tail := by
  have htrim : ∀ front between value tail,
      ValueAt pMatch divKV divKK text front between value tail →
      ((∃ v, trimValue text (front.length + pMatch.length + between.length + 1)
          (front.length + pMatch.length + between.length + value.length) = some v ∧
        ∀ p ∈ v.result, p + v.resultSize ≤ text.length) ↔ Trimmable value tail) := by
    intro front between value tail ha
    have hs : text = front ++ pMatch ++ between ++ divKV :: (value ++ tail) := by
      rw [ha.split]
      simp
    have hiff := trim_inside_iff ⟨hkv.2, hkv.1⟩ ⟨hkk.2, hkk.1⟩ (ha.ends.imp_right And.left) hlen hs
    rwa [List.length_append, List.length_append] at hiff
  constructor
  · rintro ⟨found, hfound, hfits⟩ front between value tail ha
    have halone := hfound []
    rw [List.append_nil, sub_value_at hne hkv.1 hkk.1 hdiv hlen ha] at halone
    obtain ⟨v, hv, rfl⟩ := Option.map_eq_some_iff.mp halone
    exact (htrim _ _ _ _ ha).mp ⟨v, hv, hfits v rfl⟩
  · intro hall
    have hmore : ∀ found, findSubValue text text.length pMatch divKV divKK = some found →
        (∀ v ∈ found, ∀ p ∈ v.result, p + v.resultSize ≤ text.length) →
        ReadsInside text pMatch divKV divKK := fun found hfound hfits =>
      ⟨found, sub_value_more (Nat.ne_of_lt hlen) hfound, hfits⟩
    have hfinding := finding hne hkv.1 hkk.1 hdiv hlen
    generalize findSubValue text text.length pMatch divKV divKK = result at hfinding hmore
    cases hfinding with
    | nothing hno => exact hmore none rfl (by simp)
    | bare front rest hsplit hfirst =>
      refine hmore _ rfl fun v hv p hp => ?_
      cases hv
      cases hp
    | value front between value tail ha =>
      obtain ⟨v, hv, hfits⟩ := (htrim _ _ _ _ ha).mpr (hall _ _ _ _ ha)
      refine hmore (some v) (by rw [hv]; rfl) fun w hw => ?_
      cases hw
      exact hfits

/-- A name with a value between quotes, and another parameter behind it. -/
theorem name_reads_inside : ReadsInside (ascii "name=\"a\"; x=b") (ascii "name") equals semicolon ∧
    ∀ front between value tail, ValueAt (ascii "name") equals semicolon
      (ascii "name=\"a\"; x=b") front between value tail → Trimmable value tail := by
  have hfound : findSubValue (ascii "name=\"a\"; x=b") (ascii "name=\"a\"; x=b").length
      (ascii "name") equals semicolon = some (some ⟨some 6, 1⟩) := by decide +kernel
  have hinside : ReadsInside (ascii "name=\"a\"; x=b") (ascii "name") equals semicolon := by
    refine ⟨_, sub_value_more (by decide +kernel) hfound, fun v hv p hp => ?_⟩
    cases hv
    cases hp
    decide +kernel
  exact ⟨hinside, (reads_inside_iff (by decide) (by decide) (by decide) (by decide)
    (by decide +kernel)).mp hinside⟩

/-- An empty value at the end of the text is looked for behind it. -/
theorem empty_value_passed : ¬ ∀ (text pMatch : List UInt8) (divKV divKK : UInt8), nul ∉ text →
    pMatch ≠ [] → divKV ≠ divKK → divKV ≠ quote ∧ divKV ≠ space → divKK ≠ quote ∧ divKK ≠ space →
    text.length < npos → ReadsInside text pMatch divKV divKK := by
  intro h
  obtain ⟨found, hfound, -⟩ := h (ascii "a=") (ascii "a") equals semicolon (by decide) (by decide)
    (by decide) (by decide) (by decide) (by decide)
  have hnone : findSubValue (ascii "a=" ++ []) (ascii "a=").length (ascii "a") equals semicolon =
      none := by decide
  have hsome := hfound []
  rw [hnone] at hsome
  cases hsome

end Khorost
