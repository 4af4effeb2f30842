import Khorost.Lib.Quoted
import Khorost.Proofs.FormData
import Mathlib.Logic.Relation

namespace Khorost

open Blocks Quoted

variable {b : AutoBuffer UInt8} {source pMatch label : List UInt8} {divKV divKK : UInt8}
  {m m' m₁ m₂ : MultiPart}

/-- The first loop finds the first occurrence outside of quotes. -/
theorem find_match_spec (source : List UInt8) {n p : Nat} {inQuote : Bool} (hne : pMatch ≠ [])
    (hmem : p + n + pMatch.length ≤ source.length + 1)
    (hin : after quote false (source.take p) = inQuote) :
    ∃ found, findMatchAt source pMatch n p inQuote = some found ∧
      (∀ k ∈ found, k < p + n ∧ Occurs quote pMatch source k) ∧
      ∀ j, p ≤ j → j < found.getD (p + n) → ¬ Occurs quote pMatch source j := by
  induction n generalizing p inQuote with
  | zero => exact ⟨none, rfl, by simp, fun j hle hlt => absurd hle (Nat.not_le.mpr hlt)⟩
  | succ n ih =>
    have hpos := List.length_pos_of_ne_nil hne
    have hlt : p < source.length := by omega
    have hroom : p + pMatch.length ≤ source.length := by omega
    have hc : source[p]? = some source[p] := List.getElem?_eq_getElem hlt
    have hdrop := List.drop_eq_getElem_cons hlt
    have hnext := after_take_succ (q := quote) hc false
    rw [hin] at hnext
    -- without an occurrence here, the rest of the loop decides
    have hlater : ∀ inQuote', toggle quote inQuote source[p] = inQuote' →
        ¬ Occurs quote pMatch source p →
        ∃ found, findMatchAt source pMatch n (p + 1) inQuote' = some found ∧
          (∀ k ∈ found, k < p + (n + 1) ∧ Occurs quote pMatch source k) ∧
          ∀ j, p ≤ j → j < found.getD (p + (n + 1)) → ¬ Occurs quote pMatch source j := by
      intro inQuote' htoggle hno
      obtain ⟨found, hfind, hat, hbefore⟩ := ih (p := p + 1) (by omega) (hnext.trans htoggle)
      have hcomm : p + (n + 1) = p + 1 + n := by omega
      rw [hcomm]
      refine ⟨found, hfind, hat, fun j hle hlt => ?_⟩
      rcases Nat.eq_or_lt_of_le hle with rfl | hgt
      · exact hno
      · exact hbefore j hgt hlt
    rw [findMatchAt, hc]
    simp only [Option.bind_eq_bind, Option.bind_some, Blocks.read, if_pos hroom]
    by_cases hquote : source[p] = quote
    · rw [if_pos hquote]
      refine hlater _ (by rw [hquote, toggle_self]) fun ho => ho.2.2 ?_
      obtain ⟨c, m, rfl⟩ := List.exists_cons_of_ne_nil hne
      have hat := ho.2.1
      rw [hdrop, List.cons_prefix_cons] at hat
      rw [hat.1, hquote]
      rfl
    · rw [if_neg hquote]
      have hsame : toggle quote inQuote source[p] = inQuote := toggle_of_ne hquote inQuote
      by_cases hout : inQuote = false
      · rw [if_pos hout]
        by_cases hhere : (source.drop p).take pMatch.length = pMatch
        · rw [if_pos hhere]
          have hat : pMatch <+: source.drop p := List.prefix_iff_eq_take.mpr hhere.symm
          refine ⟨some p, rfl, fun k hk => ?_, fun j hle hlt => absurd hle (Nat.not_le.mpr hlt)⟩
          cases hk
          refine ⟨by omega, hin.trans hout, hat, ?_⟩
          obtain ⟨c, m, rfl⟩ := List.exists_cons_of_ne_nil hne
          rw [hdrop, List.cons_prefix_cons] at hat
          rw [List.head?_cons, hat.1]
          exact fun h => hquote (Option.some.inj h)
        · rw [if_neg hhere]
          refine hlater _ hsame fun ho => hhere ?_
          exact (List.prefix_iff_eq_take.mp ho.2.1).symm
      · rw [if_neg hout]
        exact hlater _ hsame fun ho => hout (hin.symm.trans ho.1)

theorem find_value_bounds (source : List UInt8) (divKV divKK : UInt8) {n p : Nat}
    (inQuote : Bool) {pStart : Option Nat} (hmem : p + n ≤ source.length) (hstart : ∀ s ∈ pStart, s ≤ p) :
    ∃ stop start, findValue source divKV divKK n p inQuote pStart = some (stop, start) ∧
      p ≤ stop ∧ stop ≤ p + n ∧ ∀ s ∈ start, s ≤ stop := by
  induction n generalizing p inQuote pStart with
  | zero => exact ⟨p, pStart, rfl, Nat.le_refl p, Nat.le_refl p, hstart⟩
  | succ n ih =>
    have hlater : ∀ inQuote pStart, (∀ s ∈ pStart, s ≤ p + 1) → ∃ stop start,
        findValue source divKV divKK n (p + 1) inQuote pStart = some (stop, start) ∧
          p ≤ stop ∧ stop ≤ p + (n + 1) ∧ ∀ s ∈ start, s ≤ stop := by
      intro inQuote pStart hstart
      obtain ⟨stop, start, hfind, hle, hge, hs⟩ := ih (p := p + 1) inQuote (by omega) hstart
      exact ⟨stop, start, hfind, by omega, by omega, hs⟩
    have hkeep : ∀ s ∈ pStart, s ≤ p + 1 := fun s hs => Nat.le_succ_of_le (hstart s hs)
    rw [findValue, List.getElem?_eq_getElem (by omega)]
    simp only [Option.bind_eq_bind, Option.bind_some]
    by_cases hc : source[p] = quote
    · rw [if_pos hc]
      exact hlater _ _ hkeep
    · rw [if_neg hc]
      by_cases hkv : inQuote = false ∧ source[p] = divKV
      · rw [if_pos hkv]
        refine hlater _ _ fun s hs => ?_
        cases hs
        exact Nat.le_refl _
      · rw [if_neg hkv]
        by_cases hkk : inQuote = false ∧ source[p] = divKK
        · rw [if_pos hkk]
          exact ⟨p, pStart, rfl, Nat.le_refl p, Nat.le_add_right .., hstart⟩
        · rw [if_neg hkk]
          exact hlater _ _ hkeep

theorem spaces_back_bounds {p q : Nat} (hle : q ≤ p) (hlt : p < source.length)
    (h : source[q]? = some c) (hc : c ≠ space) :
    ∃ r, spacesBack source p = some r ∧ r ≤ p := by
  induction p with
  | zero =>
    obtain rfl := Nat.le_zero.mp hle
    exact ⟨0, spaces_back_stay h hc, Nat.le_refl 0⟩
  | succ p ih =>
    rcases Nat.eq_or_lt_of_le hle with rfl | hq
    · exact ⟨p + 1, spaces_back_stay h hc, Nat.le_refl _⟩
    · by_cases hspace : source[p + 1] = space
      · obtain ⟨r, hr, hrle⟩ := ih (Nat.le_of_lt_succ hq) (by omega)
        refine ⟨r, ?_, by omega⟩
        rw [spacesBack, List.getElem?_eq_getElem hlt]
        simp [hspace, hr]
      · exact ⟨p + 1, spaces_back_stay (List.getElem?_eq_getElem hlt) hspace, Nat.le_refl _⟩

/-- A difference below zero is a size that no string has. -/
theorem size_sub_below (hlt : x < y) (hy : y ≤ 2 ^ 63) : maxSize < sizeSub x y := by
  have hsub : sizeSub x y = x + 2 ^ 64 - y := Nat.mod_eq_of_lt (by omega)
  have hmax : maxSize < 2 ^ 63 := lt_of_max_size (Nat.le_refl _)
  rw [hsub]
  omega

theorem trim_inside {s stop size q : Nat} (hsize : size ≤ maxSize) (hend : source[size]? = some c)
    (hc : c ≠ space) (hs : s ≤ size) (hstop : stop < size) (hq : q ≤ stop)
    (hqc : source[q]? = some d) (hd : d ≠ space) :
    ∃ v, trimValue source s stop = some v ∧
      (maxSize < v.resultSize ∨ ∀ p ∈ v.result, p + v.resultSize ≤ source.length) := by
  obtain ⟨hlt, -⟩ := List.getElem?_eq_some_iff.mp hend
  obtain ⟨n, hn, hspaces⟩ := spaces_at_bounds (i := size - s)
    (by rw [List.getElem?_drop, Nat.add_sub_cancel' hs]; exact hend) hc
  obtain ⟨r, hback, hr⟩ := spaces_back_bounds hq (by omega) hqc hd
  have hfirst : source[s + n]? = some source[s + n] := List.getElem?_eq_getElem (by omega)
  have hlast : source[r]? = some source[r] := List.getElem?_eq_getElem (by omega)
  simp only [trimValue, hspaces, hback, hfirst, hlast, Option.bind_eq_bind, Option.bind_some]
  refine ⟨_, rfl, ?_⟩
  set pStart := if source[s + n] = quote then s + n + 1 else s + n with hpStart
  set pEnd := if source[r] = quote then r else r + 1 with hpEnd
  have hstartLe : pStart ≤ size + 1 := by
    rw [hpStart]
    split <;> omega
  have hendLe : pEnd ≤ size := by
    rw [hpEnd]
    split <;> omega
  have hmax := lt_of_max_size hsize
  rcases Nat.lt_or_ge pEnd pStart with hbelow | hle
  · exact .inl (size_sub_below hbelow (by omega))
  · refine .inr fun p hp => ?_
    cases hp
    have hsub : sizeSub pEnd pStart = pEnd - pStart := size_sub_eq hle (by omega)
    simp only [hsub]
    omega

/-- A source that something else than a space stands behind is not left. -/
theorem sub_value_inside (source : List UInt8) (divKV divKK : UInt8) (hsize : size ≤ maxSize)
    (hend : source[size]? = some c) (hc : c ≠ space) (hlast : pMatch.getLast? = some d) (hd : d ≠ space) :
    ∃ found, findSubValue source size pMatch divKV divKK = some found ∧ ∀ v ∈ found,
      maxSize < v.resultSize ∨ ∀ p ∈ v.result, p + v.resultSize ≤ source.length := by
  obtain ⟨hlt, -⟩ := List.getElem?_eq_some_iff.mp hend
  have hnpos : size ≠ npos := Nat.ne_of_lt (Nat.lt_trans (lt_of_max_size hsize) (by decide))
  have hne : pMatch ≠ [] := by
    rintro rfl
    cases hlast
  rw [findSubValue, if_neg hnpos]
  simp only [Option.bind_eq_bind, Option.bind_some]
  by_cases hshort : size < pMatch.length
  · rw [if_pos hshort]
    exact ⟨none, rfl, by simp⟩
  · rw [if_neg hshort]
    have hstart : after quote false (source.take 0) = false := rfl
    obtain ⟨found, hfound, hat, -⟩ := find_match_spec source (p := 0)
      (n := size - pMatch.length + 1) hne (by omega) hstart
    rw [hfound]
    cases found with
    | none => exact ⟨none, rfl, by simp⟩
    | some k =>
      obtain ⟨hk, -, hprefix, -⟩ := hat k rfl
      have hnone : ∀ s ∈ (none : Option Nat), s ≤ k + pMatch.length := by
        simp
      obtain ⟨stop, start, hfind, hle, hge, hs⟩ := find_value_bounds source divKV divKK
        (n := size - (k + pMatch.length)) false (by omega) hnone
      simp only [Option.bind_some, hfind]
      cases start with
      | none =>
        refine ⟨_, rfl, fun v hv => .inr fun p hp => ?_⟩
        cases hv
        cases hp
      | some s =>
        have hpos := List.length_pos_of_ne_nil hne
        have hq : source[k + (pMatch.length - 1)]? = some d := by
          obtain ⟨rest, hrest⟩ := hprefix
          rw [← List.getElem?_drop, ← hrest, List.getElem?_append_left (by omega),
            ← List.getLast?_eq_getElem?, hlast]
        have hfirst : s ≤ size := by
          have := hs s rfl
          omega
        have hstop : stop - 1 < size := by omega
        obtain ⟨v, hv, hbound⟩ := trim_inside hsize hend hc hfirst hstop (by omega) hq hd
        refine ⟨some v, congrArg (Option.map some) hv, fun w hw => ?_⟩
        cases hw
        exact hbound

/-- A line's value is taken or there is none, a string refuses its size, or it
is read outside of the memory. -/
inductive Fate
  | fits
  | refused
  | outside
deriving DecidableEq

def valueFate (memory : Nat) : Option (Option SubValue) → Fate
  | none => .outside
  | some none => .fits
  | some (some v) =>
    if maxSize < v.resultSize then .refused
    else if ∀ p ∈ v.result, p + v.resultSize ≤ memory then .fits
    else .outside

/-- The fate of a line of the body that begins at `c`. -/
def lineFate (b : AutoBuffer UInt8) (c size : Nat) : Fate :=
  let line := b.buffer.drop c
  if ascii "Content-Disposition" <+: b.content.drop c then
    valueFate line.length (findSubValue line size (ascii "name") equals semicolon)
  else if ascii "Content-Type" <+: b.content.drop c then
    valueFate line.length (findSubValue line size (ascii "Content-Type") colon semicolon)
  else .fits

def Fate.result (result : Except PartEnd α) : Fate → Prop
  | fits => ∃ a, result = .ok a
  | refused => result = .error .threw
  | outside => result = .error .outside

theorem line_value_fate (source : List UInt8) (size : Nat) (pMatch : List UInt8) (divKV : UInt8)
    (old : List UInt8) :
    (valueFate source.length (findSubValue source size pMatch divKV semicolon)).result
      (lineValue source size pMatch divKV old) := by
  rw [lineValue]
  cases findSubValue source size pMatch divKV semicolon with
  | none => exact rfl
  | some found =>
    cases found with
    | none => exact ⟨old, rfl⟩
    | some v =>
      simp only [valueFate, orOutside, bind, Except.bind, takeString, Nat.sub_zero]
      by_cases hlarge : maxSize < v.resultSize
      · rw [if_pos hlarge, if_pos hlarge]
        exact rfl
      · rw [if_neg hlarge, if_neg hlarge]
        cases hv : v.result with
        | none => simp [Fate.result]
        | some p =>
          by_cases hroom : p + v.resultSize ≤ source.length
          · simp [Fate.result, Blocks.read, hroom]
          · simp [Fate.result, Blocks.read, hroom]

theorem Fate.result_bind {fate : Fate} {result : Except PartEnd α} (h : fate.result result)
    (f : α → β) : fate.result (result >>= fun a => .ok (f a)) := by
  cases fate with
  | fits =>
    obtain ⟨a, rfl⟩ := h
    exact ⟨f a, rfl⟩
  | refused =>
    cases h
    exact rfl
  | outside =>
    cases h
    exact rfl

theorem part_line_fate (size : Nat) (hm : m.currentIterator + 19 < 2 ^ 64) :
    (lineFate b m.currentIterator size).result (partLine b size m) := by
  have h19 : (ascii "Content-Disposition").length = 19 := by decide
  have h12 : (ascii "Content-Type").length = 12 := by decide
  rw [lineFate, partLine, AutoBuffer.compare_prefix b _ (by rw [h19]; omega)
    (by rw [h19]; omega), AutoBuffer.compare_prefix b _ (by rw [h12]; omega) (by rw [h12]; omega)]
  simp only [orOutside, bind, Except.bind, decide_eq_true_iff]
  by_cases hname : ascii "Content-Disposition" <+: b.content.drop m.currentIterator
  · simp only [if_pos hname]
    exact Fate.result_bind (line_value_fate ..) _
  · simp only [if_neg hname]
    by_cases htype : ascii "Content-Type" <+: b.content.drop m.currentIterator
    · simp only [if_pos htype]
      exact Fate.result_bind (line_value_fate ..) _
    · simp only [if_neg htype]
      exact ⟨m, rfl⟩

theorem whole_line_fate (hfill : b.fillSize ≤ maxSize) (hle : c ≤ e) (he : b.buffer[e]? = some cr)
    (hlt : e < b.fillSize) : lineFate b c (e - c) ≠ .outside := by
  have hend : (b.buffer.drop c)[e - c]? = some cr := by
    rw [List.getElem?_drop, Nat.add_sub_cancel' hle, he]
  have hfate : ∀ {pMatch divKV}, pMatch.getLast? = some 101 →
      valueFate (b.buffer.drop c).length
        (findSubValue (b.buffer.drop c) (e - c) pMatch divKV semicolon) ≠ .outside := by
    intro pMatch divKV hlast
    obtain ⟨found, hfound, hbound⟩ := sub_value_inside (b.buffer.drop c) divKV semicolon
      (by omega) hend (by decide) hlast (by decide)
    rw [hfound]
    cases found with
    | none => exact fun h => by cases h
    | some v =>
      rw [valueFate]
      rcases hbound v rfl with hlarge | hroom
      · rw [if_pos hlarge]
        exact fun h => by cases h
      · rw [if_pos hroom]
        split <;> exact fun h => by cases h
  rw [lineFate]
  split
  · exact hfate (by decide)
  · split
    · exact hfate (by decide)
    · exact fun h => by cases h

/-- A pass that is left behind: the loop goes on with the second state. -/
def Pass (b : AutoBuffer UInt8) (label : List UInt8) (m m' : MultiPart) : Prop :=
  m.currentIterator < b.fillSize ∧ linePass b label m = .ok m'

def PartEnd.Leaves : PartEnd → Prop
  | .returned _ _ => True
  | .threw => True
  | .outside => False
  | .running => False

/-- The loop ends, and each pass until then moves the iterator on. -/
structure LoopEnds (b : AutoBuffer UInt8) (label : List UInt8) (m : MultiPart) : Prop where
  leaves : ∃ fuel, (lineLoop b label fuel m).Leaves
  grows : ∀ m₁ m₂, Relation.ReflTransGen (Pass b label) m m₁ → Pass b label m₁ m₂ →
    m₁.currentIterator < m₂.currentIterator

theorem loop_ends_past (h : b.fillSize ≤ m.currentIterator) : LoopEnds b label m where
  leaves := ⟨1, by
    rw [lineLoop, if_neg (Nat.not_lt_of_le h)]
    exact trivial⟩
  grows := by
    intro m₁ m₂ hreach hpass
    rcases hreach.cases_head with rfl | ⟨m', hfirst, -⟩
    · exact absurd hpass.1 (Nat.not_lt_of_le h)
    · exact absurd hfirst.1 (Nat.not_lt_of_le h)

theorem loop_ends_error (hlt : m.currentIterator < b.fillSize)
    (hpass : linePass b label m = .error result) : LoopEnds b label m ↔ result.Leaves := by
  have hrun : ∀ fuel, lineLoop b label (fuel + 1) m = result :=
    fun fuel => line_loop_end hlt hpass
  have hstop : ∀ m', ¬ Pass b label m m' := by
    rintro m' ⟨-, hok⟩
    rw [hpass] at hok
    cases hok
  constructor
  · rintro ⟨⟨fuel, hleaves⟩, -⟩
    cases fuel with
    | zero => exact hleaves.elim
    | succ fuel => rwa [hrun] at hleaves
  · intro hleaves
    refine ⟨⟨1, by rwa [hrun]⟩, fun m₁ m₂ hreach hnext => ?_⟩
    rcases hreach.cases_head with rfl | ⟨m', hfirst, -⟩
    · exact absurd hnext (hstop m₂)
    · exact absurd hfirst (hstop m')

/-- A pass that goes on leaves it to the rest of the run. -/
theorem loop_ends_pass (hpass : Pass b label m m') :
    LoopEnds b label m ↔ m.currentIterator < m'.currentIterator ∧ LoopEnds b label m' := by
  obtain ⟨hlt, hok⟩ := hpass
  have hrun : ∀ fuel, lineLoop b label (fuel + 1) m = lineLoop b label fuel m' :=
    fun fuel => line_loop_pass hlt hok
  constructor
  · rintro ⟨⟨fuel, hleaves⟩, hgrows⟩
    refine ⟨hgrows m m' .refl ⟨hlt, hok⟩, ?_, fun m₁ m₂ hreach hnext =>
      hgrows m₁ m₂ (.head ⟨hlt, hok⟩ hreach) hnext⟩
    cases fuel with
    | zero => exact hleaves.elim
    | succ fuel => exact ⟨fuel, by rwa [hrun] at hleaves⟩
  · rintro ⟨hmove, ⟨fuel, hleaves⟩, hgrows⟩
    refine ⟨⟨fuel + 1, by rwa [hrun]⟩, fun m₁ m₂ hreach hnext => ?_⟩
    rcases hreach.cases_head with rfl | ⟨m'', ⟨-, hfirst⟩, hrest⟩
    · obtain rfl : m' = m₂ := Except.ok.inj (hok.symm.trans hnext.2)
      exact hmove
    · obtain rfl : m' = m'' := Except.ok.inj (hok.symm.trans hfirst)
      exact hgrows m₁ m₂ hrest hnext

/-- A line that is not blank is left as its fate says, and else passed. -/
theorem line_pass_fate (hfind : b.find m.currentIterator endl = some found)
    (hend : found.getD (sizeSub b.fillSize m.currentIterator) = pEndLine)
    (hne : pEndLine ≠ m.currentIterator) (hm : m.currentIterator + 19 < 2 ^ 64) :
    (lineFate b m.currentIterator (sizeSub pEndLine m.currentIterator)).result
        (linePass b label m) ∧
      ∀ m', linePass b label m = .ok m' → m'.currentIterator = sizeAdd pEndLine endl.length := by
  have hfate := part_line_fate (b := b) (sizeSub pEndLine m.currentIterator) hm
  rw [line_pass_line hfind hend hne]
  refine ⟨Fate.result_bind hfate _, fun m' hok => ?_⟩
  cases hline : partLine b (sizeSub pEndLine m.currentIterator) m with
  | error result =>
    rw [hline] at hok
    cases hok
  | ok m₁ =>
    rw [hline] at hok
    cases hok
    rfl

/-- So whether the loop ends is settled by the fate, unless the line is passed. -/
theorem loop_ends_line (label : List UInt8) (hlt : m.currentIterator < b.fillSize)
    (hfill : b.fillSize ≤ maxSize) (hfind : b.find m.currentIterator endl = some found)
    (hend : found.getD (sizeSub b.fillSize m.currentIterator) = pEndLine)
    (hne : pEndLine ≠ m.currentIterator) :
    LoopEnds b label m ↔
      match lineFate b m.currentIterator (sizeSub pEndLine m.currentIterator) with
      | .fits => m.currentIterator < sizeAdd pEndLine endl.length ∧
          ∃ m', Pass b label m m' ∧ m'.currentIterator = sizeAdd pEndLine endl.length ∧
            LoopEnds b label m'
      | .refused => True
      | .outside => False := by
  have hmax := lt_of_max_size hfill
  obtain ⟨hresult, hnext⟩ := line_pass_fate hfind hend hne (by omega)
  cases hfate : lineFate b m.currentIterator (sizeSub pEndLine m.currentIterator) with
  | fits =>
    rw [hfate] at hresult
    obtain ⟨m', hok⟩ := hresult
    rw [loop_ends_pass ⟨hlt, hok⟩, hnext m' hok]
    constructor
    · rintro ⟨hmove, hrest⟩
      exact ⟨hmove, m', ⟨hlt, hok⟩, hnext m' hok, hrest⟩
    · rintro ⟨hmove, m'', ⟨-, hok'⟩, -, hrest⟩
      obtain rfl : m' = m'' := Except.ok.inj (hok.symm.trans hok')
      exact ⟨hmove, hrest⟩
  | refused =>
    rw [hfate] at hresult
    exact loop_ends_error hlt hresult
  | outside =>
    rw [hfate] at hresult
    exact loop_ends_error hlt hresult

theorem loop_ends_blank (hlt : m.currentIterator < b.fillSize) (hfill : b.fillSize ≤ maxSize)
    (hlabel : (endl ++ label).length ≤ b.fillSize)
    (hfind : b.find m.currentIterator endl = some found)
    (hend : found.getD (sizeSub b.fillSize m.currentIterator) = m.currentIterator) :
    LoopEnds b label m := by
  rw [loop_ends_error hlt (line_pass_blank hfind hend)]
  rcases b.find_spec (sizeAdd m.currentIterator endl.length) hlabel hfill with
    ⟨k, hfound, -⟩ | ⟨hnone, -⟩
  · rw [part_content_found rfl hfound]
    exact trivial
  · rw [part_content_none rfl hnone]
    exact trivial

/-- The line that the loop comes to over lines with an end: the first one that
is blank, is refused or has no end. -/
def lastLine (b : AutoBuffer UInt8) : Nat → Nat → Nat
  | 0, c => c
  | fuel + 1, c =>
    match b.find c endl with
    | some (some e) =>
      if e = c ∨ lineFate b c (e - c) = .refused then c else lastLine b fuel (e + endl.length)
    | _ => c

/-- The loop can be left in the line at `c`. Without an end, the rest of the body
has to be as long as what stands before it, or a value has to be refused: the one
in the line itself or, if the next pass goes forward at all, the one there. -/
def EndsAt (b : AutoBuffer UInt8) (c : Nat) : Prop :=
  b.fillSize ≤ c ∨ b.find c endl ≠ some none ∨ 2 * c = b.fillSize ∨
    lineFate b c (sizeSub (b.fillSize - c) c) = .refused ∨
    (2 * c ≤ b.fillSize + 1 ∧ lineFate b c (sizeSub (b.fillSize - c) c) = .fits ∧
      lineFate b (b.fillSize - c + 2) (sizeSub (c - 2) (b.fillSize - c + 2)) = .refused)

instance (b : AutoBuffer UInt8) (c : Nat) : Decidable (EndsAt b c) :=
  inferInstanceAs (Decidable (_ ∨ _ ∨ _ ∨ _ ∨ _))

theorem find_none_later (hm : pMatch.length ≤ b.fillSize) (hfill : b.fillSize ≤ maxSize)
    (hpos : 0 < pMatch.length) (h : b.find c pMatch = some none) (hle : c ≤ c') :
    b.find c' pMatch = some none := by
  rcases b.find_spec c hm hfill with ⟨k, hfound, -⟩ | ⟨-, hnone⟩
  · rw [hfound] at h
    cases h
  · rcases b.find_spec c' hm hfill with ⟨k, -, hk, hat, -⟩ | ⟨hnone', -⟩
    · have hlen := hat.length_le
      rw [List.length_drop, AutoBuffer.content_length] at hlen
      exact absurd hat (hnone k (by omega) (by omega))
    · exact hnone'

/-- Behind an unfinished line the loop comes back to it or stays where it is. -/
theorem loop_ends_unfinished (hfill : b.fillSize ≤ maxSize)
    (hlabel : (endl ++ label).length ≤ b.fillSize) (hc : 2 < m.currentIterator)
    (hlt : m.currentIterator < b.fillSize) (hfind : b.find m.currentIterator endl = some none) :
    LoopEnds b label m ↔ EndsAt b m.currentIterator := by
  have hmax := lt_of_max_size hfill
  have hendl : endl.length = 2 := rfl
  have hleft : sizeSub b.fillSize m.currentIterator = b.fillSize - m.currentIterator :=
    size_sub_eq (Nat.le_of_lt hlt) (by omega)
  by_cases hhalf : 2 * m.currentIterator = b.fillSize
  · refine iff_of_true (loop_ends_blank hlt hfill hlabel hfind ?_) (.inr (.inr (.inl hhalf)))
    rw [Option.getD_none, hleft]
    omega
  · have hend : (none : Option Nat).getD (sizeSub b.fillSize m.currentIterator) =
        b.fillSize - m.currentIterator := Option.getD_none.trans hleft
    have hnext : sizeAdd (b.fillSize - m.currentIterator) endl.length =
        b.fillSize - m.currentIterator + 2 := size_add_eq (by omega)
    have hne : b.fillSize - m.currentIterator ≠ m.currentIterator := by omega
    have hEndsAt : EndsAt b m.currentIterator ↔
        lineFate b m.currentIterator (sizeSub (b.fillSize - m.currentIterator) m.currentIterator) =
          .refused ∨ (2 * m.currentIterator ≤ b.fillSize + 1 ∧
            lineFate b m.currentIterator
              (sizeSub (b.fillSize - m.currentIterator) m.currentIterator) = .fits ∧
            lineFate b (b.fillSize - m.currentIterator + 2)
              (sizeSub (m.currentIterator - 2) (b.fillSize - m.currentIterator + 2)) = .refused) := by
      simp only [EndsAt, hfind, Nat.not_le_of_lt hlt, ne_eq, not_true_eq_false, hhalf, false_or]
    rw [hEndsAt]
    cases hfate : lineFate b m.currentIterator
        (sizeSub (b.fillSize - m.currentIterator) m.currentIterator) with
    | refused =>
      rw [loop_ends_line label hlt hfill hfind hend hne, hfate]
      simp
    | outside =>
      rw [loop_ends_line label hlt hfill hfind hend hne, hfate]
      simp
    | fits =>
      obtain ⟨hresult, hcur⟩ := line_pass_fate hfind hend hne (by omega)
      rw [hfate] at hresult
      obtain ⟨m', hok⟩ := hresult
      have hm' := hcur m' hok
      rw [hnext] at hm'
      rw [loop_ends_pass ⟨hlt, hok⟩, hm']
      simp only [reduceCtorEq, true_and, false_or]
      -- past the middle the pass goes back, before it the one behind it does
      have hmiddle : m.currentIterator < b.fillSize - m.currentIterator + 2 ↔
          2 * m.currentIterator ≤ b.fillSize + 1 := by omega
      rw [hmiddle]
      refine and_congr_right fun hforth => ?_
      have hlt' : m'.currentIterator < b.fillSize := by omega
      have hleft' : sizeSub b.fillSize m'.currentIterator = m.currentIterator - 2 := by
        rw [hm', size_sub_eq (by omega) (by omega)]
        omega
      have hback : sizeAdd (m.currentIterator - 2) endl.length = m.currentIterator := by
        rw [size_add_eq (by omega)]
        omega
      have hfind' : b.find m'.currentIterator endl = some none :=
        find_none_later (by omega) hfill (by decide) hfind (by omega)
      rw [loop_ends_line label hlt' hfill hfind' (Option.getD_none.trans hleft') (by omega), hback,
        hm']
      cases lineFate b (b.fillSize - m.currentIterator + 2)
          (sizeSub (m.currentIterator - 2) (b.fillSize - m.currentIterator + 2)) with
      | refused => simp
      | outside => simp
      | fits =>
        simp only [reduceCtorEq, iff_false]
        exact fun h => absurd h.1 (by omega)

theorem endl_at (h : endl <+: b.content.drop e) (hle : e ≤ b.fillSize) :
    b.buffer[e]? = some cr ∧ e + endl.length ≤ b.fillSize := by
  obtain ⟨rest, hrest⟩ := h
  have hlen := congrArg List.length hrest
  rw [List.length_append, List.length_drop, AutoBuffer.content_length] at hlen
  have hendl : endl.length = 2 := rfl
  refine ⟨?_, by omega⟩
  rw [b.buffer_split, List.getElem?_append_left (by rw [AutoBuffer.content_length]; omega)]
  exact get_of_drop hrest.symm

/-- Over whole lines the loop goes on, so the last line decides. -/
theorem loop_ends_iff (fuel : Nat) (hfill : b.fillSize ≤ maxSize)
    (hlabel : (endl ++ label).length ≤ b.fillSize)
    (hc : 2 < m.currentIterator) (hfuel : b.fillSize ≤ m.currentIterator + fuel) :
    LoopEnds b label m ↔ EndsAt b (lastLine b fuel m.currentIterator) := by
  have hmax := lt_of_max_size hfill
  have hendl : endl.length = 2 := rfl
  rw [List.length_append] at hlabel
  induction fuel generalizing m with
  | zero => exact iff_of_true (loop_ends_past hfuel) (.inl hfuel)
  | succ fuel ih =>
    rcases b.find_spec m.currentIterator (m := endl) (by omega) hfill with
      ⟨e, hfind, hle, hat, -⟩ | ⟨hfind, -⟩
    · have hlen := hat.length_le
      rw [List.length_drop, AutoBuffer.content_length] at hlen
      obtain ⟨hcr, hroom⟩ := endl_at hat (by omega)
      have hlt : m.currentIterator < b.fillSize := by omega
      have hsub : sizeSub e m.currentIterator = e - m.currentIterator :=
        size_sub_eq hle (by omega)
      have hstop : b.find m.currentIterator endl ≠ some none := by
        rw [hfind]
        exact fun h => by cases h
      simp only [lastLine, hfind]
      by_cases hblank : e = m.currentIterator
      · rw [if_pos (.inl hblank)]
        refine iff_of_true (loop_ends_blank hlt hfill ?_ hfind hblank) (.inr (.inl hstop))
        rwa [List.length_append]
      · have hfate := whole_line_fate hfill hle hcr (by omega)
        rw [← hsub] at hfate ⊢
        have hline := loop_ends_line label hlt hfill hfind Option.getD_some hblank
        cases hf : lineFate b m.currentIterator (sizeSub e m.currentIterator) with
        | outside => exact absurd hf hfate
        | refused =>
          rw [if_pos (.inr rfl)]
          rw [hf] at hline
          exact iff_of_true (hline.mpr trivial) (.inr (.inl hstop))
        | fits =>
          have hskip : ¬ (e = m.currentIterator ∨ Fate.fits = Fate.refused) := by
            simp [hblank]
          obtain ⟨hresult, hcur⟩ := line_pass_fate hfind Option.getD_some hblank
            (by omega)
          rw [hf] at hresult
          obtain ⟨m', hok⟩ := hresult
          have hm' : m'.currentIterator = e + endl.length :=
            (hcur m' hok).trans (size_add_eq (by omega))
          have hrest : LoopEnds b label m' ↔ EndsAt b (lastLine b fuel m'.currentIterator) :=
            ih (by omega) (by omega)
          rw [if_neg hskip, loop_ends_pass ⟨hlt, hok⟩, ← hm', ← hrest]
          exact and_iff_right (by omega)
    · simp only [lastLine, hfind]
      rcases Nat.lt_or_ge m.currentIterator b.fillSize with hlt | hge
      · refine loop_ends_unfinished hfill ?_ hc hlt hfind
        rwa [List.length_append]
      · exact iff_of_true (loop_ends_past hge) (.inl hge)

/-- A type gives a label, or none, or a size that a string refuses. -/
theorem find_label_cases {contentType : List UInt8} (hlen : contentType.length ≤ maxSize) :
    findLabel contentType = .ok none ∨ findLabel contentType = .error .threw ∨
      ∃ label, findLabel contentType = .ok (some label) ∧ 2 ≤ label.length ∧
        label.length ≤ maxSize := by
  have hcd : labelCd.length = 2 := rfl
  have hend : (contentType ++ [nul])[contentType.length]? = some nul := by
    rw [List.getElem?_append_right (Nat.le_refl _), Nat.sub_self]
    rfl
  have hlast : (ascii "boundary").getLast? = some 121 := by decide
  obtain ⟨found, hfound, hbound⟩ := sub_value_inside (contentType ++ [nul]) equals
    semicolon hlen hend (by decide) hlast (by decide)
  simp only [findLabel, hfound, orOutside, bind, Except.bind]
  split
  · cases found with
    | none => exact .inl rfl
    | some v =>
      simp only [takeString]
      by_cases hlarge : maxSize - labelCd.length < v.resultSize
      · rw [if_pos hlarge]
        exact .inr (.inl rfl)
      · have hmax : 2 ≤ maxSize := by decide +kernel
        rw [if_neg hlarge]
        cases hv : v.result with
        | none => exact .inr (.inr ⟨_, rfl, by simp [hcd], by simpa [hcd] using hmax⟩)
        | some p =>
          have hroom : p + v.resultSize ≤ (contentType ++ [nul]).length := by
            rcases hbound v rfl with hbig | hroom
            · omega
            · exact hroom p hv
          simp only [Blocks.read, if_pos hroom]
          refine .inr (.inr ⟨_, rfl, by simp [hcd], ?_⟩)
          rw [List.length_append, List.length_take, hcd]
          omega
  · exact .inl rfl

/-- An iterator so near to the end of `size_t` that `compare` takes a position
behind it for one in the body. -/
def Wraps (b : AutoBuffer UInt8) (label : List UInt8) (it : Nat) : Prop :=
  2 ^ 64 ≤ it + label.length ∧ it + label.length ≤ 2 ^ 64 + b.fillSize

instance (b : AutoBuffer UInt8) (label : List UInt8) (it : Nat) : Decidable (Wraps b label it) :=
  inferInstanceAs (Decidable (_ ∧ _))

theorem pass_label_wraps (hfull : b.fullSize ≤ maxSize) (hlabel : label.length ≤ maxSize)
    (hw : Wraps b label m.currentIterator) : passLabel b label m = .error .outside := by
  have hmax := lt_of_max_size hlabel
  have hfullmax := lt_of_max_size hfull
  obtain ⟨hover, hback⟩ := hw
  have hready : b.fillSize ≤ b.fullSize := b.ready_le
  have hadd : sizeAdd m.currentIterator label.length =
      m.currentIterator + label.length - 2 ^ 64 := by
    rw [sizeAdd, Nat.mod_eq_sub_mod hover, Nat.mod_eq_of_lt (by omega)]
  have hread : Blocks.read b.buffer m.currentIterator label.length = none := by
    refine if_neg ?_
    have : b.buffer.length = b.fullSize := rfl
    omega
  have hcompare : b.compare m.currentIterator label = none := by
    rw [AutoBuffer.compare, hadd, if_neg (by omega), hread]
    rfl
  simp only [passLabel, hcompare, orOutside, bind, Except.bind]

theorem pass_label_cases (hfill : b.fillSize ≤ maxSize) (hpos : 0 < label.length)
    (hlabel : label.length ≤ maxSize) (hm : m.currentIterator < 2 ^ 64)
    (hw : ¬ Wraps b label m.currentIterator) :
    (label ++ endl <+: b.content.drop m.currentIterator ∧ passLabel b label m =
        .ok { m with currentIterator := m.currentIterator + label.length + endl.length }) ∨
      (¬ label ++ endl <+: b.content.drop m.currentIterator ∧
        ∃ m', passLabel b label m = .error (.returned false m')) := by
  have hmax := lt_of_max_size hlabel
  have hfillmax := lt_of_max_size hfill
  have hendl : endl.length = 2 := rfl
  rcases Nat.lt_or_ge (m.currentIterator + label.length) (2 ^ 64) with hlt | hover
  · have hcompare := AutoBuffer.compare_prefix b _ hpos hlt
    by_cases hhere : label <+: b.content.drop m.currentIterator
    · obtain ⟨rest, hrest⟩ := hhere
      have hlen := congrArg List.length hrest
      rw [List.length_append, List.length_drop, AutoBuffer.content_length] at hlen
      have hnext : sizeAdd m.currentIterator label.length = m.currentIterator + label.length :=
        size_add_eq hlt
      have hline : sizeAdd (m.currentIterator + label.length) endl.length =
          m.currentIterator + label.length + endl.length := size_add_eq (by omega)
      have hbehind : b.content.drop (m.currentIterator + label.length) = rest :=
        drop_add_of_drop hrest.symm
      have hclose := AutoBuffer.compare_prefix b (m.currentIterator + label.length)
        (m := labelCd) (by decide) (by have : labelCd.length = 2 := rfl; omega)
      have hend := AutoBuffer.compare_prefix b (m.currentIterator + label.length)
        (m := endl) (by decide) (by omega)
      rw [← hrest, decide_eq_true (List.prefix_append _ _)] at hcompare
      rw [hbehind] at hclose hend
      rw [← hrest, List.prefix_append_right_inj]
      simp only [passLabel, hcompare, hnext, hclose, hend, hline, orOutside, bind, Except.bind,
        if_true, decide_eq_true_iff]
      by_cases hcd : labelCd <+: rest
      · refine .inr ⟨?_, _, if_pos hcd⟩
        rintro ⟨r, hr⟩
        obtain ⟨r', hr'⟩ := hcd
        exact absurd (List.cons.inj (hr.trans hr'.symm)).1 (by decide)
      · rw [if_neg hcd]
        by_cases hcrlf : endl <+: rest
        · exact .inl ⟨hcrlf, if_pos hcrlf⟩
        · exact .inr ⟨hcrlf, _, if_neg hcrlf⟩
    · rw [decide_eq_false hhere] at hcompare
      refine .inr ⟨fun h => hhere ((List.prefix_append _ _).trans h), m, ?_⟩
      simp only [passLabel, hcompare, orOutside, bind, Except.bind, Bool.false_eq_true, if_false]
  · have hadd : sizeAdd m.currentIterator label.length =
        m.currentIterator + label.length - 2 ^ 64 := by
      rw [sizeAdd, Nat.mod_eq_sub_mod hover, Nat.mod_eq_of_lt (by omega)]
    have hcompare : b.compare m.currentIterator label = some false := by
      rw [AutoBuffer.compare, hadd, if_pos]
      simp only [Wraps, not_and, Nat.not_le] at hw
      have := hw hover
      omega
    have hpast : b.content.drop m.currentIterator = [] := by
      rw [List.drop_eq_nil_iff, AutoBuffer.content_length]
      omega
    refine .inr ⟨fun h => ?_, m, ?_⟩
    · rw [hpast, List.prefix_nil, List.append_eq_nil_iff] at h
      exact absurd h.2 (by decide)
    · simp only [passLabel, hcompare, orOutside, bind, Except.bind, Bool.false_eq_true, if_false]

namespace HttpHeader

/-- The boundary's label of a request that has one. -/
def boundaryLabel (h : HttpHeader) : Option (List UInt8) :=
  match h.getHeaderParameter (ascii "Content-Type") none with
  | none => none
  | some contentType =>
    match findLabel contentType with
    | .ok label => label
    | .error _ => none

/-- `get_multi_part` ends, and each pass of its loop that does not leave it makes
the iterator larger. -/
structure MultiPartEnds (h : HttpHeader) (m : MultiPart) : Prop where
  leaves : ∃ fuel, (h.getMultiPart fuel m).Leaves
  grows : ∀ label m₀ m₁ m₂, h.multiPartStart m = .ok (label, m₀) →
    Relation.ReflTransGen (Pass h.abBody label) m₀ m₁ → Pass h.abBody label m₁ m₂ →
      m₁.currentIterator < m₂.currentIterator

/-- Where the boundary stands at the iterator, the lines behind it come to one
that the loop can be left in. -/
def PartsEnd (h : HttpHeader) (it : Nat) : Prop :=
  ∀ label ∈ h.boundaryLabel, ¬ Wraps h.abBody label it ∧
    (label ++ endl <+: h.abBody.content.drop it →
      EndsAt h.abBody (lastLine h.abBody h.abBody.fillSize (it + label.length + endl.length)))

instance (h : HttpHeader) (it : Nat) : Decidable (h.PartsEnd it) :=
  inferInstanceAs (Decidable (∀ label ∈ h.boundaryLabel, _ ∧ (_ → _)))

variable {h : HttpHeader}

theorem ends_of_start_error (hstart : h.multiPartStart m = .error result) :
    h.MultiPartEnds m ↔ result.Leaves := by
  have hrun : ∀ fuel, h.getMultiPart fuel m = result := by
    intro fuel
    rw [getMultiPart, hstart]
  constructor
  · rintro ⟨⟨fuel, hleaves⟩, -⟩
    rwa [hrun] at hleaves
  · intro hleaves
    refine ⟨⟨0, by rwa [hrun]⟩, fun label m₀ m₁ m₂ hok => ?_⟩
    rw [hstart] at hok
    cases hok

theorem ends_of_start_ok (hstart : h.multiPartStart m = .ok (label, m₀)) :
    h.MultiPartEnds m ↔ LoopEnds h.abBody label m₀ := by
  have hrun : ∀ fuel, h.getMultiPart fuel m = lineLoop h.abBody label fuel m₀ := by
    intro fuel
    rw [getMultiPart, hstart]
  constructor
  · rintro ⟨⟨fuel, hleaves⟩, hgrows⟩
    exact ⟨⟨fuel, by rwa [hrun] at hleaves⟩, fun m₁ m₂ => hgrows label m₀ m₁ m₂ hstart⟩
  · rintro ⟨⟨fuel, hleaves⟩, hgrows⟩
    refine ⟨⟨fuel, by rwa [hrun]⟩, fun label' m₀' m₁ m₂ hok => ?_⟩
    obtain ⟨rfl, rfl⟩ := Prod.mk.inj (Except.ok.inj (hstart.symm.trans hok))
    exact hgrows m₁ m₂

/-- The loop makes progress and the call ends exactly where the iterator does not
wrap around and the lines can be left. -/
theorem multi_part_ends_iff (h : HttpHeader) (m : MultiPart)
    (hheader : h.abHeader.fullSize ≤ maxSize) (hbody : h.abBody.fullSize ≤ maxSize)
    (hm : m.currentIterator < 2 ^ 64) : h.MultiPartEnds m ↔ h.PartsEnd m.currentIterator := by
  have hfill : h.abBody.fillSize ≤ maxSize := h.abBody.ready_le.trans hbody
  have hendl : endl.length = 2 := rfl
  cases htype : h.getHeaderParameter (ascii "Content-Type") none with
  | none =>
    have hstart : h.multiPartStart m = .error (.returned false m) := by
      rw [multiPartStart, htype]
    have hno : h.boundaryLabel = none := by
      rw [boundaryLabel, htype]
    rw [ends_of_start_error hstart, PartsEnd, hno]
    exact iff_of_true trivial (by simp)
  | some contentType =>
    have hlen : contentType.length ≤ maxSize := (header_parameter_length htype).trans hheader
    have hlabelOf : h.boundaryLabel = match findLabel contentType with
        | .ok label => label
        | .error _ => none := by
      rw [boundaryLabel, htype]
    rcases find_label_cases hlen with hfind | hfind | ⟨label, hfind, hpos, hmax⟩
    · have hstart : h.multiPartStart m = .error (.returned false m) := by
        simp only [multiPartStart, htype, hfind, bind, Except.bind]
      rw [hfind] at hlabelOf
      rw [ends_of_start_error hstart, PartsEnd, hlabelOf]
      exact iff_of_true trivial (by simp)
    · have hstart : h.multiPartStart m = .error .threw := by
        simp only [multiPartStart, htype, hfind, bind, Except.bind]
      rw [hfind] at hlabelOf
      rw [ends_of_start_error hstart, PartsEnd, hlabelOf]
      exact iff_of_true trivial (by simp)
    · have hstart : h.multiPartStart m = (do
          let m ← passLabel h.abBody label m
          .ok (label, m)) := by
        simp only [multiPartStart, htype, hfind, bind, Except.bind]
      rw [hfind] at hlabelOf
      have hparts : h.PartsEnd m.currentIterator ↔ ¬ Wraps h.abBody label m.currentIterator ∧
          (label ++ endl <+: h.abBody.content.drop m.currentIterator →
            EndsAt h.abBody (lastLine h.abBody h.abBody.fillSize
              (m.currentIterator + label.length + endl.length))) := by
        rw [PartsEnd, hlabelOf]
        simp only [Option.mem_some_iff, forall_eq']
      rw [hparts]
      by_cases hw : Wraps h.abBody label m.currentIterator
      · rw [pass_label_wraps hbody hmax hw] at hstart
        rw [ends_of_start_error hstart]
        exact iff_of_false id fun hboth => hboth.1 hw
      · rcases pass_label_cases hfill (by omega) hmax hm hw with ⟨hhere, hpass⟩ | ⟨hno, m', hpass⟩
        · rw [hpass] at hstart
          have hroom : (endl ++ label).length ≤ h.abBody.fillSize := by
            have := hhere.length_le
            rw [List.length_drop, AutoBuffer.content_length] at this
            rw [List.length_append] at this ⊢
            omega
          rw [ends_of_start_ok hstart]
          have hloop := loop_ends_iff h.abBody.fillSize
            (m := { m with currentIterator := m.currentIterator + label.length + endl.length })
            hfill hroom (by dsimp only; omega) (by dsimp only; omega)
          exact hloop.trans ⟨fun hends => ⟨hw, fun _ => hends⟩, fun hboth => hboth.2 hhere⟩
        · rw [hpass] at hstart
          rw [ends_of_start_error hstart]
          exact iff_of_true trivial ⟨hw, fun hhere => absurd hhere hno⟩

theorem whole_form_ends : (ofForm (formType [space] [] (ascii "xyz"))
    (formData imageParts endl)).MultiPartEnds ⟨0, [], [], none, 0⟩ :=
  (multi_part_ends_iff (ofForm (formType [space] [] (ascii "xyz")) (formData imageParts endl))
    ⟨0, [], [], none, 0⟩ (by decide +kernel) (by decide +kernel) (by decide)).mpr
    (by decide +kernel)

/-- A form that was cut off in its first header line. -/
def cutOff : HttpHeader :=
  ofForm (formType [space] [] (ascii "b")) (ascii "--b" ++ endl ++ ascii "Content-Dispo")

theorem cut_off_back_and_forth (fuel : Nat) :
    lineLoop cutOff.abBody (ascii "--b") fuel ⟨5, [], [], none, 0⟩ = .running ∧
      lineLoop cutOff.abBody (ascii "--b") fuel ⟨15, [], [], none, 0⟩ = .running := by
  induction fuel with
  | zero => exact ⟨rfl, rfl⟩
  | succ fuel ih =>
    have hforth : linePass cutOff.abBody (ascii "--b") ⟨5, [], [], none, 0⟩ =
        .ok ⟨15, [], [], none, 0⟩ := by decide +kernel
    have hback : linePass cutOff.abBody (ascii "--b") ⟨15, [], [], none, 0⟩ =
        .ok ⟨5, [], [], none, 0⟩ := by decide +kernel
    rw [line_loop_pass (by decide) hforth, line_loop_pass (by decide) hback]
    exact ⟨ih.2, ih.1⟩

/-- There the loop goes back and forth for ever. -/
theorem cut_off_never_ends :
    (∀ fuel, cutOff.getMultiPart fuel ⟨0, [], [], none, 0⟩ = .running) ∧
      ¬ ∀ (h : HttpHeader) (m : MultiPart), h.abHeader.fullSize ≤ maxSize →
        h.abBody.fullSize ≤ maxSize → m.currentIterator < 2 ^ 64 → h.MultiPartEnds m := by
  have hrun : ∀ fuel, cutOff.getMultiPart fuel ⟨0, [], [], none, 0⟩ = .running := by
    intro fuel
    have hstart : cutOff.multiPartStart ⟨0, [], [], none, 0⟩ =
        .ok (ascii "--b", ⟨5, [], [], none, 0⟩) := by decide +kernel
    rw [getMultiPart, hstart]
    exact (cut_off_back_and_forth fuel).1
  refine ⟨hrun, fun hall => ?_⟩
  obtain ⟨⟨fuel, hleaves⟩, -⟩ := hall cutOff ⟨0, [], [], none, 0⟩ (by decide +kernel)
    (by decide +kernel) (by decide)
  rw [hrun] at hleaves
  exact hleaves

end HttpHeader

end Khorost
