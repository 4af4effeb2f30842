import Khorost.Net.MultiPart

namespace Khorost

open Blocks

variable {source front pMatch gap rest w v : List UInt8} {divKV divKK : UInt8}

/-- The first occurrence of a name is found where no quote stands before it. -/
theorem find_match_first (hq : ∀ c ∈ front, c ≠ quote) (hm : pMatch.head? ≠ some quote)
    (hne : pMatch ≠ [])
    (hfirst : ∀ i < front.length, ¬ pMatch <+: (front ++ pMatch ++ rest).drop i)
    (hp : p ≤ front.length) (hn : front.length < p + n) :
    findMatchAt (front ++ pMatch ++ rest) pMatch n p false = some (some front.length) := by
  induction n generalizing p with
  | zero => omega
  | succ n ih =>
    rcases Nat.eq_or_lt_of_le hp with rfl | hlt
    · obtain ⟨c, m, rfl⟩ := List.exists_cons_of_ne_nil hne
      have hc : (front ++ (c :: m) ++ rest)[front.length]? = some c := by simp
      have hcq : c ≠ quote := by simpa using hm
      rw [findMatchAt, hc, read_at]
      simp [hcq]
    · have hc : (front ++ pMatch ++ rest)[p]? = some front[p] := by
        rw [List.append_assoc, List.getElem?_append_left hlt, List.getElem?_eq_getElem hlt]
      have hroom : p + pMatch.length ≤ (front ++ pMatch ++ rest).length := by
        simp only [List.length_append]
        omega
      have hread := mt (read_iff_starts pMatch hroom).mp (hfirst p hlt)
      simp only [Blocks.read, if_pos hroom, Option.some_inj] at hread
      simp only [findMatchAt, hc, Option.bind_eq_bind, Option.bind_some, Blocks.read, if_pos hroom,
        if_neg (hq _ (List.getElem_mem hlt)), if_neg hread, if_true]
      exact ih hlt (by omega)

theorem get_of_drop {c : UInt8} (hs : source.drop p = c :: rest) : source[p]? = some c := by
  rw [← List.head?_drop, hs, List.head?_cons]

theorem drop_succ_of_drop {c : UInt8} (hs : source.drop p = c :: rest) :
    source.drop (p + 1) = rest := by
  rw [← List.drop_drop, hs, List.drop_one, List.tail_cons]

theorem drop_add_of_drop (hs : source.drop p = w ++ rest) : source.drop (p + w.length) = rest := by
  rw [← List.drop_drop, hs, List.drop_left]

/-- A text without a quote and without either separator is passed over. -/
theorem find_value_plain (hw : ∀ c ∈ w, c ≠ quote ∧ c ≠ divKV ∧ c ≠ divKK)
    (hs : source.drop p = w ++ rest) :
    findValue source divKV divKK (w.length + n) p false pStart =
      findValue source divKV divKK n (p + w.length) false pStart := by
  induction w generalizing p with
  | nil => simp
  | cons c w ih =>
    obtain ⟨hq, hkv, hkk⟩ := hw c List.mem_cons_self
    have hnext := ih (fun c hc => hw c (List.mem_cons_of_mem _ hc)) (drop_succ_of_drop hs)
    rw [List.length_cons, Nat.add_right_comm, findValue, get_of_drop hs]
    simp only [Option.bind_eq_bind, Option.bind_some, hq, hkv, hkk, and_false, if_false, hnext]
    congr 1
    omega

/-- So is everything up to the next quote, inside of quotes. -/
theorem find_value_inside (hw : quote ∉ w) (hs : source.drop p = w ++ quote :: rest) :
    findValue source divKV divKK (w.length + 1 + n) p true pStart =
      findValue source divKV divKK n (p + w.length + 1) false pStart := by
  induction w generalizing p with
  | nil =>
    rw [List.length_nil, Nat.zero_add, Nat.add_comm, findValue, get_of_drop hs]
    simp
  | cons c w ih =>
    have hq : c ≠ quote := fun he => hw (he ▸ List.mem_cons_self)
    have hnext := ih (fun hc => hw (List.mem_cons_of_mem _ hc)) (drop_succ_of_drop hs)
    have hlen : (c :: w).length + 1 + n = w.length + 1 + n + 1 := by
      rw [List.length_cons]
      omega
    rw [hlen, findValue, get_of_drop hs]
    simp only [Option.bind_eq_bind, Option.bind_some, hq, Bool.true_eq_false, false_and, if_false,
      hnext]
    congr 1
    rw [List.length_cons]
    omega

theorem find_value_quoted (hw : quote ∉ w) (hs : source.drop p = quote :: w ++ quote :: rest) :
    findValue source divKV divKK ((quote :: w).length + 1 + n) p false pStart =
      findValue source divKV divKK n (p + (quote :: w).length + 1) false pStart := by
  have hin : findValue source divKV divKK (w.length + 1 + n) (p + 1) true pStart =
      findValue source divKV divKK n (p + 1 + w.length + 1) false pStart :=
    find_value_inside hw (drop_succ_of_drop hs)
  have hlen : (quote :: w).length + 1 + n = w.length + 1 + n + 1 := by
    rw [List.length_cons]
    omega
  rw [hlen, findValue, get_of_drop hs]
  simp only [Option.bind_eq_bind, Option.bind_some, if_true, Bool.not_false, hin]
  congr 1
  rw [List.length_cons]
  omega

theorem find_value_separator (hq : divKV ≠ quote) (hs : source.drop p = divKV :: rest) :
    findValue source divKV divKK (n + 1) p false pStart =
      findValue source divKV divKK n (p + 1) false (some (p + 1)) := by
  rw [findValue, get_of_drop hs]
  simp [hq]

/-- How a value may stand in a line: bare, or between quotes. -/
inductive Written (divKV divKK : UInt8) (v : List UInt8) : List UInt8 → Prop
  | bare (hne : v ≠ []) (hclear : ∀ c ∈ v, c ≠ quote ∧ c ≠ divKV ∧ c ≠ divKK)
    (hhead : v.head? ≠ some space) (hlast : v.getLast? ≠ some space) : Written divKV divKK v []
  | quoted (hclear : quote ∉ v) : Written divKV divKK v [quote]

theorem spaces_at_run (hgap : ∀ c ∈ gap, c = space) (hw : w.head? ≠ some space) (hne : w ≠ []) :
    spacesAt (gap ++ w) = some gap.length := by
  induction gap with
  | nil =>
    obtain ⟨c, w, rfl⟩ := List.exists_cons_of_ne_nil hne
    have hc : c ≠ space := by simpa using hw
    simp [spacesAt, hc]
  | cons c gap ih =>
    obtain rfl := hgap c List.mem_cons_self
    simp [spacesAt, ih fun c hc => hgap c (List.mem_cons_of_mem _ hc)]

theorem spaces_back_stay (h : source[p]? = some c) (hc : c ≠ space) :
    spacesBack source p = some p := by
  cases p <;> simp [spacesBack, h, hc]

theorem size_sub_add (a : Nat) (hb : b < 2 ^ 64) : sizeSub (a + b) a = b := by
  rw [size_sub_eq (Nat.le_add_right ..) (by omega), Nat.add_sub_cancel_left]

/-- Both ends of a written value are trimmed to the value. -/
theorem trim_written (hgap : ∀ c ∈ gap, c = space) (hv : Written divKV divKK v q)
    (hlen : v.length < 2 ^ 64) (hs : source.drop pStart = gap ++ q ++ v ++ q ++ rest) :
    trimValue source pStart (pStart + (gap ++ q ++ v ++ q).length - 1) =
      some ⟨some (pStart + (gap ++ q).length), v.length⟩ := by
  cases hv with
  | bare hne hclear hhead hlast =>
    simp only [List.append_nil] at hs ⊢
    have hspaces : spacesAt (source.drop pStart) = some gap.length := by
      obtain ⟨c, w, rfl⟩ := List.exists_cons_of_ne_nil hne
      rw [hs, List.append_assoc]
      exact spaces_at_run hgap (by simpa using hhead) (by simp)
    have hat : source.drop (pStart + gap.length) = v ++ rest :=
      drop_add_of_drop (by rw [hs, List.append_assoc])
    obtain ⟨c, hc⟩ : ∃ c, v.getLast? = some c := ⟨_, List.getLast?_eq_some_getLast hne⟩
    have hcmem : c ∈ v := List.mem_of_getLast? hc
    have hpos := List.length_pos_of_ne_nil hne
    have hlastAt : source[pStart + (gap ++ v).length - 1]? = some c := by
      have hi : pStart + (gap ++ v).length - 1 = pStart + gap.length + (v.length - 1) := by
        rw [List.length_append]
        omega
      rw [hi, ← List.getElem?_drop, hat, List.getElem?_append_left (by omega),
        ← List.getLast?_eq_getElem?, hc]
    have hfirstAt : ∃ d ∈ v, source[pStart + gap.length]? = some d := by
      obtain ⟨d, w, rfl⟩ := List.exists_cons_of_ne_nil hne
      exact ⟨d, List.mem_cons_self, get_of_drop hat⟩
    obtain ⟨d, hd, hdat⟩ := hfirstAt
    have hcs : c ≠ space := fun he => hlast (he ▸ hc)
    have hend : pStart + (gap ++ v).length - 1 + 1 = pStart + gap.length + v.length := by
      rw [List.length_append]
      omega
    simp only [trimValue, hspaces, Option.bind_eq_bind, Option.bind_some, hdat,
      if_neg (hclear d hd).1, spaces_back_stay hlastAt hcs, hlastAt, if_neg (hclear c hcmem).1,
      hend, size_sub_add _ hlen]
  | quoted hclear =>
    have hspaces : spacesAt (source.drop pStart) = some gap.length := by
      rw [hs]
      simp only [List.append_assoc]
      exact spaces_at_run hgap
        (fun h => absurd (Option.some.inj h) (by decide : quote ≠ space)) (by simp)
    have hat : source.drop (pStart + gap.length) = quote :: v ++ quote :: rest :=
      drop_add_of_drop (by rw [hs]; simp)
    have hi : pStart + (gap ++ [quote] ++ v ++ [quote]).length - 1 =
        pStart + gap.length + (quote :: v).length := by
      simp only [List.length_append, List.length_cons, List.length_nil]
      omega
    have hlastAt : source[pStart + gap.length + (quote :: v).length]? = some quote :=
      get_of_drop (drop_add_of_drop hat)
    have hend : pStart + gap.length + (quote :: v).length =
        pStart + gap.length + 1 + v.length := by
      rw [List.length_cons]
      omega
    simp only [trimValue, hspaces, Option.bind_eq_bind, Option.bind_some,
      get_of_drop hat, if_true, hi,
      spaces_back_stay hlastAt (by decide : quote ≠ space), hlastAt]
    rw [hend, size_sub_add _ hlen]
    simp [Nat.add_assoc]

/-- The value's loop runs to the end of a written value. -/
theorem find_value_written (hkv : divKV ≠ quote ∧ divKV ≠ space) (hkk : divKK ≠ space)
    (hgap : ∀ c ∈ gap, c = space) (hv : Written divKV divKK v q)
    (hs : source.drop p = divKV :: (gap ++ (q ++ v ++ q ++ rest))) :
    findValue source divKV divKK ((gap.length + (q ++ v ++ q).length) + 1) p false none =
      some (p + 1 + gap.length + (q ++ v ++ q).length, some (p + 1)) := by
  have hplain : ∀ c ∈ gap, c ≠ quote ∧ c ≠ divKV ∧ c ≠ divKK := by
    intro c hc
    obtain rfl := hgap c hc
    exact ⟨by decide, hkv.2.symm, hkk.symm⟩
  have hbehind := drop_succ_of_drop hs
  rw [find_value_separator hkv.1 hs, find_value_plain hplain hbehind]
  have hat := drop_add_of_drop hbehind
  cases hv with
  | bare hne hclear hhead hlast =>
    rw [List.nil_append, List.append_nil] at hat ⊢
    exact find_value_plain (n := 0) hclear hat
  | quoted hclear =>
    have hlen : ([quote] ++ v ++ [quote]).length = (quote :: v).length + 1 := by simp
    rw [hlen]
    exact find_value_quoted (n := 0) hclear (by simpa using hat)

/-- Behind a name, its separator and any number of spaces, the value is found as
it was written. -/
theorem sub_value_written (hq : ∀ c ∈ front, c ≠ quote) (hm : pMatch.head? ≠ some quote)
    (hne : pMatch ≠ []) (hkv : divKV ≠ quote ∧ divKV ≠ space) (hkk : divKK ≠ space)
    (hgap : ∀ c ∈ gap, c = space) (hv : Written divKV divKK v q)
    (hsource : source = front ++ pMatch ++ divKV :: (gap ++ (q ++ v ++ q ++ rest)))
    (hfirst : ∀ i < front.length, ¬ pMatch <+: source.drop i)
    (hsize : size = front.length + pMatch.length + 1 + gap.length + (q ++ v ++ q).length)
    (hlen : size < npos) :
    findSubValue source size pMatch divKV divKK =
      some (some ⟨some (front.length + pMatch.length + 1 + (gap ++ q).length), v.length⟩) := by
  have hmatch : findMatchAt source pMatch (size - pMatch.length + 1) 0 false =
      some (some front.length) := by
    subst hsource
    exact find_match_first hq hm hne hfirst (Nat.zero_le _) (by omega)
  have hat : source.drop (front.length + pMatch.length) =
      divKV :: (gap ++ (q ++ v ++ q ++ rest)) := by
    rw [hsource, ← List.length_append, List.drop_left]
  have hleft : size - (front.length + pMatch.length) = gap.length + (q ++ v ++ q).length + 1 := by
    omega
  have hstop : front.length + pMatch.length + 1 + gap.length + (q ++ v ++ q).length =
      front.length + pMatch.length + 1 + (gap ++ q ++ v ++ q).length := by
    simp only [List.length_append]
    omega
  have hv64 : v.length < 2 ^ 64 := by
    simp only [npos, List.length_append] at hlen hsize
    omega
  have htrim := trim_written hgap hv hv64
    (by simpa using drop_succ_of_drop hat)
  rw [findSubValue, if_neg (by omega : size ≠ npos)]
  simp only [Option.bind_eq_bind, Option.bind_some]
  rw [if_neg (by omega), hmatch]
  simp only [Option.bind_some]
  rw [hleft, find_value_written hkv hkk hgap hv hat, hstop]
  simp only [Option.bind_some]
  rw [htrim, Option.map_some]

end Khorost
