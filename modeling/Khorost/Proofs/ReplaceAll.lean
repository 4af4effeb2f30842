import Khorost.Lib.Replacing
import Khorost.Proofs.BufferOps

namespace Khorost

open Blocks Replacing

variable {α : Type} {realloc : Realloc α} {b b' : RawBuffer α} {xs m r front back : List α}

namespace RawBuffer

variable [DecidableEq α]

/-- A match is replaced, and the two positions are moved. -/
theorem Holds.loop_hit (hr : Succeeds realloc) (h : Holds b (front ++ (m ++ back)))
    (hmax : front.length ≤ maxPos) (hn : (front ++ r ++ back).length < 2 ^ 63) :
    ∃ b', Holds b' (front ++ r ++ back) ∧ ∀ fuel result,
      replaceLoop realloc m r false (fuel + 1) b front.length maxPos result =
        replaceLoop realloc m r false fuel b'
          (if r.length < m.length then front.length + m.length else front.length + r.length)
          (if m.length < r.length then sizeAdd maxPos (r.length - m.length)
            else sizeSub maxPos (m.length - r.length)) true := by
  have hshort := h.short
  have hread := h.read_back (m := m) (by simp)
  rw [List.take_left] at hread
  rw [← List.append_assoc] at h
  obtain ⟨b', hat, hb'⟩ := h.replace_at hr hn
  refine ⟨b', hb', fun fuel result => ?_⟩
  rw [replaceLoop, if_pos hmax, hread]
  simp only [Option.bind_eq_bind, Option.bind_some, if_true, hat]
  simp only [List.length_append] at hshort hn
  rw [size_add_eq (by omega), size_add_eq (by omega)]
  rfl

/-- The loop from behind what it has dealt with: all occurrences are replaced. -/
theorem Holds.loop_grows (hr : Succeeds realloc) (hm : m ≠ []) (hmr : m.length ≤ r.length)
    (h : Holds b (front ++ back)) (hlen : m.length ≤ (front ++ back).length)
    (hn : (front ++ replaceAll m r back).length < 2 ^ 63) (result : Bool)
    (hfuel : back.length < fuel) :
    ∃ b', replaceLoop realloc m r false fuel b front.length ((front ++ back).length - m.length)
        result = some (b', result || decide (m <:+: back)) ∧
      Holds b' (front ++ replaceAll m r back) := by
  have hpos := List.length_pos_of_ne_nil hm
  induction fuel generalizing front back b result with
  | zero => omega
  | succ fuel ih =>
    rw [List.length_append] at hlen
    by_cases hpast : back.length < m.length
    · have hno : ¬ m <:+: back := fun hin => Nat.not_le_of_lt hpast hin.length_le
      rw [loop_past (by rw [List.length_append]; omega), replace_all_clear hno]
      exact ⟨b, by simp [hno], h⟩
    have hmax : front.length ≤ (front ++ back).length - m.length := by
      rw [List.length_append]
      omega
    by_cases hhere : m <+: back
    · obtain ⟨back, rfl⟩ := hhere
      rw [replace_all_hit hm, ← List.append_assoc front r] at hn ⊢
      have hgrow : (front ++ r ++ back).length < 2 ^ 63 := by
        have hle := replace_all_length_le hm hmr back
        rw [List.length_append] at hn ⊢
        omega
      obtain ⟨b₁, hb₁, hloop⟩ := h.loop_hit hr hmax hgrow
      have hlast : (if m.length < r.length then
          sizeAdd ((front ++ (m ++ back)).length - m.length) (r.length - m.length)
          else sizeSub ((front ++ (m ++ back)).length - m.length) (m.length - r.length)) =
          (front ++ r ++ back).length - m.length := by
        simp only [List.length_append] at hgrow ⊢
        split
        · rw [size_add_eq (by omega)]
          omega
        · rw [size_sub_eq (by omega) (by omega)]
          omega
      rw [hloop, if_neg (Nat.not_lt.mpr hmr), hlast, ← List.length_append]
      obtain ⟨b', hb', hholds⟩ := ih hb₁ (by simp only [List.length_append]; omega) hn true
        (by simp only [List.length_append] at hfuel; omega)
      have hin : m <:+: m ++ back := (List.prefix_append m back).isInfix
      exact ⟨b', by simpa [hin] using hb', hholds⟩
    · cases back with
      | nil => exact absurd hpos hpast
      | cons x back =>
        rw [h.loop_miss hmax (by omega) hhere]
        rw [replace_all_miss hhere] at hn ⊢
        have hmove : front ++ x :: back = front ++ [x] ++ back := by simp
        have hmove' : front ++ x :: replaceAll m r back = front ++ [x] ++ replaceAll m r back := by
          simp
        rw [hmove] at h ⊢
        rw [hmove'] at hn ⊢
        obtain ⟨b', hb', hholds⟩ := ih h (by
            simp only [List.length_append, List.length_cons, List.length_nil] at hlen ⊢
            omega) hn result (by simpa using hfuel)
        refine ⟨b', ?_, hholds⟩
        rw [hb']
        have hin : m <:+: x :: back ↔ m <:+: back := by
          rw [List.infix_cons_iff]
          exact or_iff_right hhere
        simp only [hin]

omit [DecidableEq α] in
/-- Behind the filled part there is nothing to be moved. -/
theorem Holds.replace_behind (h : Holds b xs) (hrm : r.length < m.length)
    (hkm : km + m.length < 2 ^ 64) (hbehind : xs.length < km + m.length) :
    b.replaceAt realloc m r km = none := by
  have hgrow : ¬ (r.length - m.length ≠ 0) := by omega
  have hsub : m.length - r.length ≠ 0 := by omega
  have hfill := h.fill
  have hsmall := h.small
  rw [← h.capacity] at hsmall
  have hcount : sizeSub b.readyPosition (km + m.length) =
      b.readyPosition + 2 ^ 64 - (km + m.length) := by
    rw [sizeSub, Nat.mod_eq_of_lt (by omega)]
  have hmove : b.memmove (sizeAdd km r.length) (km + m.length)
      (b.readyPosition + 2 ^ 64 - (km + m.length)) = none := by
    rw [memmove, move, Blocks.read, if_neg (by omega)]
    rfl
  unfold replaceAt
  simp only [if_neg hgrow, size_add_eq hkm, hcount]
  rw [if_pos (.inr hsub), hmove]
  rfl

/-- With less than a match left the last position wraps around, and the loop leaves
the allocation. -/
theorem Holds.loop_runs_off (h : Holds b xs) (hrm : r.length < m.length)
    (hshort : xs.length < m.length) (hlong : m.length < 2 ^ 63) (hmax : 2 ^ 64 - m.length ≤ maxPos)
    (hkm : km ≤ maxPos) (hkm' : km + m.length < 2 ^ 64) (result : Bool) :
    replaceLoop realloc m r false fuel b km maxPos result = none := by
  have hsmall := h.small
  rw [← h.capacity] at hsmall
  induction fuel generalizing km with
  | zero => rfl
  | succ fuel ih =>
    rw [replaceLoop, if_pos hkm]
    by_cases hinside : km + m.length ≤ b.buffer.length
    · rw [Blocks.read, if_pos hinside]
      simp only [Option.bind_eq_bind, Option.bind_some]
      split
      · rw [h.replace_behind hrm hkm' (by omega)]
        rfl
      · rw [size_add_eq (by omega)]
        exact ih (by omega) (by omega)
    · rw [Blocks.read, if_neg hinside]
      rfl

/-- So it is behind an occurrence of which less than a match is left. -/
theorem Holds.hit_runs_off (h : Holds b (front ++ r ++ back)) (hrm : r.length < m.length)
    (hleft : (front ++ r ++ back).length < m.length)
    (hshort : (front ++ (m ++ back)).length < 2 ^ 63) (result : Bool) :
    replaceLoop realloc m r false fuel b (front.length + m.length)
      (sizeSub ((front ++ (m ++ back)).length - m.length) (m.length - r.length)) result = none := by
  simp only [List.length_append] at hleft hshort
  have hwrap : sizeSub ((front ++ (m ++ back)).length - m.length) (m.length - r.length) =
      front.length + back.length + 2 ^ 64 - (m.length - r.length) := by
    simp only [List.length_append]
    rw [sizeSub, Nat.mod_eq_of_lt (by omega)]
    omega
  rw [hwrap]
  exact h.loop_runs_off hrm (by simpa only [List.length_append] using hleft) (by omega) (by omega)
    (by omega) (by omega) result

/-- The loop from behind what it has dealt with: it passes over as much behind
each occurrence as the text gets shorter by, and ends if a match is left. -/
theorem Holds.loop_shrinks (hr : Succeeds realloc) (hrm : r.length < m.length)
    (h : Holds b (front ++ back)) (hlen : m.length ≤ (front ++ back).length)
    (hkm : km = front.length ∨ back = [] ∧ front.length ≤ km) (result : Bool)
    (hfuel : back.length < fuel) :
    let left := front ++ replaceSome m r (m.length - r.length) 0 0 back
    (m.length ≤ left.length → ∃ b', replaceLoop realloc m r false fuel b km
        ((front ++ back).length - m.length) result = some (b', result || decide (m <:+: back)) ∧
      Holds b' left) ∧
    (left.length < m.length → replaceLoop realloc m r false fuel b km
        ((front ++ back).length - m.length) result = none) := by
  have hm : m ≠ [] := by
    rintro rfl
    exact absurd hrm (Nat.not_lt_zero _)
  have hpos := List.length_pos_of_ne_nil hm
  induction fuel generalizing front back b km result with
  | zero => omega
  | succ fuel ih =>
    have hshort := h.short
    rw [List.length_append] at hlen hshort
    by_cases hpast : back.length < m.length
    · have hno : ¬ m <:+: back := fun hin => Nat.not_le_of_lt hpast hin.length_le
      have hover : (front ++ back).length - m.length < km := by
        rw [List.length_append]
        rcases hkm with rfl | ⟨rfl, hle⟩
        · omega
        · rw [List.length_nil] at hlen ⊢
          omega
      rw [loop_past hover, replace_some_clear back hno]
      refine ⟨fun _ => ⟨b, by simp [hno], h⟩, fun hlt => ?_⟩
      rw [List.length_append] at hlt
      omega
    obtain rfl : km = front.length := by
      rcases hkm with hkm | ⟨rfl, -⟩
      · exact hkm
      · exact absurd hpos hpast
    have hmax : front.length ≤ (front ++ back).length - m.length := by
      rw [List.length_append]
      omega
    by_cases hhere : m <+: back
    · obtain ⟨back, rfl⟩ := hhere
      have hin : m <:+: m ++ back := (List.prefix_append m back).isInfix
      rw [List.length_append] at hlen hshort
      obtain ⟨b₁, hb₁, hloop⟩ := h.loop_hit (r := r) hr hmax (by
        simp only [List.length_append]
        omega)
      rw [hloop, if_pos hrm, if_neg (Nat.lt_asymm hrm), replace_some_hit hm]
      by_cases hleft : m.length ≤ (front ++ r ++ back).length
      · -- the next place is behind the elements passed over
        have hlast : sizeSub ((front ++ (m ++ back)).length - m.length) (m.length - r.length) =
            (front ++ r ++ back.take (m.length - r.length) ++
              back.drop (m.length - r.length)).length - m.length := by
          rw [List.append_assoc (front ++ r), List.take_append_drop]
          simp only [List.length_append] at hleft ⊢
          rw [size_sub_eq (by omega) (by omega)]
          omega
        have hb₁' : Holds b₁ (front ++ r ++ back.take (m.length - r.length) ++
            back.drop (m.length - r.length)) := by
          rwa [List.append_assoc (front ++ r), List.take_append_drop]
        have hnext : front.length + m.length =
              (front ++ r ++ back.take (m.length - r.length)).length ∨
            back.drop (m.length - r.length) = [] ∧
              (front ++ r ++ back.take (m.length - r.length)).length ≤
                front.length + m.length := by
          simp only [List.length_append, List.length_take]
          rcases Nat.lt_or_ge back.length (m.length - r.length) with hlt | hge
          · exact .inr ⟨List.drop_eq_nil_of_le (Nat.le_of_lt hlt), by omega⟩
          · exact .inl (by omega)
        have hstep := ih hb₁' (by
            rwa [List.append_assoc (front ++ r), List.take_append_drop]) hnext true
          (by simp only [List.length_drop, List.length_append] at hfuel ⊢; omega)
        rw [hlast]
        simp only [Bool.true_or, List.append_assoc] at hstep ⊢
        simpa [hin] using hstep
      · have hle := replace_some_length_le (r := r) (d := m.length - r.length) (Nat.le_of_lt hrm) 0 0
          (back.drop (m.length - r.length))
        simp only [List.length_drop, Nat.zero_min, Nat.add_zero] at hle
        have hout : (front ++ (r ++ back.take (m.length - r.length) ++ replaceSome m r
            (m.length - r.length) 0 0 (back.drop (m.length - r.length)))).length < m.length := by
          simp only [List.length_append, List.length_take] at hleft ⊢
          omega
        refine ⟨fun hfits => absurd hfits (Nat.not_le_of_lt hout), fun _ => ?_⟩
        exact hb₁.hit_runs_off hrm (Nat.lt_of_not_le hleft) (by
          simp only [List.length_append]
          omega) true
    · cases back with
      | nil => exact absurd hpos hpast
      | cons x back =>
        rw [h.loop_miss hmax (by omega) hhere, replace_some_miss hhere]
        have hmove : front ++ x :: back = front ++ [x] ++ back := by simp
        have hmove' : ∀ ys, front ++ x :: ys = front ++ [x] ++ ys := by simp
        have hin : m <:+: x :: back ↔ m <:+: back := by
          rw [List.infix_cons_iff]
          exact or_iff_right hhere
        simp only [hin]
        rw [hmove] at h ⊢
        rw [hmove']
        exact ih h (by
          simp only [List.length_append, List.length_cons, List.length_nil] at hlen ⊢
          omega) (.inl rfl) result (by simpa using hfuel)

/-- What `replace` is for when it is not for a single occurrence: it comes to an
end, leaves the text with all occurrences replaced, and says whether there was one. -/
def ReplacesAll (realloc : Realloc α) (b : RawBuffer α) (xs m r : List α) : Prop :=
  ∃ b' found, b.replace realloc m r false = some (b', found) ∧ Holds b' (replaceAll m r xs) ∧
    (found = true ↔ m <:+: xs)

theorem Holds.replace_grows (hr : Succeeds realloc) (h : Holds b xs) (hm : m ≠ [])
    (hmr : m.length ≤ r.length) (hn : (replaceAll m r xs).length < 2 ^ 63) :
    ReplacesAll realloc b xs m r := by
  have hfill := h.fill
  have hshort := h.short
  unfold ReplacesAll RawBuffer.replace
  by_cases hfew : b.readyPosition < m.length
  · have hno : ¬ m <:+: xs := fun hin => Nat.not_le_of_lt (hfill ▸ hfew) hin.length_le
    rw [if_pos hfew, replace_all_clear hno]
    exact ⟨b, false, rfl, h, by simp [hno]⟩
  · rw [if_neg hfew, size_sub_eq (by omega) (by omega), hfill]
    have hfuel : xs.length < xs.length + 2 := by omega
    obtain ⟨b', hb', hholds⟩ := Holds.loop_grows hr hm hmr (show Holds b ([] ++ xs) from h)
      (by rw [List.nil_append]; omega) hn false hfuel
    exact ⟨b', _, hb', hholds, by simp⟩

/-- With a shorter text in the place of the match it comes to what is left when
elements behind the occurrences are passed over, unless less than a match is left. -/
theorem Holds.replace_shrinks (hr : Succeeds realloc) (h : Holds b xs)
    (hrm : r.length < m.length) :
    let left := replaceSome m r (m.length - r.length) 0 0 xs
    ((m <:+: xs → m.length ≤ left.length) → ∃ b', b.replace realloc m r false =
        some (b', decide (m <:+: xs)) ∧ Holds b' left) ∧
    (m <:+: xs → left.length < m.length → b.replace realloc m r false = none) := by
  have hfill := h.fill
  have hshort := h.short
  unfold RawBuffer.replace
  by_cases hfew : b.readyPosition < m.length
  · have hno : ¬ m <:+: xs := fun hin => Nat.not_le_of_lt (hfill ▸ hfew) hin.length_le
    rw [if_pos hfew, replace_some_clear xs hno]
    exact ⟨fun _ => ⟨b, by simp [hno], h⟩, fun hin => absurd hin hno⟩
  · rw [if_neg hfew, size_sub_eq (by omega) (by omega), hfill]
    have hfuel : xs.length < xs.length + 2 := by omega
    obtain ⟨hends, hoff⟩ := Holds.loop_shrinks hr hrm (show Holds b ([] ++ xs) from h)
      (by rw [List.nil_append]; omega) (.inl rfl) false hfuel
    refine ⟨fun hleft => hends ?_, fun _ => hoff⟩
    by_cases hin : m <:+: xs
    · exact hleft hin
    · rw [List.nil_append, replace_some_clear xs hin]
      omega

/-- The text put in is no shorter than the match, or no occurrence begins in the
elements behind another by which it is shorter, and as much as a match is left. -/
def LosesNone (m r xs : List α) : Prop :=
  m.length ≤ r.length ∨ Spaced m (m.length - r.length) 0 0 xs ∧
    (m <:+: xs → m.length ≤ (replaceAll m r xs).length)

instance (m r xs : List α) : Decidable (LosesNone m r xs) := inferInstanceAs (Decidable (_ ∨ _ ∧ _))

/-- `replace` does what it is for where it passes over no occurrence and does not
run out of elements, and for a match that does not overlap itself only there. -/
theorem replaces_all_iff (hr : Succeeds realloc) (h : Holds b xs) (hm : m ≠ [])
    (hn : (replaceAll m r xs).length < 2 ^ 63) :
    (LosesNone m r xs → ReplacesAll realloc b xs m r) ∧
      (Unbordered m → ReplacesAll realloc b xs m r → LosesNone m r xs) := by
  by_cases hmr : m.length ≤ r.length
  · exact ⟨fun _ => h.replace_grows hr hm hmr hn, fun _ _ => .inl hmr⟩
  obtain ⟨hends, hoff⟩ := h.replace_shrinks (r := r) (m := m) hr (by omega)
  constructor
  · rintro (hle | ⟨hspaced, hleft⟩)
    · exact absurd hle hmr
    · have hsame : replaceSome m r (m.length - r.length) 0 0 xs = replaceAll m r xs :=
        replace_some_spaced 0 0 xs hspaced
      rw [hsame] at hends
      obtain ⟨b', hb', hholds⟩ := hends hleft
      exact ⟨b', _, hb', hholds, by simp⟩
  · rintro hunbordered ⟨b', found, hb', hholds, -⟩
    have hleft : m <:+: xs → m.length ≤ (replaceSome m r (m.length - r.length) 0 0 xs).length := by
      intro hin
      by_contra hlt
      rw [hoff hin (by omega)] at hb'
      cases hb'
    obtain ⟨b'', hb'', hholds''⟩ := hends hleft
    obtain ⟨rfl, -⟩ := Prod.mk.inj (Option.some.inj (hb''.symm.trans hb'))
    have hsame : replaceSome m r (m.length - r.length) 0 0 xs = replaceAll m r xs := by
      rw [← hholds''.content, hholds.content]
    rw [hsame] at hleft
    exact .inr ⟨(replace_some_eq_iff hunbordered (by omega) hm (by omega) xs).mp hsame, hleft⟩

/-- `a-b` without the dash. -/
theorem dash_removed :
    ReplacesAll (allocate fun _ => 0) ⟨[97, 45, 98], 3, 3⟩ [97, 45, 98] [45] ([] : List UInt8) :=
  (replaces_all_iff (allocate_succeeds fun _ => 0) ⟨rfl, by decide, rfl, by decide, by decide⟩
    (by decide) (by decide)).1 (by decide)

/-- Of two occurrences next to each other the second one stays. -/
theorem second_occurrence_stays :
    ¬ ∀ (realloc : Realloc UInt8), Succeeds realloc → ∀ (b : RawBuffer UInt8) xs m r, Holds b xs →
      m ≠ [] → (replaceAll m r xs).length < 2 ^ 63 → ReplacesAll realloc b xs m r := by
  intro h
  obtain ⟨b', found, hb', hholds, -⟩ := h (allocate fun _ => 0) (allocate_succeeds fun _ => 0)
    ⟨[97, 98, 97, 98], 4, 4⟩ [97, 98, 97, 98] [97, 98] [99]
    ⟨rfl, by decide, rfl, by decide, by decide⟩ (by decide) (by decide)
  have hrun : (RawBuffer.replace (allocate fun _ => 0) ⟨[97, 98, 97, 98], 4, 4⟩ [97, 98] [99]
      false).map (fun p => p.1.content) = some [99, 97, (98 : UInt8)] := by
    decide +kernel
  rw [hb', Option.map_some, hholds.content] at hrun
  exact absurd hrun (by decide)

end RawBuffer

end Khorost
