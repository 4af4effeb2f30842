import Khorost.Net.MultiPart
import Khorost.Proofs.Capacity
import Khorost.Proofs.ReplaceAll

namespace Khorost

open Blocks Replacing

/-- `realloc` for elements of a size: it may fail at any call. Where it does not,
it provides as many elements as there is room for in the bytes asked for, keeps
what was there, and allocates no more than `PTRDIFF_MAX` bytes. -/
structure Allocator (α : Type) (size : Nat) where
  realloc : Realloc α
  positive : 0 < size
  length : ∀ {old n new}, realloc old n = some new → new.length = sizeMul n size / size
  kept : ∀ {old n new}, realloc old n = some new → old.take new.length <+: new
  most : ∀ {old n new}, realloc old n = some new → new.length * size ≤ maxSize

/-- The capacity that `check_size` records for a demand. -/
def capacityFor (demandSize : Nat) : Nat :=
  sizeMul (demandSize / AutoBuffer.defaultBufferGranulate + 1) AutoBuffer.defaultBufferGranulate

namespace Allocator

variable {α : Type} {size : Nat}

/-- A demand that needs an allocation gets it, and neither its capacity nor the
bytes for it are past the greatest size. -/
def Grants (a : Allocator α size) (b : RawBuffer α) (demandSize : Nat) : Prop :=
  b.fullSize < demandSize → demandSize ≤ capacityFor demandSize ∧
    capacityFor demandSize * size < 2 ^ 64 ∧
    (a.realloc b.buffer (capacityFor demandSize)).isSome

instance (a : Allocator α size) (b : RawBuffer α) (demandSize : Nat) :
    Decidable (a.Grants b demandSize) := inferInstanceAs (Decidable (_ → _))

theorem realloc_length (a : Allocator α size) (hn : n * size < 2 ^ 64)
    (h : a.realloc old n = some new) : new.length = n := by
  rw [a.length h, sizeMul, Nat.mod_eq_of_lt hn, Nat.mul_div_cancel n a.positive]

theorem realloc_most (a : Allocator α size) (h : a.realloc old n = some new) :
    new.length ≤ maxSize :=
  Nat.le_trans (Nat.le_mul_of_pos_right _ a.positive) (a.most h)

/-- As many elements as are asked for, those of an old allocation first. -/
def extended [Inhabited α] (old : List α) (n : Nat) : List α :=
  old.take n ++ List.replicate (n - old.length) default

theorem extended_length [Inhabited α] (old : List α) (n : Nat) : (extended old n).length = n := by
  simp only [extended, List.length_append, List.length_take, List.length_replicate]
  omega

/-- The same allocator with a success in the place of every failure. -/
def assured [Inhabited α] (a : Allocator α size) : Realloc α := fun old n =>
  some (((a.realloc old n).filter fun new => new.length = n).getD (extended old n))

theorem assured_succeeds [Inhabited α] (a : Allocator α size) : Succeeds a.assured where
  grows old n := by
    refine ⟨_, rfl, ?_⟩
    cases hfound : (a.realloc old n).filter fun new => new.length = n with
    | none => exact ⟨extended_length old n, List.prefix_append _ _⟩
    | some new =>
      obtain ⟨hnew, hlen⟩ := Option.filter_eq_some_iff.mp hfound
      have hlen : new.length = n := of_decide_eq_true hlen
      exact ⟨hlen, hlen ▸ a.kept hnew⟩

theorem Grants.least {a : Allocator α size} (h : a.Grants b n) (hmost : b.fullSize ≤ maxSize) :
    n ≤ maxSize := by
  by_cases hgrow : b.fullSize < n
  · obtain ⟨hfits, hbytes, hsome⟩ := h hgrow
    obtain ⟨new, hnew⟩ := Option.isSome_iff_exists.mp hsome
    rw [← a.realloc_length hbytes hnew] at hfits
    exact hfits.trans (a.realloc_most hnew)
  · omega

/-- An allocation that is granted is the one that the assured allocator makes. -/
theorem Grants.check_assured [Inhabited α] {a : Allocator α size} (h : a.Grants b n) (hn : n ≠ 0) :
    b.checkSize a.realloc n = b.checkSize a.assured n := by
  unfold RawBuffer.checkSize
  simp only [if_neg hn]
  split
  · next hgrow =>
    obtain ⟨-, hbytes, hsome⟩ := h hgrow
    obtain ⟨new, hnew⟩ := Option.isSome_iff_exists.mp hsome
    have hfound : (a.realloc b.buffer (capacityFor n)).filter
        (fun new => new.length = capacityFor n) = some new := by
      rw [hnew]
      exact Option.filter_eq_some_iff.mpr ⟨rfl, decide_eq_true (a.realloc_length hbytes hnew)⟩
    have hsame : a.assured b.buffer (capacityFor n) = some new := by
      rw [assured, hfound]
      rfl
    rw [capacityFor] at hnew hsame
    rw [hnew, hsame]
  · rfl

theorem Grants.grown_most {a : Allocator α size} (h : a.Grants b n) (hmost : b.fullSize ≤ maxSize) :
    RawBuffer.grown b.fullSize n ≤ maxSize := by
  have hn := h.least hmost
  unfold RawBuffer.grown
  split
  · next hgrow =>
    obtain ⟨-, hbytes, hsome⟩ := h hgrow
    obtain ⟨new, hnew⟩ := Option.isSome_iff_exists.mp hsome
    have hcap : (n / AutoBuffer.defaultBufferGranulate + 1) * AutoBuffer.defaultBufferGranulate =
        capacityFor n := by
      have := lt_of_max_size hn
      simp only [capacityFor, AutoBuffer.defaultBufferGranulate, sizeMul]
      omega
    rw [hcap, ← a.realloc_length hbytes hnew]
    exact a.realloc_most hnew
  · exact hmost

end Allocator

namespace RawBuffer

variable {α : Type} {size : Nat} {a : Allocator α size} {b b' : RawBuffer α}
  {xs ys m r front back : List α}

/-- A buffer that holds `xs`, with an allocation of a size that there is. -/
structure Stands (b : RawBuffer α) (xs : List α) : Prop extends Holds b xs where
  most : b.fullSize ≤ maxSize

theorem Stands.ready (h : Stands b xs) : b.readyPosition ≤ maxSize := h.fits.trans h.most

theorem check_default (realloc : Realloc α) (h : b.readyPosition ≤ maxSize) :
    b.checkSize realloc 0 =
      b.checkSize realloc (b.readyPosition + AutoBuffer.defaultBufferGranulate) := by
  have hlt := lt_of_max_size h
  have hne : b.readyPosition + AutoBuffer.defaultBufferGranulate ≠ 0 := by
    simp [AutoBuffer.defaultBufferGranulate]
  have hadd : sizeAdd b.readyPosition AutoBuffer.defaultBufferGranulate =
      b.readyPosition + AutoBuffer.defaultBufferGranulate := by
    refine size_add_eq ?_
    simp only [AutoBuffer.defaultBufferGranulate]
    omega
  unfold checkSize
  simp only [if_true, if_neg hne, hadd]

variable [Inhabited α]

theorem Stands.check (h : Stands b xs) (hn : n ≠ 0) (hg : a.Grants b n) :
    Stands (b.checkSize a.realloc n) xs := by
  have hsmall := lt_of_max_size (hg.least h.most)
  have hfull : (b.checkSize a.realloc n).fullSize ≤ maxSize := by
    rw [check_full hn hsmall]
    exact hg.grown_most h.most
  have hheld := (h.toHolds.check a.assured_succeeds hsmall).1
  rw [← hg.check_assured hn] at hheld
  exact ⟨hheld, hfull⟩

theorem Stands.append (h : Stands b xs) (hg : a.Grants b (b.readyPosition + ys.length)) :
    ∃ b', b.append a.realloc ys = some b' ∧ Stands b' (xs ++ ys) := by
  have hleast := hg.least h.most
  have hsmall := lt_of_max_size hleast
  have hlen : (xs ++ ys).length = b.readyPosition + ys.length := by
    rw [List.length_append, h.fill]
  have hsame : b.append a.realloc ys = b.append a.assured ys := by
    unfold RawBuffer.append
    rw [size_add_eq (by omega)]
    split
    · next hfree => rw [hg.check_assured (by omega)]
    · rfl
  have hshort : (xs ++ ys).length < 2 ^ 63 := by omega
  obtain ⟨b', hb', hheld⟩ := h.toHolds.append a.assured_succeeds hshort
  refine ⟨b', hsame.trans hb', hheld, ?_⟩
  rw [append_full h.toHolds (by omega) hb', hlen]
  exact hg.grown_most h.most

theorem Stands.replace_at (h : Stands b (front ++ m ++ back))
    (hg : m.length < r.length → a.Grants b (b.readyPosition + (r.length - m.length))) :
    ∃ b', b.replaceAt a.realloc m r front.length = some b' ∧ Stands b' (front ++ r ++ back) := by
  have hready := lt_of_max_size h.ready
  have hfill := h.fill
  simp only [List.length_append] at hfill
  have hleast : b.readyPosition + (r.length - m.length) ≤ maxSize := by
    by_cases hmr : m.length < r.length
    · exact (hg hmr).least h.most
    · have := h.ready
      omega
  have hsmall := lt_of_max_size hleast
  have hlen : (front ++ r ++ back).length =
      b.readyPosition + (r.length - m.length) - (m.length - r.length) := by
    simp only [List.length_append]
    omega
  have hcheck : (if r.length - m.length ≠ 0 then
      b.checkSize a.realloc (sizeAdd b.readyPosition (r.length - m.length)) else b) =
      if r.length - m.length ≠ 0 then
        b.checkSize a.assured (sizeAdd b.readyPosition (r.length - m.length)) else b := by
    split
    · rw [size_add_eq (by omega), (hg (by omega)).check_assured (by omega)]
    · rfl
  have hsame : b.replaceAt a.realloc m r front.length = b.replaceAt a.assured m r front.length := by
    unfold replaceAt
    dsimp only
    rw [hcheck]
  obtain ⟨b', hb', hheld⟩ := h.toHolds.replace_at a.assured_succeeds (r := r) (by omega)
  refine ⟨b', hsame.trans hb', hheld, ?_⟩
  rw [replace_at_full h.fits hsmall (by omega) hb', hheld.fill, hlen]
  by_cases hmr : m.length < r.length
  · have hsum : b.readyPosition + (r.length - m.length) - (m.length - r.length) =
        b.readyPosition + (r.length - m.length) := by omega
    rw [hsum]
    exact (hg hmr).grown_most h.most
  · have hfits := h.fits
    rw [grown_of_le (by omega)]
    exact h.most

omit [Inhabited α] in
/-- What does not make the text longer allocates nothing. -/
theorem replace_at_free (hmr : r.length ≤ m.length) (realloc realloc' : Realloc α) :
    b.replaceAt realloc m r km = b.replaceAt realloc' m r km := by
  have hzero : ¬ r.length - m.length ≠ 0 := by omega
  unfold replaceAt
  simp only [if_neg hzero]

omit [Inhabited α] in
theorem replace_at_keeps (hmr : r.length ≤ m.length) (h : b.replaceAt realloc m r km = some b') :
    b'.fullSize = b.fullSize := by
  have hzero : ¬ r.length - m.length ≠ 0 := by omega
  unfold replaceAt at h
  simp only [if_neg hzero] at h
  obtain ⟨moved, hmove, h⟩ := Option.bind_eq_some_iff.mp h
  obtain ⟨copied, hcopy, hlast⟩ := Option.bind_eq_some_iff.mp h
  cases hlast
  refine (memcpy_sizes hcopy).1.trans ?_
  split at hmove
  · exact (memmove_sizes hmove).1
  · cases hmove
    rfl

variable [DecidableEq α]

omit [Inhabited α] in
theorem replace_loop_free (hmr : r.length ≤ m.length) (realloc realloc' : Realloc α) (fuel : Nat) :
    ∀ (b : RawBuffer α) (km maxPos : Nat) (result : Bool),
      replaceLoop realloc m r single fuel b km maxPos result =
        replaceLoop realloc' m r single fuel b km maxPos result := by
  induction fuel with
  | zero => exact fun _ _ _ _ => rfl
  | succ fuel ih =>
    intro b km maxPos result
    simp only [replaceLoop, replace_at_free hmr realloc realloc', ih]

omit [Inhabited α] in
theorem replace_loop_keeps (hmr : r.length ≤ m.length)
    (h : replaceLoop realloc m r single fuel b km maxPos result = some (b', found)) :
    b'.fullSize = b.fullSize := by
  induction fuel generalizing b km maxPos result with
  | zero => cases h
  | succ fuel ih =>
    unfold replaceLoop at h
    split at h
    · obtain ⟨ys, -, h⟩ := Option.bind_eq_some_iff.mp h
      split at h
      · obtain ⟨b₁, hat, h⟩ := Option.bind_eq_some_iff.mp h
        have hkept := replace_at_keeps hmr hat
        dsimp only at h
        split at h
        · cases h
          exact hkept
        · exact (ih h).trans hkept
      · exact ih h
    · cases h
      rfl

/-- What the loop grows by is granted at each match that it comes to. -/
def LoopGranted (a : Allocator α size) (m r : List α) (single : Bool) :
    Nat → RawBuffer α → Nat → Nat → Prop
  | 0, _, _, _ => True
  | fuel + 1, b, km, maxPos =>
    km ≤ maxPos →
      if read b.buffer km m.length = some m then
        a.Grants b (b.readyPosition + (r.length - m.length)) ∧
          (single = false → ∀ b' ∈ b.replaceAt a.realloc m r km,
            LoopGranted a m r single fuel b' (km + r.length) (maxPos + (r.length - m.length)))
      else LoopGranted a m r single fuel b (km + 1) maxPos

omit [Inhabited α] in
instance decideLoop (a : Allocator α size) (m r : List α) (single : Bool) :
    (fuel : Nat) → (b : RawBuffer α) → (km maxPos : Nat) →
      Decidable (LoopGranted a m r single fuel b km maxPos)
  | 0, _, _, _ => .isTrue trivial
  | fuel + 1, b, km, maxPos =>
    have := decideLoop a m r single fuel
    inferInstanceAs (Decidable (km ≤ maxPos →
      if read b.buffer km m.length = some m then
        a.Grants b _ ∧
          (single = false → ∀ b' ∈ b.replaceAt a.realloc m r km,
            LoopGranted a m r single fuel b' _ _)
      else LoopGranted a m r single fuel b _ _))

/-- The loop with a text that is longer than the match, from behind what it has
dealt with. -/
theorem Stands.loop_grows (hmr : m.length < r.length) (hm : single = true ∨ m ≠ [])
    (h : Stands b (front ++ back)) (hlen : m.length ≤ (front ++ back).length) (hkm : km = front.length)
    (hmax : maxPos = (front ++ back).length - m.length)
    (hg : LoopGranted a m r single fuel b km maxPos) (result : Bool) (hfuel : back.length < fuel) :
    ∃ b' found ys, replaceLoop a.realloc m r single fuel b km maxPos result = some (b', found) ∧
      Stands b' ys := by
  induction fuel generalizing front back b km maxPos result with
  | zero => omega
  | succ fuel ih =>
    subst hkm hmax
    have hshort := h.short
    rw [List.length_append] at hlen hshort
    by_cases hpast : back.length < m.length
    · rw [loop_past (by rw [List.length_append]; omega)]
      exact ⟨b, result, _, rfl, h⟩
    have hle : front.length ≤ (front ++ back).length - m.length := by
      rw [List.length_append]
      omega
    have hg := hg hle
    by_cases hhere : m <+: back
    · obtain ⟨back, rfl⟩ := hhere
      have hread := h.toHolds.read_back (m := m) (by simp)
      rw [List.take_left] at hread
      rw [if_pos hread] at hg
      rw [← List.append_assoc] at h
      obtain ⟨b₁, hat, hb₁⟩ := h.replace_at (r := r) fun _ => hg.1
      rw [replaceLoop, if_pos hle, hread]
      simp only [Option.bind_eq_bind, Option.bind_some, if_true, hat]
      cases single with
      | true => exact ⟨b₁, true, _, rfl, hb₁⟩
      | false =>
        have hpos : 0 < m.length := List.length_pos_of_ne_nil (hm.resolve_left (by decide))
        have hready := lt_of_max_size hb₁.ready
        have hsum := hb₁.fill
        have hnext := hg.2 rfl b₁ hat
        simp only [List.length_append] at hlen hshort hsum hfuel hnext ⊢
        rw [if_pos hmr, if_neg (Nat.lt_asymm hmr), size_add_eq (by omega), size_add_eq (by omega)]
        refine ih hb₁ ?_ List.length_append.symm ?_ hnext true (by omega)
        all_goals
          simp only [List.length_append]
          omega
    · cases back with
      | nil =>
        have hnil : m = [] := List.eq_nil_of_length_eq_zero (by simpa using hpast)
        exact absurd (hnil ▸ List.nil_prefix) hhere
      | cons x back =>
        have hmove : front ++ x :: back = front ++ [x] ++ back := by simp
        have hread : read b.buffer front.length m.length ≠ some m := by
          rw [h.toHolds.read_back (Nat.not_lt.mp hpast)]
          exact fun he => hhere (List.prefix_iff_eq_take.mpr (Option.some.inj he).symm)
        rw [if_neg hread] at hg
        rw [h.toHolds.loop_miss hle (Nat.not_lt.mp hpast) hhere]
        rw [hmove] at h hg ⊢
        refine ih h ?_ (by simp) rfl ?_ result (by simpa using hfuel)
        · simp only [List.length_append, List.length_cons, List.length_nil] at hlen ⊢
          omega
        · simpa using hg

/-- A replace of all occurrences is for a match that is not empty, and leaves no
less than a match. -/
def LeavesEnough (m r xs : List α) : Prop :=
  m ≠ [] ∧ (r.length < m.length → m <:+: xs →
    m.length ≤ (replaceSome m r (m.length - r.length) 0 0 xs).length)

instance (m r xs : List α) : Decidable (LeavesEnough m r xs) := inferInstanceAs (Decidable (_ ∧ _))

def ReplaceGranted (a : Allocator α size) (b : RawBuffer α) (m r : List α) (single : Bool) : Prop :=
  m.length < r.length → m.length ≤ b.readyPosition →
    LoopGranted a m r single (b.readyPosition + 2) b 0 (b.readyPosition - m.length)

theorem Stands.replace_free (h : Stands b xs) (hmr : r.length ≤ m.length)
    (henough : single = false → LeavesEnough m r xs) (realloc : Realloc α) :
    ∃ b' found ys, b.replace realloc m r single = some (b', found) ∧ Stands b' ys := by
  -- the allocator is never asked
  let failing : Allocator α 1 := ⟨fun _ _ => none, Nat.one_pos, nofun, nofun, nofun⟩
  let sure : Realloc α := failing.assured
  have hsure : Succeeds sure := failing.assured_succeeds
  have hsame : b.replace realloc m r single = b.replace sure m r single := by
    unfold RawBuffer.replace
    rw [replace_loop_free hmr realloc sure]
  have hkept : ∀ b' found, b.replace sure m r single = some (b', found) →
      b'.fullSize = b.fullSize := by
    intro b' found hb'
    unfold RawBuffer.replace at hb'
    split at hb'
    · cases hb'
      rfl
    · exact replace_loop_keeps hmr hb'
  obtain ⟨b', found, ys, hb', hheld⟩ : ∃ b' found ys, b.replace sure m r single =
      some (b', found) ∧ Holds b' ys := by
    have hshort := h.short
    cases single with
    | true =>
      obtain ⟨b', hb', hheld⟩ := h.toHolds.replace hsure (m := m) (r := r) (by
        cases hfirst : replaceFirst m r xs with
        | none => exact hshort
        | some ys =>
          obtain ⟨front, back, rfl, rfl, -⟩ := replace_first_some hfirst
          simp only [Option.getD_some, List.length_append] at hshort ⊢
          omega)
      exact ⟨b', _, _, hb', hheld⟩
    | false =>
      obtain ⟨hm, hleft⟩ := henough rfl
      rcases Nat.lt_or_eq_of_le hmr with hlt | heq
      · obtain ⟨b', hb', hheld⟩ := (h.toHolds.replace_shrinks hsure hlt).1 (hleft hlt)
        exact ⟨b', _, _, hb', hheld⟩
      · obtain ⟨b', found, hb', hheld, -⟩ := h.toHolds.replace_grows hsure hm (r := r) heq.ge
          (Nat.lt_of_le_of_lt (replace_all_length_ge hmr xs) hshort)
        exact ⟨b', found, _, hb', hheld⟩
  refine ⟨b', found, ys, hsame.trans hb', hheld, ?_⟩
  rw [hkept b' found hb']
  exact h.most

theorem Stands.replace (h : Stands b xs) (hg : ReplaceGranted a b m r single)
    (henough : single = false → LeavesEnough m r xs) :
    ∃ b' found ys, b.replace a.realloc m r single = some (b', found) ∧ Stands b' ys := by
  rcases Nat.lt_or_ge m.length r.length with hmr | hmr
  · have hfill := h.fill
    have hshort := h.short
    unfold RawBuffer.replace
    split
    · exact ⟨b, false, xs, rfl, h⟩
    · next hlong =>
      have hm : single = true ∨ m ≠ [] := by
        cases single with
        | true => exact .inl rfl
        | false => exact .inr (henough rfl).1
      rw [size_sub_eq (by omega) (by omega)]
      have h : Stands b ([] ++ xs) := h
      exact Stands.loop_grows hmr hm h (by rw [List.nil_append]; omega) rfl
        (by rw [List.nil_append, hfill]) (hg hmr (by omega)) false (by omega)
  · exact h.replace_free hmr henough a.realloc

end RawBuffer

namespace Growing

open Allocator RawBuffer

variable {α : Type} {size : Nat}

inductive Operation (α : Type)
  | append (xs : List α)
  | checkSize (demandSize : Nat)
  | replace (match_ replace_ : List α) (single : Bool)

/-- An operation with the `realloc` that there is while it is done. -/
structure Step (α : Type) (size : Nat) where
  allocator : Allocator α size
  operation : Operation α

/-- A buffer whose recorded capacity is that of its allocation. -/
structure Allocated (α : Type) extends AutoBuffer α where
  most : buffer.length ≤ maxSize

theorem Allocated.stands (b : Allocated α) : Stands b.raw b.content := by
  have hmost := lt_of_max_size b.most
  have hready := b.ready_le
  have hlen : b.content.length = b.readyPosition := b.content_length
  refine ⟨⟨rfl, ?_, hlen.symm, ?_, List.take_prefix _ _⟩, b.most⟩
  · change b.buffer.length ≤ _
    omega
  · omega

/-- The recorded capacity is allocated, and the fill is within it. -/
structure Sound (b : RawBuffer α) : Prop where
  capacity : b.fullSize ≤ b.buffer.length
  filled : b.readyPosition ≤ b.fullSize

theorem stands_sound {b : RawBuffer α} (h : Stands b xs) : Sound b :=
  ⟨Nat.le_of_eq h.capacity.symm, h.fits⟩

variable [DecidableEq α]

def perform (realloc : Realloc α) (b : RawBuffer α) : Operation α → Option (RawBuffer α)
  | .append xs => b.append realloc xs
  | .checkSize demandSize => some (b.checkSize realloc demandSize)
  | .replace match_ replace_ single => (b.replace realloc match_ replace_ single).map Prod.fst

/-- What an operation leaves of the content. What `replace` puts into it is not
looked at here. -/
def Follows (xs ys : List α) : Operation α → Prop
  | .append more => ys = xs ++ more
  | .checkSize _ => ys = xs
  | .replace .. => True

/-- In every state of the run the capacity recorded is there, and no operation
accesses anything else. -/
def Keeps : RawBuffer α → List (Step α size) → Prop
  | b, [] => Sound b
  | b, step :: run => Sound b ∧ ∃ b', perform step.allocator.realloc b step.operation = some b' ∧
      Follows b.content b'.content step.operation ∧ Keeps b' run

/-- The allocations that an operation asks for are granted, and a replace of all
occurrences leaves enough for it to come to an end. -/
def Step.Granted (step : Step α size) (b : RawBuffer α) : Prop :=
  match step.operation with
  | .append xs => step.allocator.Grants b (b.readyPosition + xs.length)
  | .checkSize demandSize =>
    step.allocator.Grants b
      (if demandSize = 0 then b.readyPosition + AutoBuffer.defaultBufferGranulate else demandSize)
  | .replace match_ replace_ single =>
    ReplaceGranted step.allocator b match_ replace_ single ∧
      (single = false → LeavesEnough match_ replace_ b.content)

/-- Every operation of a run is granted what it asks for. -/
def Granted : RawBuffer α → List (Step α size) → Prop
  | _, [] => True
  | b, step :: run => step.Granted b ∧
      ∀ b' ∈ perform step.allocator.realloc b step.operation, Granted b' run

instance (step : Step α size) (b : RawBuffer α) : Decidable (step.Granted b) :=
  match step with
  | ⟨_, .append _⟩ | ⟨_, .checkSize _⟩ => inferInstanceAs (Decidable (_ → _))
  | ⟨_, .replace ..⟩ => inferInstanceAs (Decidable ((_ → _ → LoopGranted ..) ∧ (_ → _)))

instance decideGranted : (b : RawBuffer α) → (run : List (Step α size)) → Decidable (Granted b run)
  | _, [] => .isTrue trivial
  | _, _ :: run =>
    have := fun b' => decideGranted b' run
    inferInstanceAs (Decidable (_ ∧ ∀ b' ∈ _, _))

variable [Inhabited α]

theorem step_stands {step : Step α size} {b : RawBuffer α} (h : Stands b xs)
    (hg : step.Granted b) :
    ∃ b' ys, perform step.allocator.realloc b step.operation = some b' ∧ Stands b' ys ∧
      Follows xs ys step.operation := by
  obtain ⟨a, operation⟩ := step
  cases operation with
  | append more =>
    obtain ⟨b', hb', hstands⟩ := h.append hg
    exact ⟨b', _, hb', hstands, rfl⟩
  | checkSize demandSize =>
    refine ⟨_, xs, rfl, ?_, rfl⟩
    change a.Grants b (if demandSize = 0 then _ else demandSize) at hg
    split at hg
    · next hzero =>
      subst hzero
      rw [check_default _ h.ready]
      exact h.check (by simp [AutoBuffer.defaultBufferGranulate]) hg
    · next hne => exact h.check hne hg
  | replace match_ replace_ single =>
    obtain ⟨hgrows, henough⟩ := hg
    rw [h.content] at henough
    obtain ⟨b', found, ys, hb', hstands⟩ := h.replace hgrows henough
    exact ⟨b', ys, congrArg (Option.map Prod.fst) hb', hstands, trivial⟩

theorem run_keeps {b : RawBuffer α} (h : Stands b xs) (run : List (Step α size))
    (hg : Granted b run) : Keeps b run := by
  induction run generalizing b xs with
  | nil => exact stands_sound h
  | cons step run ih =>
    obtain ⟨hstep, hrest⟩ := hg
    obtain ⟨b', ys, hb', hstands, hfollows⟩ := step_stands h hstep
    refine ⟨stands_sound h, b', hb', ?_, ih hstands (hrest b' hb')⟩
    rw [h.content, hstands.content]
    exact hfollows

/-- In every run in which what is asked for is granted the recorded capacity is
what is allocated, and only that is accessed. -/
theorem granted_run_keeps (b : Allocated α) (run : List (Step α size)) (h : Granted b.raw run) :
    Keeps b.raw run :=
  run_keeps b.stands run h

/-- `realloc` with all of the bytes up to the greatest size. -/
def plentyOf (old : List UInt8) (n : Nat) : Option (List UInt8) :=
  if n ≤ maxSize then some (extended old n) else none

theorem plenty_of_some (h : plentyOf old n = some new) : n ≤ maxSize ∧ extended old n = new :=
  (Option.ite_none_right_eq_some.mp h).imp_right Option.some.inj

theorem plenty_length (h : plentyOf old n = some new) : new.length = sizeMul n 1 / 1 := by
  obtain ⟨hn, rfl⟩ := plenty_of_some h
  have := lt_of_max_size hn
  rw [extended_length, sizeMul, Nat.mul_one, Nat.div_one, Nat.mod_eq_of_lt (by omega)]

theorem plenty_kept (h : plentyOf old n = some new) : old.take new.length <+: new := by
  obtain ⟨-, rfl⟩ := plenty_of_some h
  rw [extended_length]
  exact List.prefix_append _ _

theorem plenty_most (h : plentyOf old n = some new) : new.length * 1 ≤ maxSize := by
  obtain ⟨hn, rfl⟩ := plenty_of_some h
  rwa [extended_length, Nat.mul_one]

def plenty : Allocator UInt8 1 := ⟨plentyOf, Nat.one_pos, plenty_length, plenty_kept, plenty_most⟩

def nothing : Allocator UInt8 1 := ⟨fun _ _ => none, Nat.one_pos, nofun, nofun, nofun⟩

def fresh : Allocated UInt8 := ⟨AutoBuffer.empty fun _ => 0, Nat.zero_le _⟩

theorem three_steps_keep :
    Keeps fresh.raw [⟨plenty, .append [1, 2, 1]⟩, ⟨nothing, .checkSize 1000⟩,
      ⟨plenty, .replace [1] [3, 4] false⟩] :=
  granted_run_keeps fresh _ (by decide +kernel)

/-- The capacity is recorded although nothing is allocated. -/
theorem failed_growth_recorded :
    ¬ ∀ (b : Allocated UInt8) (run : List (Step UInt8 1)), Keeps b.raw run := by
  intro h
  obtain ⟨-, b', hb', -, hsound⟩ := h fresh [⟨nothing, .checkSize 1⟩]
  cases hb'
  exact absurd hsound.capacity (by decide)

end Growing

end Khorost
