import Khorost.Net.PairRegion
import Khorost.Proofs.Grounded

namespace Khorost

/-- A call of `parse_string` on a region that holds a terminator. -/
structure ParseCall where
  buffer : List UInt8
  terminated : nul ∈ buffer
  shift : Nat
  target : ListPairs
  div : UInt8
  trim : Bool

/-- One entry stands in front of the next one, with its value. -/
def Precedes (p q : Nat × Option Nat) : Prop := p.1 < q.1 ∧ ∀ v ∈ p.2, v < q.1

/-- A terminated string of a region stands at an offset into it. -/
structure OffsetAt (region : List UInt8) (shift offset : Nat) : Prop where
  least : shift ≤ offset
  inside : offset - shift < region.length
  ends : TextAt region (offset - shift)

theorem OffsetAt.kept (h : OffsetAt region shift o) (hk : Kept region after)
    (hlen : after.length = region.length) : OffsetAt after shift o :=
  ⟨h.least, hlen ▸ h.inside, h.ends.kept hk⟩

namespace PairRegion

variable {buffer after : List UInt8} {target entries : ListPairs} {v : Option Nat}

/-- The strings of an entry stand in the region, the value behind the key. -/
structure EntryAt (region : List UInt8) (shift : Nat) (p : Nat × Option Nat) : Prop where
  key : OffsetAt region shift p.1
  value : ∀ v ∈ p.2, OffsetAt region shift v ∧ p.1 < v

/-- What the loop adds from the position `k` of a pending key on. -/
structure Adds (buffer after : List UInt8) (shift k pieces : Nat) (entries : ListPairs) :
    Prop where
  kept : Kept buffer after
  size : after.length = buffer.length
  count : entries.length = pieces + 1
  least : ∀ p ∈ entries, shift + k ≤ p.1
  standing : ∀ p ∈ entries, EntryAt after shift p
  ordered : entries.Pairwise Precedes

theorem offset_at (h : TextAt after k) (shift : Nat) : OffsetAt after shift (shift + k) := by
  have hlt := List.length_pos_of_mem h
  rw [List.length_drop] at hlt
  refine ⟨Nat.le_add_right .., ?_, ?_⟩
  · omega
  · rwa [Nat.add_sub_cancel_left]

theorem behind_spaces_some (hn : buffer[e]? = some nul) (hk : k ≤ e) (trim : Bool) :
    ∃ k', behindSpaces buffer trim k = some k' ∧ k ≤ k' ∧ k' ≤ e := by
  unfold behindSpaces
  split
  · have hat : (buffer.drop k)[e - k]? = some nul := by
      rw [List.getElem?_drop, Nat.add_sub_cancel' hk, hn]
    obtain ⟨m, hm, hspaces⟩ := spaces_at_bounds hat (by decide)
    exact ⟨k + m, by rw [hspaces]; rfl, Nat.le_add_right .., by omega⟩
  · exact ⟨k, rfl, Nat.le_refl k, hk⟩

/-- The entry that is added at a terminator: its key is not trimmed into its value. -/
theorem entry_at (hn : buffer[t]? = some nul) (hk : k ≤ t)
    (hv : ∀ x ∈ v, k < x ∧ x ≤ t ∧ buffer[x - 1]? = some nul) (shift : Nat) (trim : Bool) :
    ∃ k', behindSpaces buffer trim k = some k' ∧ k ≤ k' ∧ k' ≤ t ∧
      EntryAt buffer shift (entry shift k' v) := by
  cases v with
  | none =>
    obtain ⟨k', hk', hle, hle'⟩ := behind_spaces_some hn hk trim
    exact ⟨k', hk', hle, hle', offset_at (.of_nul hn hle') shift, nofun⟩
  | some x =>
    obtain ⟨hkx, hxt, hx⟩ := hv x rfl
    have hkey : k ≤ x - 1 := by omega
    obtain ⟨k', hk', hle, hle'⟩ := behind_spaces_some hx hkey trim
    have hkey : TextAt buffer k' := .of_nul hn (by omega)
    refine ⟨k', hk', hle, by omega, offset_at hkey shift, fun o ho => ?_⟩
    cases ho
    exact ⟨offset_at (.of_nul hn hxt) shift, Nat.add_lt_add_left (by omega) shift⟩

theorem EntryAt.kept (h : EntryAt region shift p) (hk : Kept region after)
    (hlen : after.length = region.length) : EntryAt after shift p :=
  ⟨h.key.kept hk hlen, fun v hv => (h.value v hv).imp (·.kept hk hlen) id⟩

theorem Adds.last (he : EntryAt buffer shift p) (hk : shift + k ≤ p.1) :
    Adds buffer buffer shift k 0 [p] where
  kept := .refl buffer
  size := rfl
  count := rfl
  least := by
    intro q hq
    rwa [List.mem_singleton.mp hq]
  standing := by
    intro q hq
    rwa [List.mem_singleton.mp hq]
  ordered := List.pairwise_singleton _ _

/-- The entry of a piece in front of what the rest of the text adds. -/
theorem Adds.cons (h : Adds buffer after shift (t + 1) pieces entries)
    (he : EntryAt buffer shift (entry shift k' v)) (hk : k ≤ k') (hk' : k' ≤ t)
    (hv : ∀ x ∈ v, x ≤ t) :
    Adds buffer after shift k (pieces + 1) (entry shift k' v :: entries) where
  kept := h.kept
  size := h.size
  count := congrArg (· + 1) h.count
  least := by
    intro p hp
    rcases List.mem_cons.mp hp with rfl | hp
    · exact Nat.add_le_add_left hk shift
    · have := h.least p hp
      omega
  standing := by
    intro p hp
    rcases List.mem_cons.mp hp with rfl | hp
    · exact he.kept h.kept h.size
    · exact h.standing p hp
  ordered := by
    refine List.pairwise_cons.mpr ⟨fun q hq => ?_, h.ordered⟩
    have hleast := h.least q hq
    refine ⟨?_, fun o ho => ?_⟩
    · change shift + k' < q.1
      omega
    · obtain ⟨x, hx, rfl⟩ := Option.map_eq_some_iff.mp ho
      have := hv x hx
      omega

/-- What is written in front of the rest of the text does not change what that adds. -/
theorem Adds.of_set (h : Adds (buffer.set t nul) after shift k pieces entries) (hle : k' ≤ k) :
    Adds buffer after shift k' pieces entries :=
  { h with
    kept := (Kept.set_nul buffer t).trans h.kept
    size := h.size.trans (List.length_set ..)
    least := fun p hp => Nat.le_trans (Nat.add_le_add_left hle shift) (h.least p hp) }

/-- The loop from a position up to which the text has been dealt with; the key at
`k` and the value at `v` are pending. -/
theorem parse_loop_adds {n : Nat} (hlen : t + n = buffer.length) (hk : k ≤ t)
    (hv : ∀ x ∈ v, k < x ∧ x ≤ t ∧ buffer[x - 1]? = some nul) (hnul : nul ∈ buffer.drop t) :
    ∃ after entries, parseLoop shift div trim n buffer t k v target =
        some (after, target ++ entries) ∧
      Adds buffer after shift k ((cStr (buffer.drop t)).count div) entries := by
  induction n generalizing buffer t k v target with
  | zero =>
    rw [List.drop_of_length_le (by omega)] at hnul
    cases hnul
  | succ n ih =>
    have hlt : t < buffer.length := by omega
    have hdrop := List.drop_eq_getElem_cons hlt
    have hc : buffer[t]? = some buffer[t] := List.getElem?_eq_getElem hlt
    generalize buffer[t] = c at hdrop hc
    have hset : (buffer.set t nul)[t]? = some nul := List.getElem?_set_self hlt
    have hbehind : (buffer.set t nul).drop (t + 1) = buffer.drop (t + 1) :=
      List.drop_set_of_lt (Nat.lt_succ_self t)
    have hvset : ∀ x ∈ v, k < x ∧ x ≤ t ∧ (buffer.set t nul)[x - 1]? = some nul := by
      intro x hx
      obtain ⟨hkx, hxt, hat⟩ := hv x hx
      exact ⟨hkx, hxt, (Kept.set_nul buffer t _ _ hat).elim id id⟩
    rw [parseLoop, hc, hdrop]
    rw [hdrop] at hnul
    simp only [Option.bind_eq_bind, Option.bind_some]
    by_cases hend : c = nul
    · -- the end of the text
      subst hend
      obtain ⟨k', hk', hle, -, hentry⟩ := entry_at hc hk hv shift trim
      rw [if_pos rfl, hk']
      exact ⟨buffer, [entry shift k' v], rfl, .last hentry (Nat.add_le_add_left hle shift)⟩
    have hrest : nul ∈ buffer.drop (t + 1) := (List.mem_cons.mp hnul).resolve_left fun he =>
      hend he.symm
    have hstr : cStr (c :: buffer.drop (t + 1)) = c :: cStr (buffer.drop (t + 1)) :=
      List.takeWhile_cons_of_pos (decide_eq_true hend)
    rw [if_neg hend, hstr]
    by_cases hd : c = div
    · obtain ⟨k', hk', hle, hle', hentry⟩ := entry_at hset hk hvset shift trim
      rw [if_pos hd, hk', hd, List.count_cons_self]
      obtain ⟨after, entries, hloop, hadds⟩ : ∃ after entries,
          parseLoop shift div trim n (buffer.set t nul) (t + 1) (t + 1) none
              (target ++ [entry shift k' v]) =
            some (after, target ++ [entry shift k' v] ++ entries) ∧ Adds (buffer.set t nul) after
              shift (t + 1) ((cStr ((buffer.set t nul).drop (t + 1))).count div) entries :=
        ih (by rw [List.length_set]; omega) (Nat.le_refl _) nofun (by rwa [hbehind])
      rw [hbehind] at hadds
      refine ⟨after, entry shift k' v :: entries, ?_,
        (hadds.cons hentry hle hle' fun x hx => (hv x hx).2.1).of_set (Nat.le_refl k)⟩
      rw [Option.bind_some, hloop, List.append_assoc]
      rfl
    rw [if_neg hd, List.count_cons_of_ne hd]
    by_cases he : c = equals
    · rw [if_pos he]
      obtain ⟨after, entries, hloop, hadds⟩ : ∃ after entries,
          parseLoop shift div trim n (buffer.set t nul) (t + 1) k (some (t + 1)) target =
            some (after, target ++ entries) ∧ Adds (buffer.set t nul) after shift k
              ((cStr ((buffer.set t nul).drop (t + 1))).count div) entries :=
        ih (by rw [List.length_set]; omega) (by omega)
          (fun x hx => by
            cases hx
            exact ⟨by omega, Nat.le_refl _, hset⟩)
          (by rwa [hbehind])
      rw [hbehind] at hadds
      exact ⟨after, entries, hloop, hadds.of_set (Nat.le_refl k)⟩
    · rw [if_neg he]
      exact ih (by omega) (by omega)
        (fun x hx => (hv x hx).imp id fun h => ⟨by omega, h.2⟩) hrest

/-- A call of `parse_string` in the header buffer stays inside a region with a
terminator, and its entries are strings of it. -/
theorem parse_string_adds (h : StandsIn region front back b) (hnul : nul ∈ region)
    (target : ListPairs) (div : UInt8) (trim : Bool) :
    ∃ b' after entries, Khorost.parseString b region.length front.length target div trim =
        some (b', target ++ entries) ∧ StandsIn after front back b' ∧
      Adds region after front.length 0 ((cStr region).count div) entries := by
  obtain ⟨after, entries, hloop, hadds⟩ : ∃ after entries,
      parseString region front.length target div trim = some (after, target ++ entries) ∧
        Adds region after front.length 0 ((cStr region).count div) entries :=
    parse_loop_adds (Nat.zero_add _) (Nat.le_refl 0) nofun hnul
  obtain ⟨b', hrun, hstands⟩ := parse_string_region h hloop
  exact ⟨b', after, entries, hrun, hstands, hadds⟩

end PairRegion

namespace ParseCall

def run (c : ParseCall) : Option (List UInt8 × ListPairs) :=
  PairRegion.parseString c.buffer c.shift c.target c.div c.trim

/-- What `parse_string` adds: an entry for each piece between dividers, with
strings of the region in their order. -/
structure Records (c : ParseCall) (after : List UInt8) (entries : ListPairs) : Prop where
  size : after.length = c.buffer.length
  count : entries.length = (cStr c.buffer).count c.div + 1
  keys : ∀ p ∈ entries, OffsetAt after c.shift p.1
  values : ∀ p ∈ entries, ∀ v ∈ p.2, OffsetAt after c.shift v ∧ p.1 < v
  ordered : entries.Pairwise Precedes

/-- `parse_string` accesses the region only, and what it records are strings of it. -/
theorem parse_string_records (c : ParseCall) :
    ∃ after entries, c.run = some (after, c.target ++ entries) ∧ c.Records after entries := by
  obtain ⟨after, entries, hrun, hadds⟩ : ∃ after entries,
      c.run = some (after, c.target ++ entries) ∧ PairRegion.Adds c.buffer after c.shift 0
        ((cStr c.buffer).count c.div) entries :=
    PairRegion.parse_loop_adds (Nat.zero_add _) (Nat.le_refl 0) nofun c.terminated
  exact ⟨after, entries, hrun, hadds.size, hadds.count, fun p hp => (hadds.standing p hp).key,
    fun p hp => (hadds.standing p hp).value, hadds.ordered⟩

end ParseCall

end Khorost
