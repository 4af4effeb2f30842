import Khorost.Net.Accessors

namespace Khorost

namespace PairRegion

/-- The position `k` behind its spaces, if it is trimmed. `none` is an access
outside of the region, here and below. -/
def behindSpaces (buffer : List UInt8) (trim : Bool) (k : Nat) : Option Nat :=
  if trim then (spacesAt (buffer.drop k)).map (k + ·) else some k

/-- An entry with the positions moved by `shift`; `npos` stays. -/
def entry (shift k : Nat) (v : Option Nat) : Nat × Option Nat := (shift + k, v.map (shift + ·))

/-- The loop of `parse_string` with `n` characters to go. -/
def parseLoop (shift : Nat) (div : UInt8) (trim : Bool) :
    Nat → List UInt8 → Nat → Nat → Option Nat → ListPairs → Option (List UInt8 × ListPairs)
  | 0, buffer, _, _, _, target => some (buffer, target)
  | n + 1, buffer, t, k, v, target => do
    let c ← buffer[t]?
    if c = nul then
      let k ← behindSpaces buffer trim k
      some (buffer, target ++ [entry shift k v])
    else if c = div then
      let buffer := buffer.set t nul
      let k ← behindSpaces buffer trim k
      parseLoop shift div trim n buffer (t + 1) (t + 1) none (target ++ [entry shift k v])
    else if c = equals then
      parseLoop shift div trim n (buffer.set t nul) (t + 1) k (some (t + 1)) target
    else parseLoop shift div trim n buffer (t + 1) k v target

/-- `parse_string`, with what it leaves in the region and in the target. -/
def parseString (buffer : List UInt8) (shift : Nat) (target : ListPairs) (div : UInt8)
    (trim : Bool) : Option (List UInt8 × ListPairs) :=
  parseLoop shift div trim buffer.length buffer 0 0 none target

end PairRegion

/-- The region stands in the buffer behind `front`. -/
structure StandsIn (region front back : List UInt8) (b : AutoBuffer UInt8) : Prop where
  split : b.buffer = front ++ region ++ back

namespace StandsIn

variable {region front back : List UInt8} {b : AutoBuffer UInt8}

theorem getElem (h : StandsIn region front back b) (hc : region[t]? = some c) :
    b.buffer[front.length + t]? = some c := by
  obtain ⟨hlt, -⟩ := List.getElem?_eq_some_iff.mp hc
  rw [h.split, List.append_assoc, List.getElem?_append_right (Nat.le_add_right ..),
    Nat.add_sub_cancel_left, List.getElem?_append_left hlt, hc]

theorem set (h : StandsIn region front back b) (hlt : t < region.length) :
    StandsIn (region.set t nul) front back (b.set (front.length + t) nul) := by
  refine ⟨?_⟩
  change b.buffer.set _ _ = _
  rw [h.split, List.append_assoc, List.set_append_right _ _ (Nat.le_add_right ..),
    Nat.add_sub_cancel_left, List.set_append_left _ _ hlt, ← List.append_assoc]

theorem name_position (h : StandsIn region front back b) (hle : k ≤ region.length)
    (hk : PairRegion.behindSpaces region trim k = some k') :
    namePosition b trim (front.length + k) = some (front.length + k') := by
  rw [PairRegion.behindSpaces] at hk
  rw [namePosition]
  split at hk
  · next htrim =>
    obtain ⟨n, hn, rfl⟩ := Option.map_eq_some_iff.mp hk
    rw [if_pos htrim, h.split, List.append_assoc, List.drop_append, List.drop_of_length_le
      (Nat.le_add_right ..), List.nil_append, Nat.add_sub_cancel_left,
      List.drop_append_of_le_length hle, spaces_at_more hn, Option.map_some, Nat.add_assoc]
  · next htrim =>
    cases hk
    exact if_neg htrim

end StandsIn

/-- What is done in the region is done in the buffer that it is a part of. -/
theorem parse_loop_region (h : StandsIn region front back b)
    (hloop : PairRegion.parseLoop front.length div trim n region t k v target =
      some (region', target')) (hkt : k ≤ t) (ht : t ≤ region.length) :
    ∃ b', parseLoop div trim n b (front.length + t) (front.length + k)
        (v.map (front.length + ·)) target = some (b', target') ∧
      StandsIn region' front back b' := by
  induction n generalizing region b t k v target with
  | zero =>
    cases hloop
    exact ⟨b, rfl, h⟩
  | succ n ih =>
    obtain ⟨c, hc, hloop⟩ := Option.bind_eq_some_iff.mp hloop
    obtain ⟨hlt, -⟩ := List.getElem?_eq_some_iff.mp hc
    rw [parseLoop, h.getElem hc]
    simp only [Option.bind_eq_bind, Option.bind_some]
    split at hloop
    · next hnul =>
      obtain ⟨k', hk', hlast⟩ := Option.bind_eq_some_iff.mp hloop
      cases hlast
      rw [if_pos hnul, h.name_position (by omega) hk']
      exact ⟨b, rfl, h⟩
    · next hnul =>
      rw [if_neg hnul]
      split at hloop
      · next hdiv =>
        obtain ⟨k', hk', hrest⟩ := Option.bind_eq_some_iff.mp hloop
        rw [if_pos hdiv, (h.set hlt).name_position (by rw [List.length_set]; omega) hk']
        exact ih (h.set hlt) hrest (Nat.le_refl _) (by rw [List.length_set]; omega)
      · next hdiv =>
        rw [if_neg hdiv]
        split at hloop
        · next heq =>
          rw [if_pos heq]
          exact ih (h.set hlt) hloop (by omega) (by rw [List.length_set]; omega)
        · next heq =>
          rw [if_neg heq]
          exact ih h hloop (by omega) (by omega)

theorem parse_string_region (h : StandsIn region front back b)
    (hrun : PairRegion.parseString region front.length target div trim = some (region', target')) :
    ∃ b', parseString b region.length front.length target div trim = some (b', target') ∧
      StandsIn region' front back b' :=
  parse_loop_region h hrun (Nat.le_refl 0) (Nat.zero_le _)

end Khorost
