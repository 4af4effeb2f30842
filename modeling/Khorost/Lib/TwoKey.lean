import Khorost.Lib.Maps

namespace Maps

variable {κ ν : Type} [DecidableEq κ]

/-- An index in which every value is found under two keys of its own and under
no others. -/
structure TwoKey (first second : ν → κ) (m : κ → Option ν) : Prop where
  own : ∀ {k v}, m k = some v → k = first v ∨ k = second v
  atFirst : ∀ {k v}, m k = some v → m (first v) = some v
  atSecond : ∀ {k v}, m k = some v → m (second v) = some v

variable {first second first' second' : ν → κ} {m : κ → Option ν} {v : ν}

omit [DecidableEq κ] in
/-- The keys of values that are not in the index do not matter. -/
theorem TwoKey.congr (h : TwoKey first second m)
    (hsame : ∀ k v, m k = some v → first' v = first v ∧ second' v = second v) :
    TwoKey first' second' m where
  own := by
    intro k v hv
    obtain ⟨hf, hs⟩ := hsame k v hv
    rw [hf, hs]
    exact h.own hv
  atFirst := by
    intro k v hv
    rw [(hsame k v hv).1]
    exact h.atFirst hv
  atSecond := by
    intro k v hv
    rw [(hsame k v hv).2]
    exact h.atSecond hv

/-- What an entry of the index with a value at two free keys is. -/
theorem insert_pair_some {a b k : κ} {w : ν} (ha : m a = none) (hb : m b = none)
    (hw : insert (insert m b v) a v k = some w) :
    ((k = a ∨ k = b) ∧ w = v) ∨ (k ≠ a ∧ k ≠ b ∧ m k = some w) := by
  by_cases hka : k = a
  · subst hka
    rw [insert_same] at hw
    by_cases hkb : k = b
    · subst hkb
      rw [insert_same, hb] at hw
      exact .inl ⟨.inl rfl, (Option.some.inj hw).symm⟩
    · rw [insert_other hkb, ha] at hw
      exact .inl ⟨.inl rfl, (Option.some.inj hw).symm⟩
  · rw [insert_other hka] at hw
    by_cases hkb : k = b
    · subst hkb
      rw [insert_same, hb] at hw
      exact .inl ⟨.inr rfl, (Option.some.inj hw).symm⟩
    · rw [insert_other hkb] at hw
      exact .inr ⟨hka, hkb, hw⟩

theorem insert_pair_there {a b : κ} (ha : m a = none) (hb : m b = none) :
    insert (insert m b v) a v a = some v ∧ insert (insert m b v) a v b = some v := by
  have hatB : insert m b v b = some v := by
    rw [insert_same, hb]
    rfl
  refine ⟨?_, insert_keeps hatB⟩
  rw [insert_same]
  by_cases hab : a = b
  · rw [hab, hatB]
    rfl
  · rw [insert_other hab, ha]
    rfl

theorem TwoKey.insert (h : TwoKey first second m) (hf : m (first v) = none)
    (hs : m (second v) = none) :
    TwoKey first second (insert (insert m (second v) v) (first v) v) := by
  obtain ⟨hatFirst, hatSecond⟩ := insert_pair_there (v := v) hf hs
  refine ⟨fun hw => ?_, fun hw => ?_, fun hw => ?_⟩
  all_goals rcases insert_pair_some hf hs hw with ⟨hk, rfl⟩ | ⟨-, -, hold⟩
  · exact hk
  · exact h.own hold
  · exact hatFirst
  · exact insert_keeps (insert_keeps (h.atFirst hold))
  · exact hatSecond
  · exact insert_keeps (insert_keeps (h.atSecond hold))

theorem erase_pair_some {a b k : κ} (hw : erase (erase m b) a k = some v) :
    k ≠ a ∧ k ≠ b ∧ m k = some v := by
  obtain ⟨hka, hw⟩ := erase_some hw
  obtain ⟨hkb, hw⟩ := erase_some hw
  exact ⟨hka, hkb, hw⟩

/-- Two keys may be taken out together if no value has just one of them. -/
theorem TwoKey.erase {a b : κ} (h : TwoKey first second m)
    (hpair : ∀ v, m a = some v ∨ m b = some v → first v = a ∧ second v = b) :
    TwoKey first second (erase (erase m b) a) := by
  have hstays : ∀ {k v}, m k = some v → k ≠ a → k ≠ b →
      (first v ≠ a ∧ first v ≠ b) ∧ second v ≠ a ∧ second v ≠ b := by
    intro k v hv hka hkb
    have hnot : ¬ (first v = a ∧ second v = b) := by
      rintro ⟨hf, hs⟩
      rcases h.own hv with hk | hk
      · exact hka (hk.trans hf)
      · exact hkb (hk.trans hs)
    have hfirst := h.atFirst hv
    have hsecond := h.atSecond hv
    refine ⟨⟨fun he => ?_, fun he => ?_⟩, fun he => ?_, fun he => ?_⟩
    · exact hnot (hpair v (.inl (he ▸ hfirst)))
    · exact hnot (hpair v (.inr (he ▸ hfirst)))
    · exact hnot (hpair v (.inl (he ▸ hsecond)))
    · exact hnot (hpair v (.inr (he ▸ hsecond)))
  refine ⟨fun hw => ?_, fun hw => ?_, fun hw => ?_⟩
  all_goals obtain ⟨hka, hkb, hold⟩ := erase_pair_some hw
  · exact h.own hold
  · obtain ⟨⟨hfa, hfb⟩, -⟩ := hstays hold hka hkb
    rw [erase_other hfa, erase_other hfb]
    exact h.atFirst hold
  · obtain ⟨-, hsa, hsb⟩ := hstays hold hka hkb
    rw [erase_other hsa, erase_other hsb]
    exact h.atSecond hold

theorem TwoKey.erased (h : TwoKey first second m) (k : κ) :
    Maps.erase (Maps.erase m (second v)) (first v) k ≠ some v := by
  intro hw
  obtain ⟨hkf, hks, hold⟩ := erase_pair_some hw
  rcases h.own hold with hk | hk
  · exact hkf hk
  · exact hks hk

end Maps
