import Mathlib.Data.List.AList

/-- A finite map, with its entries in some order. -/
abbrev Table (κ ν : Type) := AList fun _ : κ => ν

namespace Table

variable {κ ν μ : Type} [DecidableEq κ] {t : Table κ ν} {k key : κ} {v w : ν}

/-- The entries that satisfy a test. -/
def keep (p : κ → ν → Bool) (t : Table κ ν) : Table κ ν :=
  ⟨t.entries.filter fun e => p e.1 e.2, t.nodupKeys.sublist List.filter_sublist⟩

/-- The table with `v` at the key unless something is there already. -/
def insertNew (key : κ) (v : ν) (t : Table κ ν) : Table κ ν :=
  if key ∈ t then t else t.insert key v

/-- The table with `v` at the key if something is there. -/
def assign (key : κ) (v : ν) (t : Table κ ν) : Table κ ν :=
  if key ∈ t then t.insert key v else t

/-- The table with every value changed. -/
def map (f : ν → μ) (t : Table κ ν) : Table κ μ where
  entries := t.entries.map fun e => ⟨e.1, f e.2⟩
  nodupKeys := by
    rw [List.NodupKeys, List.keys, List.map_map]
    exact t.nodupKeys

/-- The table without any of the keys. -/
def eraseAll (keys : List κ) (t : Table κ ν) : Table κ ν := keys.foldl (fun t k => t.erase k) t

theorem lookup_keep (p : κ → ν → Bool) :
    (keep p t).lookup k = some v ↔ t.lookup k = some v ∧ p k v = true := by
  have hentry : ∀ t : Table κ ν, t.lookup k = some v ↔ (⟨k, v⟩ : (_ : κ) × ν) ∈ t.entries :=
    fun t => AList.mem_lookup_iff
  rw [hentry, hentry]
  exact List.mem_filter

theorem lookup_insert (t : Table κ ν) (key k : κ) (v : ν) :
    AList.lookup k (t.insert key v) = if k = key then some v else t.lookup k := by
  split
  · next h =>
    rw [h]
    exact AList.lookup_insert t
  · next h => exact AList.lookup_insert_ne h

theorem lookup_erase (t : Table κ ν) (key k : κ) :
    AList.lookup k (t.erase key) = if k = key then none else t.lookup k := by
  split
  · next h =>
    rw [h]
    exact AList.lookup_erase key t
  · next h => exact AList.lookup_erase_ne h

theorem lookup_insert_new (t : Table κ ν) (key k : κ) (v : ν) :
    (insertNew key v t).lookup k = if k = key then some ((t.lookup key).getD v) else t.lookup k := by
  unfold insertNew
  split
  · next hmem =>
    obtain ⟨w, hw⟩ := Option.isSome_iff_exists.mp (AList.lookup_isSome.mpr hmem)
    rw [hw]
    split
    · next h => rw [h, hw, Option.getD_some]
    · rfl
  · next hmem => rw [lookup_insert, AList.lookup_eq_none.mpr hmem, Option.getD_none]

theorem lookup_assign (t : Table κ ν) (key k : κ) (v : ν) :
    (assign key v t).lookup k = if k = key then (t.lookup key).map fun _ => v else t.lookup k := by
  unfold assign
  split
  · next hmem =>
    obtain ⟨w, hw⟩ := Option.isSome_iff_exists.mp (AList.lookup_isSome.mpr hmem)
    rw [lookup_insert, hw, Option.map_some]
  · next hmem =>
    rw [AList.lookup_eq_none.mpr hmem, Option.map_none]
    split
    · next h =>
      rw [h]
      exact AList.lookup_eq_none.mpr hmem
    · rfl

theorem lookup_erase_all (keys : List κ) (t : Table κ ν) (k : κ) :
    (eraseAll keys t).lookup k = if k ∈ keys then none else t.lookup k := by
  induction keys generalizing t with
  | nil => rfl
  | cons key keys ih =>
    change (eraseAll keys (t.erase key)).lookup k = _
    rw [ih, lookup_erase]
    by_cases hk : k = key
    · simp [hk]
    · simp [hk]

theorem lookup_erase_all_some (keys : List κ) :
    (eraseAll keys t).lookup k = some v ↔ k ∉ keys ∧ t.lookup k = some v := by
  rw [lookup_erase_all]
  split
  · next h => simp [h]
  · next h => simp [h]

theorem lookup_erase_some :
    AList.lookup k (t.erase key) = some v ↔ k ∉ [key] ∧ t.lookup k = some v :=
  lookup_erase_all_some [key]

theorem mem_iff : k ∈ t ↔ ∃ v, t.lookup k = some v :=
  AList.lookup_isSome.symm.trans Option.isSome_iff_exists

theorem mem_keep (p : κ → ν → Bool) :
    k ∈ keep p t ↔ ∃ v, t.lookup k = some v ∧ p k v = true := by
  rw [mem_iff]
  exact exists_congr fun v => lookup_keep p

theorem mem_insert_new : k ∈ insertNew key v t ↔ k = key ∨ k ∈ t := by
  unfold insertNew
  split
  · next hmem =>
    constructor
    · exact .inr
    · rintro (rfl | hk)
      · exact hmem
      · exact hk
  · exact AList.mem_insert t

theorem mem_assign : k ∈ assign key v t ↔ k ∈ t := by
  unfold assign
  split
  · next hmem =>
    rw [AList.mem_insert]
    constructor
    · rintro (rfl | hk)
      · exact hmem
      · exact hk
    · exact .inr
  · exact Iff.rfl

theorem mem_erase_all (keys : List κ) : k ∈ eraseAll keys t ↔ k ∉ keys ∧ k ∈ t := by
  rw [← AList.lookup_isSome, lookup_erase_all, ← AList.lookup_isSome]
  split
  · next h => simp [h]
  · next h => simp [h]

omit [DecidableEq κ] in
theorem map_keep (f : ν → μ) {p : κ → μ → Bool} {q : κ → ν → Bool}
    (h : ∀ k v, p k (f v) = q k v) (t : Table κ ν) : map f (keep q t) = keep p (map f t) := by
  apply AList.ext
  change (t.entries.filter _).map _ = (t.entries.map _).filter _
  rw [List.filter_map]
  congr 2
  funext e
  exact (h e.1 e.2).symm

theorem map_erase (f : ν → μ) (key : κ) (t : Table κ ν) :
    map f (t.erase key) = (map f t).erase key := by
  apply AList.ext
  change (t.entries.kerase key).map _ = (t.entries.map _).kerase key
  rw [List.kerase, List.kerase, List.eraseP_map]
  rfl

theorem map_insert (f : ν → μ) (key : κ) (v : ν) (t : Table κ ν) :
    map f (t.insert key v) = (map f t).insert key (f v) := by
  apply AList.ext
  change (t.insert key v).entries.map (fun e => (⟨e.1, f e.2⟩ : (_ : κ) × μ)) = _
  rw [AList.entries_insert, AList.entries_insert, List.map_cons]
  exact congrArg _ (congrArg AList.entries (map_erase f key t))

theorem lookup_map (f : ν → μ) (t : Table κ ν) (k : κ) :
    (map f t).lookup k = (t.lookup k).map f := by
  apply Option.ext
  intro w
  rw [Option.map_eq_some_iff]
  constructor
  · intro h
    obtain ⟨e, he, heq⟩ := List.mem_map.mp (AList.mem_lookup_iff.mp h)
    cases heq
    exact ⟨e.2, AList.mem_lookup_iff.mpr he, rfl⟩
  · rintro ⟨v, hv, rfl⟩
    exact AList.mem_lookup_iff.mpr (List.mem_map_of_mem (AList.mem_lookup_iff.mp hv))

theorem mem_map (f : ν → μ) (t : Table κ ν) : k ∈ map f t ↔ k ∈ t := by
  rw [← AList.lookup_isSome, ← AList.lookup_isSome, lookup_map, Option.isSome_map]

theorem map_insert_new (f : ν → μ) (key : κ) (v : ν) (t : Table κ ν) :
    map f (insertNew key v t) = insertNew key (f v) (map f t) := by
  unfold insertNew
  by_cases hmem : key ∈ t
  · rw [if_pos hmem, if_pos ((mem_map f t).mpr hmem)]
  · rw [if_neg hmem, if_neg ((mem_map f t).not.mpr hmem), map_insert]

theorem map_assign (f : ν → μ) (key : κ) (v : ν) (t : Table κ ν) :
    map f (assign key v t) = assign key (f v) (map f t) := by
  unfold assign
  by_cases hmem : key ∈ t
  · rw [if_pos hmem, if_pos ((mem_map f t).mpr hmem), map_insert]
  · rw [if_neg hmem, if_neg ((mem_map f t).not.mpr hmem)]

end Table
