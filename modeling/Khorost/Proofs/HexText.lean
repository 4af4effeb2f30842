import Khorost.Db.LinkedPostgres

namespace Khorost.LinkedPostgres

/-- The bytes that pairs of characters stand for; one that is left over stands
for none. -/
def pairs : List UInt8 → List UInt8
  | c0 :: c1 :: text => (ctoi c0 * 16 + ctoi c1) :: pairs text
  | [_] => []
  | [] => []

theorem ctoi_format (a : UInt8) : pairs (formatHex a ++ text) = a :: pairs text := by
  have hbyte : ∀ n < 256, pairs (formatHex (UInt8.ofNat n)) = [UInt8.ofNat n] := by
    decide +kernel
  have hhead := hbyte a.toNat a.toNat_lt
  rw [UInt8.ofNat_toNat] at hhead
  exact congrArg (· :: pairs text) (List.cons.inj hhead).1

theorem pairs_format (value : List UInt8) : pairs (value.flatMap formatHex) = value := by
  induction value with
  | nil => rfl
  | cons a value ih => rw [List.flatMap_cons, ctoi_format, ih]

/-- A text with at least one character is read to its end, whatever the
characters are. -/
theorem from_string_loop (hne : src ≠ []) (k : Nat) (dst : List UInt8) :
    fromStringLoop src k dst = .ok () (dst ++ pairs (src.drop k)) := by
  have hpred : sizePred src.length = src.length - 1 :=
    if_neg (List.length_eq_zero_iff.not.mpr hne)
  fun_induction fromStringLoop src k dst with
  | case1 k dst hk c0 c1 h1 h0 ih =>
    obtain ⟨hlt0, rfl⟩ := List.getElem?_eq_some_iff.mp h0
    obtain ⟨hlt1, rfl⟩ := List.getElem?_eq_some_iff.mp h1
    rw [ih, List.drop_eq_getElem_cons hlt0, List.drop_eq_getElem_cons hlt1, pairs,
      List.append_assoc]
    rfl
  | case2 k dst hk hnone =>
    rw [hpred] at hk
    have hlt : k + 1 < src.length := by omega
    exact (hnone _ _ (List.getElem?_eq_getElem (by omega)) (List.getElem?_eq_getElem hlt)).elim
  | case3 k dst hk =>
    rw [hpred] at hk
    have hshort : (src.drop k).length ≤ 1 := by
      rw [List.length_drop]
      omega
    match hrest : src.drop k with
    | [] => rw [pairs, List.append_nil]
    | [c] => rw [pairs, List.append_nil]
    | c0 :: c1 :: text =>
      rw [hrest] at hshort
      simp at hshort

/-- The bound of the loop over an empty text is `2 ^ 64 - 1`. -/
theorem from_string_empty (dst : List UInt8) : fromString [] dst = .error () dst := by
  rw [fromString, fromStringLoop, if_pos (by decide)]
  rfl

/-- The bytes are read back from their text, and a text is read without a throw
exactly if there is a character in it. -/
theorem from_string_returns_iff (value src dst : List UInt8) :
    fromString (toString value false) dst = .ok () (dst ++ value) ∧
      ((∃ dst', fromString src dst = .ok () dst') ↔ src ≠ []) := by
  constructor
  · have htext : toString value false = 92 :: 120 :: value.flatMap formatHex := rfl
    rw [htext, fromString, from_string_loop (List.cons_ne_nil _ _)]
    rw [List.drop_succ_cons, List.drop_succ_cons, List.drop_zero, pairs_format]
  · constructor
    · rintro ⟨dst', hdst⟩ rfl
      rw [from_string_empty] at hdst
      cases hdst
    · exact fun hne => ⟨_, from_string_loop hne 2 dst⟩

theorem empty_text_out_of_range :
    ¬ ((∀ value dst, fromString (toString value false) dst = .ok () (dst ++ value)) ∧
      ∀ src dst, ∃ dst', fromString src dst = .ok () dst') := by
  intro h
  obtain ⟨dst', hdst⟩ := h.2 [] []
  rw [from_string_empty] at hdst
  cases hdst

end Khorost.LinkedPostgres
