import Khorost.Proofs.StompFrames

namespace Khorost.Stomp

def Returns (message : List UInt8) (s : Stomp) : Prop :=
  ∃ found s', parse message s = .ok found s'

/-- A first line that is empty, or that has nothing but a carriage return behind it. -/
inductive Breaks : List UInt8 → Prop
  | emptyLine (rest : List UInt8) : Breaks (lf :: rest)
  | loneReturn (hline : lf ∉ line) : Breaks (line ++ [lf, cr])

theorem parse_unended (h : lf ∉ message) (s : Stomp) : parse message s = .ok false s := by
  have hfind : findFirstOf message lf 0 = none := if_neg h
  rw [parse, hfind]

theorem parse_empty_line (rest : List UInt8) (s : Stomp) :
    parse (lf :: rest) s = .error .undefined s := by
  have hfind : findFirstOf (lf :: rest) lf 0 = some 0 := by
    have hnone : lf ∉ ([] : List UInt8) := List.not_mem_nil
    simpa using find_first_behind hnone [] rest
  rw [parse, hfind]
  rfl

/-- Behind a first line that is not empty `parse` is in the loop. -/
theorem parse_line (hne : line ≠ []) (hline : lf ∉ line) (rest : List UInt8) (s : Stomp) :
    ∃ taken, parse (line ++ lf :: rest) s =
      parseFrom (line ++ lf :: rest) (line.length + 1) { s with command := taken } := by
  have hlen : line.length ≠ 0 := List.length_eq_zero_iff.not.mpr hne
  have hfind : findFirstOf (line ++ lf :: rest) lf 0 = some line.length := by
    simpa using find_first_behind hline [] rest
  have hend : ∃ endPos, lineEnd (line ++ lf :: rest) line.length = some endPos := by
    rw [lineEnd, if_neg hlen]
    split
    · exact ⟨_, rfl⟩
    · exact ⟨_, rfl⟩
  obtain ⟨endPos, hend⟩ := hend
  refine ⟨(line ++ lf :: rest).take endPos, ?_⟩
  rw [parse, hfind]
  dsimp only
  rw [hend]
  rfl

/-- The loop skips two characters for a carriage return, of which only one may be there. -/
theorem parse_from_returns_iff (line rest : List UInt8) (s : Stomp) :
    (∃ found s', parseFrom (line ++ lf :: rest) (line.length + 1) s = .ok found s') ↔
      rest ≠ [cr] := by
  have hdrop : ∀ n, (line ++ lf :: rest)[line.length + 1 + n]? = rest[n]? := by
    intro n
    rw [List.getElem?_append_right (by omega), Nat.add_assoc, Nat.add_sub_cancel_left,
      Nat.add_comm 1 n, List.getElem?_cons_succ]
  cases rest with
  | nil =>
    have hend : (line ++ [lf])[line.length + 1]? = none := hdrop 0
    refine iff_of_true ⟨true, s, ?_⟩ nofun
    unfold parseFrom
    split
    · rfl
    · next c hc =>
      rw [hend] at hc
      cases hc
  | cons c rest =>
    have hfirst : (line ++ lf :: c :: rest)[line.length + 1]? = some c := hdrop 0
    have hlen : (line ++ lf :: c :: rest).length = line.length + 2 + rest.length := by
      simp only [List.length_append, List.length_cons]
      omega
    rw [parse_from_start hfirst, substrFrom]
    by_cases hfits : line.length + 1 + (if c = cr then 2 else 1) ≤ line.length + 2 + rest.length
    · rw [hlen, if_pos hfits]
      refine iff_of_true ⟨_, _, rfl⟩ ?_
      rintro heq
      obtain ⟨rfl, rfl⟩ := List.cons.inj heq
      rw [if_pos rfl] at hfits
      exact absurd hfits (by simp)
    · rw [hlen, if_neg hfits]
      refine iff_of_false (by rintro ⟨_, _, h⟩; cases h) fun hne => ?_
      split at hfits
      · next hc =>
        subst hc
        refine hne (congrArg _ (List.length_eq_zero_iff.mp ?_))
        omega
      · omega

theorem breaks_line_iff (hline : lf ∉ line) :
    Breaks (line ++ lf :: rest) ↔ line = [] ∨ rest = [cr] := by
  constructor
  · intro h
    generalize hmessage : line ++ lf :: rest = message at h
    cases h with
    | emptyLine rest' =>
      cases line with
      | nil => exact .inl rfl
      | cons c line =>
        obtain ⟨rfl, -⟩ := List.cons.inj hmessage
        exact absurd (List.mem_cons_self ..) hline
    | @loneReturn line' hline' =>
      have hidx := congrArg (List.idxOf lf) hmessage
      rw [List.idxOf_append_of_notMem hline, List.idxOf_append_of_notMem hline',
        List.idxOf_cons_self, List.idxOf_cons_self] at hidx
      obtain ⟨-, htail⟩ := List.append_inj hmessage hidx
      exact .inr (List.cons.inj htail).2
  · rintro (rfl | rfl)
    · exact .emptyLine rest
    · exact .loneReturn hline

/-- `parse` returns exactly if the first line is not empty and not followed by a
carriage return alone. -/
theorem parse_returns_iff (message : List UInt8) (s : Stomp) :
    Returns message s ↔ ¬ Breaks message := by
  by_cases hmem : lf ∈ message
  · obtain ⟨line, rest, rfl, hline⟩ := List.eq_append_cons_of_mem hmem
    rw [breaks_line_iff hline, not_or]
    by_cases hne : line = []
    · subst hne
      refine iff_of_false (fun ⟨_, _, h⟩ => ?_) fun h => h.1 rfl
      rw [List.nil_append, parse_empty_line] at h
      cases h
    · obtain ⟨taken, hparse⟩ := parse_line hne hline rest s
      rw [Returns, hparse, parse_from_returns_iff]
      exact (and_iff_right hne).symm
  · refine iff_of_true ⟨_, _, parse_unended hmem s⟩ fun hbreaks => ?_
    cases hbreaks with
    | emptyLine => exact hmem (List.mem_cons_self ..)
    | loneReturn => exact hmem (by simp)

/-- The first line is empty. -/
theorem empty_line_undefined : ¬ ∀ message s, Returns message s := by
  intro h
  obtain ⟨_, _, hparse⟩ := h [lf] new
  rw [parse_empty_line] at hparse
  cases hparse

end Khorost.Stomp
