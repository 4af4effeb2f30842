import Mathlib.Data.List.Basic

namespace Incremental

/-- A way to take one item off the head of a byte string. What is taken does
not depend on the bytes that may still arrive behind it. -/
structure Framing (β ε : Type) where
  next : List β → Option (ε × List β)
  shrinks : ∀ bs e rest, next bs = some (e, rest) → rest.length < bs.length
  stable : ∀ bs e rest more, next bs = some (e, rest) → next (bs ++ more) = some (e, rest ++ more)

namespace Framing

/-- All whole items at the head, and what is left behind the last of them. -/
def items (F : Framing β ε) (bs : List β) : List ε × List β :=
  match h : F.next bs with
  | none => ([], bs)
  | some (e, rest) =>
    have := F.shrinks bs e rest h
    (e :: (F.items rest).1, (F.items rest).2)
termination_by bs.length

theorem items_none {F : Framing β ε} (h : F.next bs = none) : F.items bs = ([], bs) := by
  rw [items]
  split
  · rfl
  · simp_all

theorem items_some {F : Framing β ε} (h : F.next bs = some (e, rest)) :
    F.items bs = (e :: (F.items rest).1, (F.items rest).2) := by
  rw [items]
  split
  · simp_all
  · rename_i e' rest' he
    obtain ⟨rfl, rfl⟩ : e' = e ∧ rest' = rest := by simpa [he] using h
    rfl

@[simp] theorem items_nil (F : Framing β ε) : F.items [] = ([], []) := by
  apply items_none
  cases h : F.next [] with
  | none => rfl
  | some p => exact absurd (F.shrinks [] p.1 p.2 h) (Nat.not_lt_zero _)

/-- Bytes that arrive later only continue the part that was left over. -/
theorem items_append (F : Framing β ε) (bs more : List β) :
    F.items (bs ++ more) =
      ((F.items bs).1 ++ (F.items ((F.items bs).2 ++ more)).1,
        (F.items ((F.items bs).2 ++ more)).2) := by
  cases h : F.next bs with
  | none => simp [items_none h]
  | some p =>
    have := F.shrinks bs p.1 p.2 h
    rw [items_some h, items_some (F.stable bs p.1 p.2 more h), F.items_append p.2 more]
    rfl
termination_by bs.length

/-- One arrival: the new bytes go behind those left over, and every item that
is now whole is taken. -/
def feed (F : Framing β ε) (s : List ε × List β) (arrived : List β) : List ε × List β :=
  (s.1 ++ (F.items (s.2 ++ arrived)).1, (F.items (s.2 ++ arrived)).2)

theorem feed_items (F : Framing β ε) (bs arrived : List β) :
    F.feed (F.items bs) arrived = F.items (bs ++ arrived) :=
  (F.items_append bs arrived).symm

end Framing

end Incremental
