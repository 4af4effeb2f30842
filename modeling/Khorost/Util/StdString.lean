import Khorost.Util.CString
import Mathlib.Data.List.Basic

namespace Khorost

/-- What ends a call otherwise than by a return: a character that is not there,
or a `std::out_of_range`. -/
inductive StringFault
  | undefined
  | outOfRange
deriving DecidableEq

/-- `find_first_of` for one character. -/
def findFirstOf (s : List UInt8) (c : UInt8) (position : Nat) : Option Nat :=
  if c ∈ s.drop position then some (position + (s.drop position).idxOf c) else none

/-- `substr`; `none` is an exception. -/
def substr (s : List UInt8) (position count : Nat) : Option (List UInt8) :=
  if position ≤ s.length then some ((s.drop position).take count) else none

/-- `substr` with a position alone. -/
def substrFrom (s : List UInt8) (position : Nat) : Option (List UInt8) :=
  if position ≤ s.length then some (s.drop position) else none

/-- `find` of a text: the first place where it stands. -/
def findText (text : List UInt8) : List UInt8 → Option Nat
  | [] => if text = [] then some 0 else none
  | c :: s => if text <+: c :: s then some 0 else (findText text s).map (· + 1)

theorem find_first_bounds (h : findFirstOf s c position = some found) :
    position ≤ found ∧ found < s.length := by
  unfold findFirstOf at h
  split at h
  · next hmem =>
    cases h
    have hidx := List.idxOf_lt_length_iff.mpr hmem
    rw [List.length_drop] at hidx
    omega
  · cases h

theorem find_first_behind (h : c ∉ text) (before rest : List UInt8) :
    findFirstOf (before ++ text ++ c :: rest) c before.length =
      some (before.length + text.length) := by
  rw [findFirstOf, List.append_assoc, List.drop_left, if_pos (by simp),
    List.idxOf_append_of_notMem h, List.idxOf_cons_self, Nat.add_zero]

theorem substr_from_behind (before rest : List UInt8) :
    substrFrom (before ++ rest) before.length = some rest := by
  rw [substrFrom, if_pos (by simp), List.drop_left]

theorem substr_head (text rest : List UInt8) :
    substr (text ++ rest) 0 text.length = some text := by
  rw [substr, if_pos (Nat.zero_le _), List.drop_zero, List.take_left]

end Khorost
