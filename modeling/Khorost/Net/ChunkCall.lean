import Khorost.Lib.Blocks
import Khorost.Net.Http

namespace Khorost

open Blocks

/-- What `get_chunk` refers to: the position of its pointer in the memory, the
size, the target, the reference and the size of the chunk. -/
structure ChunkState where
  position : Nat
  bufferSize : Nat
  target : AutoBuffer UInt8
  reference : Option Nat
  chunkSize : Nat

namespace ChunkState

/-- What a stop character at the index `k` leads to. -/
def take (st : ChunkState) (chunk : List UInt8) (s k : Nat) : ChunkState where
  position := st.position + (k + 1)
  bufferSize := st.bufferSize - (k + 1)
  target := (st.target.append chunk).set (st.target.fillSize + k) nul
  reference := some (st.target.fillSize + s)
  chunkSize := k + 1

/-- The loop over the prefix with `n` characters to go. `none` is a read outside of
the memory, here and below. -/
def skipPrefix (memory : List UInt8) (lead : UInt8) (st : ChunkState) : Nat → Nat → Option Nat
  | 0, s => some s
  | n + 1, s => do
    if (← memory[st.position + s]?) = lead then skipPrefix memory lead st n (s + 1) else some s

/-- The loop over `div`, which reads the character again in each pass. -/
def isStop (c : Option UInt8) : List UInt8 → Option Bool
  | [] => none
  | d :: div =>
    if d = nul then some false
    else do
      if (← c) = d then some true else isStop c div

/-- The loop over the characters behind the prefix, with `n` of them to go. -/
def chunkLoop (memory div : List UInt8) (st : ChunkState) (s : Nat) :
    Nat → Nat → Option (Bool × ChunkState)
  | 0, _ => some (false, st)
  | n + 1, k => do
    if ← isStop memory[st.position + k]? div then
      let chunk ← read memory st.position (k + 1)
      some (true, st.take chunk s k)
    else chunkLoop memory div st s n (k + 1)

/-- `get_chunk` with what it returns and leaves in its references. -/
def getChunk (memory : List UInt8) (lead : UInt8) (div : List UInt8) (st : ChunkState) :
    Option (Bool × ChunkState) := do
  let s ← skipPrefix memory lead st st.bufferSize 0
  chunkLoop memory div st s (st.bufferSize - s) s

/-- What a chunk that is found in the data changes. -/
def behind (st : ChunkState) (f : ChunkFound) : ChunkState where
  position := st.position + f.chunkSize
  bufferSize := f.cursor.bufferSize
  target := f.target
  reference := some f.reference
  chunkSize := f.chunkSize

variable {memory stops : List UInt8} {st : ChunkState}

theorem skip_prefix_eq (memory : List UInt8) (lead : UInt8) (st : ChunkState) (n s : Nat) :
    skipPrefix memory lead st n s =
      (skipLead lead (memory.drop (st.position + s)) n).map (s + ·) := by
  induction n generalizing s with
  | zero => simp [skipPrefix, skipLead]
  | succ n ih =>
    rw [skipPrefix, ← List.head?_drop, ih]
    cases hdrop : memory.drop (st.position + s) with
    | nil => rfl
    | cons c rest =>
      have hnext : memory.drop (st.position + (s + 1)) = rest := by
        rw [← Nat.add_assoc, ← List.drop_drop, hdrop]
        rfl
      rw [hnext]
      simp only [List.head?_cons, Option.bind_eq_bind, Option.bind_some, skipLead]
      split
      · rw [Option.map_map]
        congr 1
        funext m
        exact (Nat.add_right_comm s 1 m).trans (Nat.add_assoc s m 1)
      · rfl

theorem is_stop_eq (hs : nul ∉ stops) (c : UInt8) :
    isStop (some c) (stops ++ [nul]) = some (decide (c ∈ stops)) := by
  induction stops with
  | nil => rfl
  | cons d stops ih =>
    rw [List.mem_cons, not_or] at hs
    have hd : d ≠ nul := fun he => hs.1 he.symm
    rw [List.cons_append, isStop, if_neg hd]
    simp only [Option.bind_eq_bind, Option.bind_some, ih hs.2]
    by_cases hc : c = d <;> simp [hc]

/-- A loop that stays in the memory is the one over the list. -/
theorem chunk_loop_eq (hs : nul ∉ stops) (s n k : Nat) (hin : st.position + k + n ≤ memory.length) :
    chunkLoop memory (stops ++ [nul]) st s n k =
      (findStop stops (memory.drop (st.position + k)) n).map fun found =>
        match found with
        | none => (false, st)
        | some m => (true, st.take ((memory.drop st.position).take (k + m + 1)) s (k + m)) := by
  induction n generalizing k with
  | zero => cases memory.drop (st.position + k) <;> rfl
  | succ n ih =>
    have hlt : st.position + k < memory.length := by omega
    have hdrop := List.drop_eq_getElem_cons hlt
    have hread : read memory st.position (k + 1) =
        some ((memory.drop st.position).take (k + 1)) := if_pos (by omega)
    rw [chunkLoop, List.getElem?_eq_getElem hlt, is_stop_eq hs, hdrop, findStop,
      ih (k + 1) (by omega)]
    simp only [Option.bind_eq_bind, Option.bind_some, decide_eq_true_eq, hread]
    split
    · rfl
    · rw [Option.map_map, ← Nat.add_assoc]
      congr 1
      funext found
      cases found with
      | none => rfl
      | some m => simp only [Function.comp, Option.map_some, Nat.add_right_comm k 1 m,
          Nat.add_assoc k m 1]

/-- On data in the memory this is the function on lists. -/
theorem get_chunk_eq (hs : nul ∉ stops) (lead : UInt8)
    (hin : st.position + st.bufferSize ≤ memory.length) :
    st.getChunk memory lead (stops ++ [nul]) =
      (Khorost.getChunk ⟨memory.drop st.position, st.bufferSize⟩ lead stops st.target).map
        fun found => match found with
          | none => (false, st)
          | some f => (true, st.behind f) := by
  rw [getChunk, Khorost.getChunk, skip_prefix_eq, Nat.add_zero]
  cases hskip : skipLead lead (memory.drop st.position) st.bufferSize with
  | none => rfl
  | some s =>
    have hle := (skip_lead_bounds hskip).1
    simp only [Option.map_some, Nat.zero_add, Option.bind_eq_bind, Option.bind_some, List.drop_drop]
    rw [chunk_loop_eq hs s (st.bufferSize - s) s (by omega)]
    cases findStop stops (memory.drop (st.position + s)) (st.bufferSize - s) with
    | none => rfl
    | some found => cases found <;> rfl

end ChunkState

end Khorost
