import Khorost.Lib.Blocks
import Khorost.Util.AutoBuffer
import Khorost.Util.CString

namespace Khorost

open Blocks

/-- Sums, differences and products of type `size_t`. -/
def sizeAdd (a b : Nat) : Nat := (a + b) % 2 ^ 64

def sizeSub (a b : Nat) : Nat := (a + 2 ^ 64 - b) % 2 ^ 64

def sizeMul (a b : Nat) : Nat := a * b % 2 ^ 64

theorem size_add_eq (h : a + b < 2 ^ 64) : sizeAdd a b = a + b := Nat.mod_eq_of_lt h

theorem size_sub_eq (hle : b ≤ a) (h : a - b < 2 ^ 64) : sizeSub a b = a - b := by
  have hsum : a + 2 ^ 64 - b = a - b + 2 ^ 64 := by omega
  rw [sizeSub, hsum, Nat.add_mod_right, Nat.mod_eq_of_lt h]

/-- `auto_buffer_t` field by field: the allocation that `m_buffer_` points to,
`m_full_size_` and `m_ready_position_`. Nothing ties the three together here. -/
structure RawBuffer (α : Type) where
  buffer : List α
  fullSize : Nat
  readyPosition : Nat

/-- `realloc` to a number of elements; `none` is a null pointer. -/
abbrev Realloc (α : Type) := List α → Nat → Option (List α)

namespace RawBuffer

/-- The default constructor. -/
def empty : RawBuffer α := ⟨[], 0, 0⟩

/-- The filled part. -/
def content (b : RawBuffer α) : List α := b.buffer.take b.readyPosition

def getFreeSize (b : RawBuffer α) : Nat := sizeSub b.fullSize b.readyPosition

def flushFreeSize (b : RawBuffer α) : RawBuffer α := { b with readyPosition := 0 }

def decrementFreeSize (b : RawBuffer α) (size : Nat) : RawBuffer α :=
  { b with
    readyPosition :=
      if sizeAdd b.readyPosition size < b.fullSize then sizeAdd b.readyPosition size
      else b.fullSize }

def incrementFreeSize (b : RawBuffer α) (size : Nat) : RawBuffer α :=
  { b with readyPosition := if size ≤ b.readyPosition then sizeSub b.readyPosition size else 0 }

/-- `check_size`. The capacity is recorded before the allocation is tried. -/
def checkSize (realloc : Realloc α) (b : RawBuffer α) (demandSize : Nat) : RawBuffer α :=
  let demandSize :=
    if demandSize = 0 then sizeAdd b.readyPosition AutoBuffer.defaultBufferGranulate else demandSize
  if b.fullSize < demandSize then
    let fullSize :=
      sizeMul (demandSize / AutoBuffer.defaultBufferGranulate + 1) AutoBuffer.defaultBufferGranulate
    { b with fullSize := fullSize, buffer := (realloc b.buffer fullSize).getD b.buffer }
  else b

/-- A `memcpy` into the allocation. `none` is an access outside of it, here and below. -/
def memcpy (b : RawBuffer α) (position : Nat) (xs : List α) : Option (RawBuffer α) :=
  (write b.buffer position xs).map fun buffer => { b with buffer := buffer }

def memmove (b : RawBuffer α) (dest src n : Nat) : Option (RawBuffer α) :=
  (move b.buffer dest src n).map fun buffer => { b with buffer := buffer }

def append (realloc : Realloc α) (b : RawBuffer α) (xs : List α) : Option (RawBuffer α) := do
  let b :=
    if b.getFreeSize < xs.length then b.checkSize realloc (sizeAdd b.readyPosition xs.length) else b
  let b ← b.memcpy b.readyPosition xs
  some { b with readyPosition := sizeAdd b.readyPosition xs.length }

/-- A write to `get_free_position()` and `decrement_free_size` of as many
elements, as `stub_conn_read` does it. -/
def fill (b : RawBuffer α) (xs : List α) : Option (RawBuffer α) :=
  (b.memcpy b.readyPosition xs).map fun b => b.decrementFreeSize xs.length

def cutFromHead (b : RawBuffer α) (countByte : Nat) : Option (RawBuffer α) :=
  if countByte = 0 ∨ b.readyPosition < countByte then some b
  else do
    let b ←
      (if countByte ≠ b.readyPosition then
        b.memmove 0 countByte (sizeSub b.readyPosition countByte)
      else some b)
    some { b with readyPosition := sizeSub b.readyPosition countByte }

/-- `operator=` for another owning buffer on the right. What `m_buffer_` pointed
to is given up. An empty allocation is a null pointer. -/
def assign [DecidableEq α] (realloc : Realloc α) (right : RawBuffer α) : Option (RawBuffer α) :=
  let b : RawBuffer α :=
    ⟨(realloc [] right.fullSize).getD [], right.fullSize, right.readyPosition⟩
  if b.buffer ≠ [] ∧ right.buffer ≠ [] then
    (read right.buffer 0 right.readyPosition).bind (b.memcpy 0)
  else some b

variable [DecidableEq α]

/-- One match of `replace` at the position `km`. -/
def replaceAt (realloc : Realloc α) (b : RawBuffer α) (match_ replace_ : List α) (km : Nat) :
    Option (RawBuffer α) := do
  let deltaExpand := replace_.length - match_.length
  let deltaSub := match_.length - replace_.length
  let b :=
    if deltaExpand ≠ 0 then b.checkSize realloc (sizeAdd b.readyPosition deltaExpand) else b
  let b ←
    (if deltaExpand ≠ 0 ∨ deltaSub ≠ 0 then
      b.memmove (sizeAdd km replace_.length) (sizeAdd km match_.length)
        (sizeSub b.readyPosition (sizeAdd km match_.length))
    else some b)
  let b ← b.memcpy km replace_
  some { b with
    readyPosition :=
      if deltaExpand ≠ 0 then sizeAdd b.readyPosition deltaExpand
      else sizeSub b.readyPosition deltaSub }

/-- The loop of `replace`, with what `max_pos` and `result` hold. `none` is also
a loop that does not end within `fuel` passes. -/
def replaceLoop (realloc : Realloc α) (match_ replace_ : List α) (single : Bool) :
    Nat → RawBuffer α → Nat → Nat → Bool → Option (RawBuffer α × Bool)
  | 0, _, _, _, _ => none
  | fuel + 1, b, km, maxPos, result =>
    if km ≤ maxPos then do
      if (← read b.buffer km match_.length) = match_ then
        let b ← b.replaceAt realloc match_ replace_ km
        let maxPos :=
          if match_.length < replace_.length then
            sizeAdd maxPos (replace_.length - match_.length)
          else sizeSub maxPos (match_.length - replace_.length)
        let km :=
          if replace_.length < match_.length then sizeAdd km match_.length
          else sizeAdd km replace_.length
        if single then some (b, true)
        else replaceLoop realloc match_ replace_ single fuel b km maxPos true
      else replaceLoop realloc match_ replace_ single fuel b (sizeAdd km 1) maxPos result
    else some (b, result)

def replace (realloc : Realloc α) (b : RawBuffer α) (match_ replace_ : List α) (single : Bool) :
    Option (RawBuffer α × Bool) :=
  if b.readyPosition < match_.length then some (b, false)
  else
    replaceLoop realloc match_ replace_ single (b.readyPosition + 2) b 0
      (sizeSub b.readyPosition match_.length) false

end RawBuffer

end Khorost
