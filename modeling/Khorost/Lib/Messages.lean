import Khorost.Lib.Lines
import Mathlib.Data.List.Forall2

namespace Messages

variable {α : Type} {cr lf : α}

/-- Lines with an empty one behind them, and a content. -/
structure Message (α : Type) where
  lines : List (List α)
  content : List α

/-- The text of a message as it is sent. -/
def Message.text (cr lf : α) (m : Message α) : List α := Lines.block cr lf m.lines ++ m.content

/-- How a reader learns the length of the content: from the lines in front of it. -/
abbrev Length (α : Type) := List (List α) → Option Nat

/-- A message that such a reader can read. -/
structure Fits (cr lf : α) (length : Length α) (m : Message α) : Prop where
  line : ∀ line ∈ m.lines, Lines.IsLine cr lf line
  length : length m.lines = some m.content.length

variable [DecidableEq α]

/-- The lines up to an empty one, the first of them behind what is there of it. -/
def readLines (cr lf : α) : List α → List α → Option (List (List α) × List α)
  | line, c :: d :: rest =>
    if c = cr ∧ d = lf then
      if line = [] then some ([], rest)
      else (readLines cr lf [] rest).map fun r => (line :: r.1, r.2)
    else readLines cr lf (line ++ [c]) (d :: rest)
  | _, _ => none

/-- One message off the head of a text. -/
def read (cr lf : α) (length : Length α) (text : List α) : Option (Message α × List α) := do
  let (lines, rest) ← readLines cr lf [] text
  let n ← length lines
  if n ≤ rest.length then some (⟨lines, rest.take n⟩, rest.drop n) else none

/-- One message after the other, with a way to learn the length of each. -/
def readAll (cr lf : α) : List (Length α) → List α → Option (List (Message α) × List α)
  | [], text => some ([], text)
  | length :: lengths, text => do
    let (m, text) ← read cr lf length text
    let (ms, text) ← readAll cr lf lengths text
    some (m :: ms, text)

theorem read_other (hc : c ≠ cr) (hrest : rest ≠ []) (line : List α) :
    readLines cr lf line (c :: rest) = readLines cr lf (line ++ [c]) rest := by
  obtain ⟨d, rest, rfl⟩ := List.exists_cons_of_ne_nil hrest
  rw [readLines, if_neg]
  exact fun h => hc h.1

theorem read_line (hline : cr ∉ line) (front rest : List α) :
    readLines cr lf front (line ++ cr :: lf :: rest) =
      if front ++ line = [] then some ([], rest)
      else (readLines cr lf [] rest).map fun r => ((front ++ line) :: r.1, r.2) := by
  induction line generalizing front with
  | nil => simp [readLines]
  | cons c line ih =>
    have hc : c ≠ cr := fun h => hline (h ▸ List.mem_cons_self)
    have hbehind : cr ∉ line := fun h => hline (List.mem_cons_of_mem _ h)
    rw [List.cons_append, read_other hc (by simp), ih hbehind]
    simp

theorem read_block (h : ∀ line ∈ lines, Lines.IsLine cr lf line) (rest : List α) :
    readLines cr lf [] (Lines.block cr lf lines ++ rest) = some (lines, rest) := by
  induction lines with
  | nil => simp [Lines.block, readLines]
  | cons line lines ih =>
    have hline := h line List.mem_cons_self
    have hlines : ∀ line ∈ lines, Lines.IsLine cr lf line :=
      fun l hl => h l (List.mem_cons_of_mem _ hl)
    rw [Lines.block_cons, List.append_assoc, List.cons_append, List.cons_append,
      read_line hline.no_cr, ih hlines]
    simp [hline.nonempty]

theorem read_text (h : Fits cr lf length m) (rest : List α) :
    read cr lf length (m.text cr lf ++ rest) = some (m, rest) := by
  simp [read, Message.text, List.append_assoc, read_block h.line, h.length]

/-- Messages sent one behind the other are read as they were sent. -/
theorem read_all (h : List.Forall₂ (Fits cr lf) lengths ms) (rest : List α) :
    readAll cr lf lengths (ms.flatMap (·.text cr lf) ++ rest) = some (ms, rest) := by
  induction h with
  | nil => rfl
  | cons hfits hrest ih =>
    simp [readAll, List.append_assoc, read_text hfits, ih]

end Messages
