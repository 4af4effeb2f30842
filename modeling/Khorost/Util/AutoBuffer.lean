import Mathlib.Algebra.Ring.Nat
import Mathlib.Data.List.Basic

namespace Khorost

/-- `auto_buffer_t`: one owned allocation (its length is `m_full_size_`) and the
position up to which it is filled. Allocations succeed. `fresh` is what the
allocator leaves in an element that nobody has written yet. -/
structure AutoBuffer (α : Type) where
  buffer : List α
  readyPosition : Nat
  fresh : Nat → α
  ready_le : readyPosition ≤ buffer.length

namespace AutoBuffer

/-- `DefaultBufferGranulate`; no caller passes another granularity. -/
def defaultBufferGranulate : Nat := 0x400

/-- The default constructor: nothing allocated. -/
def empty (fresh : Nat → α) : AutoBuffer α := ⟨[], 0, fresh, Nat.le_refl 0⟩

def fullSize (b : AutoBuffer α) : Nat := b.buffer.length

def fillSize (b : AutoBuffer α) : Nat := b.readyPosition

def freeSize (b : AutoBuffer α) : Nat := b.fullSize - b.fillSize

/-- The filled part, as a list. -/
def content (b : AutoBuffer α) : List α := b.buffer.take b.readyPosition

/-- The allocated memory behind the fill: what was there before, or fresh. -/
def stale (b : AutoBuffer α) : List α := b.buffer.drop b.readyPosition

/-- `operator[]` on the left of an assignment. -/
def set (b : AutoBuffer α) (position : Nat) (value : α) : AutoBuffer α :=
  { b with buffer := b.buffer.set position value, ready_le := by simpa using b.ready_le }

/-- Replaces the elements in place, as `memmove` and the string functions do. -/
def rewrite (b : AutoBuffer α) (buffer : List α) (h : buffer.length = b.buffer.length) :
    AutoBuffer α :=
  { b with buffer := buffer, ready_le := by rw [h]; exact b.ready_le }

/-- A copy of `xs` to `get_free_position()`, for which there is room. -/
def writeFree (b : AutoBuffer α) (xs : List α) (h : b.fillSize + xs.length ≤ b.fullSize) :
    AutoBuffer α :=
  b.rewrite (b.buffer.take b.fillSize ++ xs ++ b.buffer.drop (b.fillSize + xs.length)) (by
    simp only [fullSize] at h
    simp only [List.length_append, List.length_take, List.length_drop]
    omega)

def flushFreeSize (b : AutoBuffer α) : AutoBuffer α :=
  { b with readyPosition := 0, ready_le := Nat.zero_le _ }

/-- The sum of `decrement_free_size` does not wrap around. A buffer is smaller than
2^63 bytes, so two sizes within it never do. -/
def NoWrap (b : AutoBuffer α) (size : Nat) : Prop :=
  size ≤ b.fullSize ∨ b.fillSize + size < 2 ^ 64

instance (b : AutoBuffer α) (size : Nat) : Decidable (b.NoWrap size) :=
  inferInstanceAs (Decidable (_ ∨ _))

def decrementFreeSize (b : AutoBuffer α) (size : Nat) : AutoBuffer α :=
  let sum := if b.NoWrap size then b.readyPosition + size else (b.readyPosition + size) % 2 ^ 64
  { b with
    readyPosition := if sum < b.fullSize then sum else b.fullSize
    ready_le := by
      unfold fullSize
      split
      · next h => exact Nat.le_of_lt h
      · exact Nat.le_refl _ }

def incrementFreeSize (b : AutoBuffer α) (size : Nat) : AutoBuffer α :=
  { b with
    readyPosition := if size ≤ b.readyPosition then b.readyPosition - size else 0
    ready_le := by
      have := b.ready_le
      split <;> omega }

/-- `realloc` to a larger size: the elements stay, the new ones are fresh. -/
def realloc (b : AutoBuffer α) (fullSize : Nat) : AutoBuffer α :=
  { b with
    buffer := b.buffer ++ (List.range' b.fullSize (fullSize - b.fullSize)).map b.fresh
    ready_le := by
      have := b.ready_le
      rw [List.length_append]
      omega }

def checkSize (b : AutoBuffer α) (demandSize : Nat) : AutoBuffer α :=
  let demandSize := if demandSize = 0 then b.readyPosition + defaultBufferGranulate else demandSize
  if b.fullSize < demandSize then
    b.realloc ((demandSize / defaultBufferGranulate + 1) * defaultBufferGranulate)
  else b

theorem check_size_ready (b : AutoBuffer α) (n : Nat) :
    (b.checkSize n).readyPosition = b.readyPosition := by
  unfold checkSize
  dsimp only
  repeat' split
  all_goals rfl

theorem check_size_buffer (b : AutoBuffer α) (n : Nat) :
    ∃ more, (b.checkSize n).buffer = b.buffer ++ more := by
  unfold checkSize
  dsimp only
  repeat' split
  all_goals first | exact ⟨[], (List.append_nil _).symm⟩ | exact ⟨_, rfl⟩

/-- A demand for the filled part and more fits into the capacity provided. -/
theorem check_size_full (b : AutoBuffer α) (n : Nat) :
    (b.checkSize (b.fillSize + n)).fillSize + n ≤ (b.checkSize (b.fillSize + n)).fullSize := by
  have hr : (b.checkSize (b.fillSize + n)).fillSize = b.fillSize := check_size_ready b _
  rw [hr]
  generalize hd : b.fillSize + n = d
  rcases Nat.eq_zero_or_pos d with rfl | hpos
  · exact Nat.zero_le _
  · have hg : 0 < defaultBufferGranulate := by simp [defaultBufferGranulate]
    have hn := Nat.lt_mul_div_succ d hg
    rw [Nat.mul_comm] at hn
    simp only [checkSize, if_neg (Nat.pos_iff_ne_zero.mp hpos)]
    by_cases hlt : b.fullSize < d
    · rw [if_pos hlt]
      simp only [realloc, fullSize, List.length_append, List.length_map, List.length_range']
      omega
    · rw [if_neg hlt]
      omega

/-- `append`: grows the allocation when the free part is too small, then copies
behind the filled part. -/
def append (b : AutoBuffer α) (xs : List α) : AutoBuffer α :=
  let grown := if b.freeSize < xs.length then b.checkSize (b.fillSize + xs.length) else b
  { grown with
    buffer := grown.buffer.take b.fillSize ++ xs ++ grown.buffer.drop (b.fillSize + xs.length)
    readyPosition := b.fillSize + xs.length
    ready_le := by
      have hg : b.fillSize ≤ grown.buffer.length := by
        have h := b.ready_le
        simp only [grown, fillSize]
        split
        · obtain ⟨more, hm⟩ := b.check_size_buffer (b.readyPosition + xs.length)
          rw [hm, List.length_append]
          omega
        · exact h
      simp only [List.length_append, List.length_take, List.length_drop]
      omega }

/-- `cut_from_head`: the `memmove` leaves the old bytes behind the new fill. -/
def cutFromHead (b : AutoBuffer α) (count : Nat) : AutoBuffer α :=
  if count = 0 ∨ b.readyPosition < count then b
  else
    { b with
      buffer := (b.buffer.drop count).take (b.readyPosition - count) ++
        b.buffer.drop (b.readyPosition - count)
      readyPosition := b.readyPosition - count
      ready_le := by
        have := b.ready_le
        simp only [List.length_append, List.length_take, List.length_drop]
        omega }

theorem content_length (b : AutoBuffer α) : b.content.length = b.fillSize := by
  simp [content, fillSize, b.ready_le]

theorem buffer_split (b : AutoBuffer α) : b.buffer = b.content ++ b.stale :=
  (List.take_append_drop _ _).symm

@[simp] theorem content_empty (fresh : Nat → α) : (empty fresh).content = [] := rfl

@[simp] theorem content_check_size (b : AutoBuffer α) (n : Nat) :
    (b.checkSize n).content = b.content := by
  obtain ⟨more, hm⟩ := b.check_size_buffer n
  rw [content, check_size_ready, hm, List.take_append_of_le_length b.ready_le]
  rfl

@[simp] theorem content_append (b : AutoBuffer α) (xs : List α) :
    (b.append xs).content = b.content ++ xs := by
  have hlen : (b.content ++ xs).length = b.fillSize + xs.length := by
    rw [List.length_append, content_length]
  have htake : ∀ c : AutoBuffer α, c.content = b.content → c.readyPosition = b.readyPosition →
      c.buffer.take b.fillSize = b.content := by
    intro c hc hr
    rw [← hc, content, hr]
    rfl
  have hhead : ((if b.freeSize < xs.length then b.checkSize (b.fillSize + xs.length)
      else b).buffer.take b.fillSize) = b.content := by
    split
    · exact htake _ (content_check_size b _) (check_size_ready b _)
    · exact htake b rfl rfl
  simp only [content, append]
  rw [hhead, ← hlen]
  exact List.take_left' rfl

@[simp] theorem fill_zero_iff (b : AutoBuffer α) : b.fillSize = 0 ↔ b.content = [] := by
  rw [← content_length, List.length_eq_zero_iff]

theorem no_wrap_of_fill {b : AutoBuffer α} (h : n ≤ b.fillSize) : b.NoWrap n :=
  .inl (Nat.le_trans h b.ready_le)

theorem decrement_ready (b : AutoBuffer α) (h : b.NoWrap n) :
    (b.decrementFreeSize n).readyPosition = min (b.readyPosition + n) b.fullSize := by
  simp only [decrementFreeSize, if_pos h]
  split <;> omega

/-- Moving the fill forward takes over whatever stands behind it. -/
theorem content_decrement (b : AutoBuffer α) (h : b.NoWrap n) :
    ∃ taken, (b.decrementFreeSize n).content = b.content ++ taken := by
  have hle : b.readyPosition ≤ (b.decrementFreeSize n).readyPosition := by
    have hr : b.readyPosition ≤ b.fullSize := b.ready_le
    rw [b.decrement_ready h]
    omega
  obtain ⟨d, hd⟩ := Nat.exists_eq_add_of_le hle
  refine ⟨(b.buffer.drop b.readyPosition).take d, ?_⟩
  change b.buffer.take (b.decrementFreeSize n).readyPosition = _
  rw [hd, List.take_add]
  rfl

theorem decrement_back (b : AutoBuffer α) (hfull : 0 < b.fullSize) :
    ∃ n, (b.decrementFreeSize n).readyPosition ≠ (b.decrementFreeSize 0).readyPosition := by
  have hr : b.readyPosition ≤ b.fullSize := b.ready_le
  have hzero : (b.decrementFreeSize 0).readyPosition = b.readyPosition := by
    rw [b.decrement_ready (.inl (Nat.zero_le _))]
    omega
  rcases Nat.lt_or_ge b.readyPosition b.fullSize with hlt | hge
  · refine ⟨1, ?_⟩
    rw [hzero, b.decrement_ready (.inl hfull)]
    omega
  · refine ⟨2 ^ 64 * (b.fullSize + 1) - 1, ?_⟩
    have hwrap : ¬ b.NoWrap (2 ^ 64 * (b.fullSize + 1) - 1) := by
      unfold NoWrap fillSize
      omega
    have hsum : b.readyPosition + (2 ^ 64 * (b.fullSize + 1) - 1) =
        b.fullSize - 1 + 2 ^ 64 * (b.fullSize + 1) := by omega
    have hmod := Nat.mod_le (b.fullSize - 1) (2 ^ 64)
    rw [hzero]
    simp only [decrementFreeSize, if_neg hwrap, hsum, Nat.add_mul_mod_self_left]
    rw [if_pos (by omega)]
    omega

/-- Writing into the free part and moving the fill over it appends. -/
theorem content_write_free (b : AutoBuffer α) (xs : List α)
    (h : b.fillSize + xs.length ≤ b.fullSize) :
    ((b.writeFree xs h).decrementFreeSize xs.length).content = b.content ++ xs := by
  have hfull : (b.writeFree xs h).fullSize = b.fullSize := by
    simp only [fullSize] at h
    simp only [writeFree, rewrite, fullSize, List.length_append, List.length_take, List.length_drop]
    omega
  have hlen : (b.content ++ xs).length = b.fillSize + xs.length := by
    rw [List.length_append, content_length]
  have hroom : (b.writeFree xs h).NoWrap xs.length := .inl (by rw [hfull]; omega)
  rw [content, decrement_ready _ hroom, hfull]
  change List.take (min (b.fillSize + xs.length) b.fullSize) (b.content ++ xs ++ _) = _
  rw [Nat.min_eq_left h]
  exact List.take_left' hlen

@[simp] theorem content_cut (b : AutoBuffer α) (h : n ≤ b.fillSize) :
    (b.cutFromHead n).content = b.content.drop n := by
  have hr := b.ready_le
  unfold cutFromHead
  split
  · rename_i hn
    rcases hn with rfl | hn
    · rfl
    · simp only [fillSize] at h
      omega
  · simp only [content]
    rw [List.take_append_of_le_length (by simp; omega), List.take_take, Nat.min_self,
      List.take_drop]
    congr 2
    simp only [fillSize] at h
    omega

/-- A write at a filled position stays in the filled part. -/
theorem content_set (b : AutoBuffer α) (i : Nat) (v : α) :
    (b.set i v).content = b.content.set i v := by
  simp [content, set, List.take_set]

theorem content_increment (b : AutoBuffer α) (n : Nat) :
    (b.incrementFreeSize n).content = b.content.take (b.fillSize - n) := by
  simp only [content, incrementFreeSize, fillSize, List.take_take]
  congr 1
  split <;> omega

end AutoBuffer

end Khorost
