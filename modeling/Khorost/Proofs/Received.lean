import Mathlib.Data.List.Induction
import Khorost.Net.Connection

namespace Khorost.Connection

/-- `data_processing` that also notes the byte ranges it reports as processed. -/
def recording (dp : DataProcessing σ) : DataProcessing (σ × List (List UInt8)) :=
  fun d memory size =>
    (dp d.1 memory size).map fun r => ((r.1, d.2 ++ [memory.take r.2]), r.2)

/-- The byte ranges reported as processed in a run of a new connection, in order. -/
def processedRanges (dp : DataProcessing σ) (fresh : Nat → UInt8) (d : σ)
    (arrivals : List (List UInt8)) : List (List UInt8) :=
  ((idle fresh (d, [])).reads (recording dp) arrivals).derived.2

/-- Two connections that differ in the record only. -/
structure Recorded (c : Connection σ) (c' : Connection (σ × List (List UInt8))) : Prop where
  socketBuffer : c'.socketBuffer = c.socketBuffer
  receiveBytes : c'.receiveBytes = c.receiveBytes
  fault : c'.fault = c.fault
  derived : c'.derived.1 = c.derived

variable {dp : DataProcessing σ} {c : Connection σ} {c' : Connection (σ × List (List UInt8))}

theorem recording_loop (dp : DataProcessing σ) (memory : List UInt8) (fill fuel s : Nat)
    (d : σ × List (List UInt8)) :
    (compileLoop (recording dp) memory fill fuel s d).1.1 =
        (compileLoop dp memory fill fuel s d.1).1 ∧
      (compileLoop (recording dp) memory fill fuel s d).2 =
        (compileLoop dp memory fill fuel s d.1).2 := by
  induction fuel generalizing s d with
  | zero => exact ⟨rfl, rfl⟩
  | succ fuel ih =>
    unfold compileLoop
    by_cases hs : s < fill
    · rw [if_pos hs, if_pos hs, recording]
      cases dp d.1 (memory.drop s) (fill - s) with
      | none => exact ⟨rfl, rfl⟩
      | some r =>
        dsimp only [Option.map_some]
        by_cases hn : r.2 = 0
        · rw [if_pos hn, if_pos hn]
          exact ⟨rfl, rfl⟩
        · rw [if_neg hn, if_neg hn]
          exact ih _ _
    · rw [if_neg hs, if_neg hs]
      exact ⟨rfl, rfl⟩

theorem Recorded.read (h : Recorded c c') (dp : DataProcessing σ) (data : List UInt8) :
    Recorded (c.stubConnRead dp data) (c'.stubConnRead (recording dp) data) := by
  unfold stubConnRead
  rw [h.fault]
  split
  · exact h
  split
  · obtain ⟨hd, hs⟩ := recording_loop dp (readInto c.socketBuffer data).buffer
      (readInto c.socketBuffer data).fillSize (readInto c.socketBuffer data).fillSize 0 c'.derived
    rw [h.derived] at hd hs
    unfold compileBufferData
    dsimp only
    rw [h.socketBuffer, h.receiveBytes]
    generalize compileLoop (recording dp) _ _ _ _ _ = r' at hd hs ⊢
    generalize compileLoop dp _ _ _ _ _ = r at hd hs ⊢
    obtain ⟨d', s'⟩ := r'
    obtain ⟨d₁, s₁⟩ := r
    dsimp only at hd hs
    subst hs
    cases s' with
    | none => exact ⟨rfl, rfl, rfl, hd⟩
    | some s => exact ⟨rfl, rfl, rfl, hd⟩
  · exact h

theorem Recorded.reads (h : Recorded c c') (dp : DataProcessing σ) (arrivals : List (List UInt8)) :
    Recorded (c.reads dp arrivals) (c'.reads (recording dp) arrivals) := by
  induction arrivals generalizing c c' with
  | nil => exact h
  | cons data arrivals ih => exact ih (h.read dp data)

def Bounded (dp : DataProcessing σ) : Prop :=
  ∀ d memory size, size ≤ memory.length → ∃ d' n, dp d memory size = some (d', n) ∧ n ≤ size

/-- What has been recorded and what waits in the buffer is what has arrived. -/
structure Accounted (arrived : List UInt8) (c : Connection (σ × List (List UInt8))) : Prop where
  fault : c.fault = false
  bytes : c.derived.2.flatten ++ c.socketBuffer.content = arrived

theorem Accounted.read (hdp : Bounded dp) (h : Accounted arrived c') (data : List UInt8) :
    Accounted (arrived ++ data) (c'.stubConnRead (recording dp) data) := by
  by_cases hdata : data = []
  · have hskip : c'.stubConnRead (recording dp) data = c' := by simp [stubConnRead, hdata]
    rw [hskip, hdata, List.append_nil]
    exact h
  · let I : σ × List (List UInt8) → List UInt8 → Prop :=
      fun d p => d.2.flatten ++ p = arrived ++ data
    have step : ∀ d p, I d p → p ≠ [] → ∃ d' n,
        recording dp d (p ++ (readInto c'.socketBuffer data).stale) p.length = some (d', n) ∧
          ((n ≤ p.length ∧ I d' (p.drop n)) ∨ False) := by
      intro d p hI _
      obtain ⟨d', n, he, hn⟩ := hdp d.1 (p ++ (readInto c'.socketBuffer data).stale) p.length
        (by simp)
      refine ⟨_, n, by rw [recording, he]; rfl, .inl ⟨hn, ?_⟩⟩
      change (d.2 ++ [_]).flatten ++ p.drop n = _
      rw [List.flatten_append, List.flatten_singleton, List.take_append_of_le_length hn,
        List.append_assoc, List.take_append_drop]
      exact hI
    have hI : I c'.derived (c'.socketBuffer.content ++ data) := by
      change c'.derived.2.flatten ++ _ = _
      rw [← List.append_assoc, h.bytes]
    rcases read_rule (J := fun _ => False) _ rfl step (by simp) h.fault hdata hI with
      ⟨hf, hbytes, -⟩ | hJ
    · exact ⟨hf, hbytes⟩
    · exact hJ.elim

theorem accounted_reads (hdp : Bounded dp) (fresh : Nat → UInt8) (d : σ)
    (arrivals : List (List UInt8)) :
    Accounted arrivals.flatten ((idle fresh (d, [])).reads (recording dp) arrivals) := by
  induction arrivals using List.reverseRecOn with
  | nil => exact ⟨rfl, rfl⟩
  | append_singleton arrivals data ih =>
    rw [reads_append, List.flatten_append, List.flatten_singleton]
    exact ih.read hdp data

/-- After any reads the ranges processed so far and the bytes still waiting are
all the bytes read, in order. -/
theorem received_bytes_kept (hdp : Bounded dp) (fresh : Nat → UInt8) (d : σ)
    (arrivals : List (List UInt8)) :
    ((idle fresh d).reads dp arrivals).fault = false ∧
      (processedRanges dp fresh d arrivals).flatten ++
        ((idle fresh d).reads dp arrivals).socketBuffer.content = arrivals.flatten := by
  have ha := accounted_reads hdp fresh d arrivals
  have hstart : Recorded (idle fresh d) (idle fresh (d, [])) := ⟨rfl, rfl, rfl, rfl⟩
  have hr := hstart.reads dp arrivals
  rw [← hr.fault, ← hr.socketBuffer]
  exact ⟨ha.fault, ha.bytes⟩

def pairwise : DataProcessing Nat :=
  fun d _ size => some (d + 1, if 2 ≤ size then 2 else 0)

theorem pairwise_bounded : Bounded pairwise :=
  fun d _ size _ => ⟨d + 1, _, rfl, by split <;> omega⟩

theorem pairs_kept :
    ((idle (fun _ => 0) 0).reads pairwise [[1, 2, 3], [4], [5]]).fault = false ∧
      (processedRanges pairwise (fun _ => 0) 0 [[1, 2, 3], [4], [5]]).flatten ++
        ((idle (fun _ => 0) 0).reads pairwise [[1, 2, 3], [4], [5]]).socketBuffer.content =
          [1, 2, 3, 4, 5] :=
  received_bytes_kept pairwise_bounded (fun _ => 0) 0 [[1, 2, 3], [4], [5]]

end Khorost.Connection
