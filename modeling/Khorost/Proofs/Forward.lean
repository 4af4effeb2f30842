import Khorost.App.HttpConnection

namespace Khorost

namespace AutoBuffer

/-- The same fill and the same allocation, whatever stands in them. -/
structure SameSize (b b' : AutoBuffer α) : Prop where
  fill : b.fillSize = b'.fillSize
  full : b.fullSize = b'.fullSize

theorem SameSize.refl (b : AutoBuffer α) : SameSize b b := ⟨rfl, rfl⟩

theorem SameSize.trans {b b' b'' : AutoBuffer α} (h : SameSize b b') (h' : SameSize b' b'') :
    SameSize b b'' :=
  ⟨h.fill.trans h'.fill, h.full.trans h'.full⟩

theorem SameSize.free {b b' : AutoBuffer α} (h : SameSize b b') : b.freeSize = b'.freeSize := by
  rw [freeSize, freeSize, h.fill, h.full]

theorem same_set (b : AutoBuffer α) (i : Nat) (v : α) : SameSize (b.set i v) b :=
  ⟨rfl, List.length_set⟩

end AutoBuffer

theorem parse_loop_same (h : parseLoop div trim size b t k v target = some (b', target')) :
    AutoBuffer.SameSize b' b := by
  induction size generalizing b t k v target with
  | zero =>
    cases h
    exact .refl _
  | succ size ih =>
    obtain ⟨c, -, h⟩ := Option.bind_eq_some_iff.mp h
    split at h
    · obtain ⟨k, -, h⟩ := Option.bind_eq_some_iff.mp h
      cases h
      exact .refl _
    · split at h
      · obtain ⟨k, -, h⟩ := Option.bind_eq_some_iff.mp h
        exact (ih h).trans (AutoBuffer.same_set b t nul)
      · split at h
        · exact (ih h).trans (AutoBuffer.same_set b t nul)
        · exact ih h

theorem find_stop_there (h : findStop div xs n = some (some m)) : m < xs.length := by
  induction xs generalizing n m with
  | nil => cases n <;> cases h
  | cons c xs ih =>
    cases n with
    | zero => cases h
    | succ n =>
      rw [findStop] at h
      split at h
      · cases h
        exact Nat.zero_lt_succ _
      · obtain ⟨r, hr, hm⟩ := Option.map_eq_some_iff.mp h
        obtain ⟨k, rfl, rfl⟩ := Option.map_eq_some_iff.mp hm
        exact Nat.succ_lt_succ (ih hr)

/-- The fill of the target moves by the size of the chunk. -/
theorem get_chunk_fill (h : getChunk i lead div target = some (some c)) :
    c.target.fillSize = target.fillSize + c.chunkSize ∧ 0 < c.chunkSize := by
  obtain ⟨s, -, h⟩ := Option.bind_eq_some_iff.mp h
  obtain ⟨stop, hstop, h⟩ := Option.bind_eq_some_iff.mp h
  split at h
  · cases h
  · cases h
    next m _ =>
      have hthere := find_stop_there hstop
      rw [List.length_drop] at hthere
      refine ⟨?_, Nat.zero_lt_succ _⟩
      change target.fillSize + (i.buffer.take (s + m + 1)).length = _
      rw [List.length_take, Nat.min_eq_left (by omega)]

theorem get_chunk_room (h : getChunk i lead div target = some (some c)) :
    0 < c.target.fullSize := by
  obtain ⟨hfill, hpos⟩ := get_chunk_fill h
  refine Nat.lt_of_lt_of_le ?_ c.target.ready_le
  change 0 < c.target.fillSize
  omega

/-- A chunk is never longer than the fill that it is a part of. -/
theorem get_chunk_forward (h : getChunk i lead div target = some (some c)) :
    c.target.NoWrap c.chunkSize :=
  AutoBuffer.no_wrap_of_fill (by rw [(get_chunk_fill h).1]; exact Nat.le_add_left _ _)

/-- A pass over the header lines at `p` does not move the fill back. Without a colon no
chunk assigns `chunk_size`, which is then added as it was left. -/
def AutoBuffer.StaysForward (b : AutoBuffer UInt8) (p : List UInt8) (chunkSize : Nat) : Prop :=
  2 ≤ p.length → ¬ [cr, lf] <+: p → colon ∉ p → b.NoWrap chunkSize

theorem skip_lead_clear (h : skipLead lead xs n = some s) : ∀ c ∈ xs.take s, c = lead := by
  induction xs generalizing n s with
  | nil => simp
  | cons d xs ih =>
    cases n with
    | zero =>
      cases h
      simp
    | succ n =>
      rw [skipLead] at h
      split at h
      · next hd =>
        obtain ⟨k, hk, rfl⟩ := Option.map_eq_some_iff.mp h
        rw [List.take_succ_cons, List.forall_mem_cons]
        exact ⟨hd, ih hk⟩
      · cases h
        simp

theorem find_stop_none (h : findStop div xs n = some none) :
    n ≤ xs.length ∧ ∀ c ∈ xs.take n, c ∉ div := by
  induction n generalizing xs with
  | zero => simp
  | succ n ih =>
    cases xs with
    | nil => cases h
    | cons d xs =>
      rw [findStop] at h
      split at h
      · cases h
      · next hd =>
        obtain ⟨r, hr, hm⟩ := Option.map_eq_some_iff.mp h
        obtain rfl := Option.map_eq_none_iff.mp hm
        obtain ⟨hle, hclear⟩ := ih hr
        rw [List.take_succ_cons, List.forall_mem_cons]
        exact ⟨Nat.succ_le_succ hle, hd, hclear⟩

/-- Where no chunk is found, all of the data has been looked at and holds no stop character. -/
theorem get_chunk_missed {i : Cursor} (h : getChunk i lead div target = some none)
    (hlead : lead ∉ div) :
    i.bufferSize ≤ i.buffer.length ∧ ∀ c ∈ i.buffer.take i.bufferSize, c ∉ div := by
  obtain ⟨s, hs, h⟩ := Option.bind_eq_some_iff.mp h
  obtain ⟨found, hfind, h⟩ := Option.bind_eq_some_iff.mp h
  cases found with
  | some m => cases h
  | none =>
    obtain ⟨hle, hclear⟩ := find_stop_none hfind
    rw [List.length_drop] at hle
    obtain ⟨hwithin, hlong⟩ := skip_lead_bounds hs
    refine ⟨by omega, fun c hc => ?_⟩
    rw [← Nat.add_sub_cancel' hwithin, List.take_add] at hc
    rcases List.mem_append.mp hc with hc | hc
    · rw [skip_lead_clear hs c hc]
      exact hlead
    · exact hclear c hc

/-- Then no chunk has assigned `chunk_size`, and it does not move the fill back. -/
theorem AutoBuffer.StaysForward.missed {b target : AutoBuffer UInt8} {i : Cursor}
    (hu : b.StaysForward (i.buffer.take i.bufferSize) n) (hsize : 2 ≤ i.bufferSize)
    (hblank : HttpHeader.blankLine i.buffer = some false)
    (hmiss : getChunk i space [colon] target = some none) : b.NoWrap n := by
  obtain ⟨hle, hclear⟩ := get_chunk_missed hmiss (by decide)
  refine hu (by rw [List.length_take]; omega) (fun hline => ?_) (fun hc => ?_)
  · obtain ⟨rest, hrest⟩ := hline.trans (List.take_prefix _ _)
    rw [← hrest] at hblank
    exact absurd hblank (by simp [HttpHeader.blankLine])
  · exact hclear colon hc (by simp)

theorem AutoBuffer.NoWrap.stays {b : AutoBuffer UInt8} (h : b.NoWrap n) (p : List UInt8) :
    b.StaysForward p n :=
  fun _ _ _ => h

namespace HttpHeader

/-- The same of a parser that stands in front of header lines. -/
def LinesForward (h : HttpHeader) (l : Locals) : Prop :=
  h.abHeader.StaysForward (l.cursor.buffer.take l.cursor.bufferSize) l.chunkSize

/-- The same of a whole call: `chunk_size` is still unassigned in the header lines only
when the call begins there. -/
def StaysForward (h : HttpHeader) (p : List UInt8) (chunkSize : Nat) : Prop :=
  h.headerProcess = .processingNext → h.abHeader.StaysForward p chunkSize

theorem stays_outside_lines {h : HttpHeader} (hp : h.headerProcess ≠ .processingNext) :
    h.StaysForward p n :=
  fun h0 => absurd h0 hp

theorem skip_line_end_size (h : skipLineEnd i n = some (j, m)) : m ≤ n + 1 := by
  unfold skipLineEnd at h
  split at h
  · obtain ⟨c, -, h⟩ := Option.bind_eq_some_iff.mp h
    split at h <;> cases h <;> omega
  · cases h
    omega

/-- Behind the version `chunk_size` is a part of the fill: the method stands before it. -/
theorem version_forward (he : versionPart h l = some (.next h' l')) (hv : h.queryVersion = none)
    (hpos : 0 < h.abHeader.fillSize) : h'.abHeader.NoWrap l'.chunkSize := by
  rw [versionPart, if_neg (by rw [hv]; simp)] at he
  obtain ⟨c, hc, he⟩ := Option.bind_eq_some_iff.mp he
  split at he
  · cases he
  · next c =>
    obtain ⟨⟨i, size⟩, hskip, he⟩ := Option.bind_eq_some_iff.mp he
    cases he
    obtain ⟨hfill, -⟩ := get_chunk_fill hc
    have hsize := skip_line_end_size hskip
    exact AutoBuffer.no_wrap_of_fill (by dsimp only; omega)

theorem add_header_same (he : addHeader h key value size = some h') :
    AutoBuffer.SameSize h'.abHeader h.abHeader := by
  unfold addHeader at he
  dsimp only at he
  split at he
  · cases he
    exact .refl _
  · split at he
    · obtain ⟨r, hparse, he⟩ := Option.bind_eq_some_iff.mp he
      cases he
      exact parse_loop_same hparse
    · cases he
      exact .refl _

/-- Behind a whole header line `chunk_size` is a part of the fill. -/
theorem header_line_forward (he : headerLine h l = some (h', l', true)) :
    h'.abHeader.NoWrap l'.chunkSize := by
  unfold headerLine at he
  obtain ⟨key, hkey, he⟩ := Option.bind_eq_some_iff.mp he
  split at he
  · cases he
  · next key =>
    obtain ⟨value, hvalue, he⟩ := Option.bind_eq_some_iff.mp he
    split at he
    · cases he
    · next value =>
      obtain ⟨⟨i, size⟩, hskip, he⟩ := Option.bind_eq_some_iff.mp he
      obtain ⟨h₁, hadd, he⟩ := Option.bind_eq_some_iff.mp he
      cases he
      obtain ⟨hkeyfill, -⟩ := get_chunk_fill hkey
      obtain ⟨hvaluefill, hvaluepos⟩ := get_chunk_fill hvalue
      have hsize := skip_line_end_size hskip
      have hfill : h'.abHeader.fillSize = value.target.fillSize := (add_header_same hadd).fill
      exact AutoBuffer.no_wrap_of_fill (by rw [hfill]; dsimp only; omega)

end HttpHeader

/-- A call of `data_processing` does not move the fill of the header buffer back. -/
def HttpConnection.StaysForward (u : Uninitialised) (d : HttpConnection) (p : List UInt8)
    (_ : List UInt8) : Prop :=
  (d.processor u).StaysForward p (u.chunkSize d.calls)

/-- With a `chunk_size` that happens to be zero no call moves the fill back. -/
theorem HttpConnection.forward_of_zero {u : Uninitialised} (hu : ∀ n, u.chunkSize n = 0)
    (d : HttpConnection) (p stale : List UInt8) : HttpConnection.StaysForward u d p stale := by
  intro _ _ _ _
  rw [hu]
  exact .inl (Nat.zero_le _)

theorem Connection.forward_of_zero {u : Uninitialised} (hu : ∀ n, u.chunkSize n = 0)
    (c : Connection HttpConnection) (data : List UInt8) :
    c.ReadCalls (HttpConnection.StaysForward u) (HttpConnection.dataProcessing u) data :=
  fun _ _ => LoopCalls.of_all (HttpConnection.forward_of_zero hu) _ _ _ _ _

theorem Connection.run_forward_of_zero {u : Uninitialised} (hu : ∀ n, u.chunkSize n = 0)
    (c : Connection HttpConnection) (arrivals : List (List UInt8)) :
    c.RunCalls (HttpConnection.StaysForward u) (HttpConnection.dataProcessing u) arrivals := by
  induction arrivals generalizing c with
  | nil => trivial
  | cons data arrivals ih => exact ⟨c.forward_of_zero hu data, ih _⟩

def HttpConnection.ServesForward (u : Uninitialised) (fresh : Nat → UInt8)
    (segments : List (List UInt8)) : Prop :=
  (Connection.idle fresh HttpConnection.start).RunCalls (HttpConnection.StaysForward u)
    (HttpConnection.dataProcessing u) segments

end Khorost
