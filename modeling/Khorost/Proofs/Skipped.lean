import Khorost.Proofs.Passes

namespace Khorost.Chunks

open Bytes

variable {h : ChunkIn ν} {node : ν}

/-- A chunk that the loop passes over without a call: one of an unknown type, or
an array without room for its count. -/
def Silent (type : UInt8) (length : Nat) : Prop :=
  if type = ChunkType.array then length < 2 else type ∉ valueTypes

/-- Bytes that are whole chunks, each of them silent. -/
inductive Skipped : List UInt8 → Prop
  | nil : Skipped []
  | chunk {q q' : List UInt8} (id type : UInt8) (length : Nat)
    (head : nextHead q = some (id, type, length, q')) (silent : Silent type length)
    (rest : Skipped (q'.drop length)) : Skipped q

theorem silent_pass (h : ChunkIn ν) (node : ν) {id : UInt8}
    (hnext : nextHead q = some (id, type, length, q'))
    (hs : Silent type length) (stale : List UInt8) (fuel : Nat) (log : CallLog ν) :
    parseChunks h (fuel + 1) node ⟨q ++ stale, q.length⟩ log =
      parseChunks h fuel node ⟨q'.drop length ++ stale, (q'.drop length).length⟩ log := by
  obtain ⟨-, -, hle, -⟩ := next_head_some hnext
  rw [parseChunks, read_head_next, hnext]
  dsimp only
  by_cases harray : type = ChunkType.array
  · rw [Silent, if_pos harray] at hs
    rw [if_pos harray, if_neg (by omega), Input.skip_front _ hle]
  · rw [Silent, if_neg harray] at hs
    obtain ⟨call, rest, hvalue⟩ := read_value_spec id type hle
    rw [if_neg harray, hvalue.reads]
    cases call with
    | some c => exact absurd (hvalue.delivered c rfl).2.2 hs
    | none =>
      rcases hvalue.silent rfl with ⟨-, rfl⟩ | ⟨hknown, -⟩
      · dsimp only
        rw [Option.toList_none, List.map_nil, List.append_nil]
      · exact absurd hknown hs

/-- What one pass of the chunk loop can do: end the parse, make a call with the
id of the chunk, or go on behind a silent chunk or a head with too little behind it. -/
theorem chunk_pass_cases (h : ChunkIn ν) (node : ν) (q : List UInt8) :
    (nextHead q = none ∧ ∀ stale fuel log,
      parseChunks h (fuel + 1) node ⟨q ++ stale, q.length⟩ log = (log, none)) ∨
    ∃ id type length q', nextHead q = some (id, type, length, q') ∧
      ((∀ stale fuel log, ∃ c, callId c = id ∧ SliceOf q' c ∧ log ++ [(node, c)] <+:
          (parseChunks h (fuel + 1) node ⟨q ++ stale, q.length⟩ log).1) ∨
        ∃ rest, (Silent type length ∧ rest = q'.drop length ∨ rest = q' ∧ q'.length < 8) ∧
          ∀ stale fuel log, parseChunks h (fuel + 1) node ⟨q ++ stale, q.length⟩ log =
            parseChunks h fuel node ⟨rest ++ stale, rest.length⟩ log) := by
  cases hnext : nextHead q with
  | none =>
    refine .inl ⟨rfl, fun stale fuel log => ?_⟩
    rw [parseChunks, read_head_next, hnext]
  | some head =>
    obtain ⟨id, type, length, q'⟩ := head
    obtain ⟨-, -, hle, -⟩ := next_head_some hnext
    refine .inr ⟨id, type, length, q', rfl, ?_⟩
    by_cases hs : Silent type length
    · exact .inr ⟨_, .inl ⟨hs, rfl⟩, silent_pass h node hnext hs⟩
    simp only [parseChunks, read_head_next, hnext]
    by_cases harray : type = ChunkType.array
    · rw [Silent, if_pos harray] at hs
      simp only [if_pos harray, if_pos (Nat.le_of_not_lt hs)]
      left
      intro stale fuel log
      have hread : (Input.mk (q' ++ stale) length).readBuffer16 =
          some (UInt16.ofNat (leValue ((q' ++ stale).take 2)),
            (Input.mk (q' ++ stale) length).skip 2) := by
        rw [Input.readBuffer16, Input.readBuffer, if_pos (by rw [List.length_append]; omega)]
        rfl
      rw [hread]
      generalize UInt16.ofNat (leValue ((q' ++ stale).take 2)) = count
      refine ⟨.setArray id count, rfl, trivial, ?_⟩
      dsimp only
      split
      · exact (log_grows h fuel).1 _ _ _
      · next array _ =>
        have hn := (log_grows h fuel).2 array id 0 ((Input.mk (q' ++ stale) length).skip 2)
          (log ++ [(node, .setArray id count)])
        split
        · next log' hlog =>
          rw [hlog] at hn
          exact hn.trans ((log_grows h fuel).1 _ _ _)
        · exact hn
    · rw [Silent, if_neg harray] at hs
      simp only [if_neg harray]
      obtain ⟨call, rest, hvalue⟩ := read_value_spec id type hle
      simp only [hvalue.reads]
      cases call with
      | some c =>
        left
        intro stale fuel log
        obtain ⟨hid, hslice, -⟩ := hvalue.delivered c rfl
        exact ⟨c, hid, hslice, (log_grows h fuel).1 _ _ _⟩
      | none =>
        refine .inr ⟨rest, ?_, fun stale fuel log => ?_⟩
        · rcases hvalue.silent rfl with ⟨hunknown, -⟩ | ⟨-, hrest, hshort⟩
          · exact absurd hunknown hs
          · exact .inr ⟨hrest, hshort⟩
        · rw [Option.toList_none, List.map_nil, List.append_nil]

theorem next_head_append {id : UInt8} (h : nextHead q = some (id, type, length, q'))
    (tail : List UInt8) : nextHead (q ++ tail) = some (id, type, length, q' ++ tail) := by
  unfold nextHead at h
  split at h
  · split at h
    · next hle =>
      cases h
      exact if_pos (Nat.le_trans hle (List.prefix_append _ tail).length_le)
    · cases h
  · cases h

theorem next_head_front {id : UInt8} (h : nextHead (q ++ tail) = some (id, type, length, q'))
    (hle : length + 4 ≤ q.length) : ∃ q₁, nextHead q = some (id, type, length, q₁) := by
  match q with
  | [] | [_] | [_, _] | [_, _, _] => simp only [List.length_cons, List.length_nil] at hle; omega
  | id' :: type' :: s₁ :: s₀ :: q₁ =>
    simp only [List.cons_append, nextHead] at h
    split at h
    · simp only [Option.some.injEq, Prod.mk.injEq] at h
      obtain ⟨rfl, rfl, rfl, -⟩ := h
      simp only [List.length_cons] at hle
      exact ⟨q₁, if_pos (by omega)⟩
    · cases h

theorem leads_skipped (h : ChunkIn ν) (node : ν) (hs : Skipped q) : Leads h node q [] := by
  induction hs with
  | nil => exact leads_nil h node
  | @chunk q q' id type length hnext hs _ ih =>
    obtain ⟨hq, hlen, hle, -⟩ := next_head_some hnext
    obtain ⟨k, hk, hrun⟩ := ih
    rw [List.length_drop] at hk
    refine ⟨k + 1, by omega, fun tail stale fuel log => ?_⟩
    have hpass := silent_pass h node (next_head_append hnext tail) hs stale (fuel + k) log
    rw [List.drop_append_of_le_length hle] at hpass
    rw [← Nat.add_assoc, hpass, hrun]

/-- The call that was asked for when the chunk was appended. -/
def appended : Chunk → ChunkCall
  | .byte id v => .setValue8 id v
  | .short id v => .setValue16 id v
  | .integer id v => .setValue32 id v
  | .string id value => .setString id value
  | .buffer id value => .setBinary id value.content

/-- A chunk that comes back as it was appended: a 16- or 32-bit value reads the
same in both byte orders, a string fits its size field, and a buffer does too and
has nothing behind its fill that the loop would notice. -/
def Sound : Chunk → Prop
  | .byte _ _ => True
  | .short _ v => ntohs v = v
  | .integer _ v => ntohl v = v
  | .string _ value => value.length ≤ 65535
  | .buffer _ value => value.fillSize ≤ 65535 ∧ Skipped value.stale

def filled (value : AutoBuffer UInt8) : AutoBuffer UInt8 :=
  ⟨value.content, value.fillSize, value.fresh, Nat.le_of_eq value.content_length.symm⟩

theorem filled_framed (id : UInt8) (hfill : value.fillSize ≤ 65535) :
    Chunk.Framed (.buffer id (filled value)) :=
  ⟨value.content_length.symm, hfill⟩

/-- The bytes of a buffer chunk are those of its filled part and the free part. -/
theorem buffer_bytes (id : UInt8) (value : AutoBuffer UInt8) :
    (Chunk.buffer id value).bytes = (Chunk.buffer id (filled value)).bytes ++ value.stale := by
  simp only [Chunk.bytes, List.cons_append, List.append_assoc]
  rw [value.buffer_split]
  rfl

theorem filled_call (id : UInt8) (value : AutoBuffer UInt8) :
    (Chunk.buffer id (filled value)).call = .setBinary id value.content := by
  rw [Chunk.call, AutoBuffer.content, filled]
  dsimp only
  rw [← value.content_length, List.take_length]

theorem leads_sound (h : ChunkIn ν) (node : ν) {c : Chunk} (hc : Sound c) :
    Leads h node c.bytes [appended c] := by
  cases c with
  | byte id v => exact leads_chunk h node (c := .byte id v) trivial
  | short id v =>
    have hl := leads_chunk h node (c := .short id v) trivial
    rwa [Chunk.call, show ntohs v = v from hc] at hl
  | integer id v =>
    have hl := leads_chunk h node (c := .integer id v) trivial
    rwa [Chunk.call, show ntohl v = v from hc] at hl
  | string id value => exact leads_chunk h node (c := .string id value) hc
  | buffer id value =>
    rw [buffer_bytes, appended, ← filled_call]
    exact (leads_chunk h node (filled_framed id hc.1)).append (leads_skipped h node hc.2)

/-- A buffer chunk between other chunks, and all of them come back as appended. -/
def Intact (h : ChunkIn ν) (node : ν) (fresh : Nat → UInt8) (pre : List Chunk) (id : UInt8)
    (value : AutoBuffer UInt8) (post : List Chunk) (behind : List UInt8) : Prop :=
  let cs := pre ++ .buffer id value :: post
  let packet := (build fresh cs).abPacket
  parsePacket h node (packet.content ++ behind) packet.fillSize =
    ((cs.map appended).map fun call => (node, call), none)

theorem string_needs {id : UInt8}
    (hp : parseChunks h fuel node ⟨q ++ stale, q.length⟩ log =
      (log ++ [(node, .setString id value)], none)) :
    value.length + 4 ≤ q.length := by
  induction fuel generalizing q with
  | zero => simp [parseChunks] at hp
  | succ fuel ih =>
    rcases chunk_pass_cases h node q with
      ⟨-, hstop⟩ | ⟨id', type, length, q', hnext, hcall | ⟨rest, hrest, hgo⟩⟩
    · rw [hstop] at hp
      simp at hp
    · obtain ⟨c, -, hslice, hc⟩ := hcall stale fuel log
      obtain ⟨-, hlen, -, -⟩ := next_head_some hnext
      rw [hp, List.prefix_append_right_inj] at hc
      simp only [List.cons_prefix_cons, Prod.mk.injEq, true_and, List.prefix_rfl, and_true] at hc
      subst hc
      have hle := List.IsInfix.length_le hslice
      omega
    · obtain ⟨-, hlen, -, -⟩ := next_head_some hnext
      rw [hgo] at hp
      have hle := ih hp
      rcases hrest with ⟨-, rfl⟩ | ⟨rfl, -⟩
      · rw [List.length_drop] at hle
        omega
      · omega

/-- Bytes that change nothing about any sound chunks behind them are skipped. -/
theorem skipped_of_transparent (h : ChunkIn ν) (node : ν) (behind : List UInt8) (log : CallLog ν)
    (hall : ∀ post : List Chunk, (∀ c ∈ post, Sound c) → ∃ fuel,
      parseChunks h fuel node
          ⟨q ++ post.flatMap Chunk.bytes ++ behind, (q ++ post.flatMap Chunk.bytes).length⟩ log =
        (log ++ (post.map appended).map fun call => (node, call), none)) :
    Skipped q := by
  induction hn : q.length using Nat.strong_induction_on generalizing q with
  | _ n ih =>
    subst hn
    cases q with
    | nil => exact .nil
    | cons id₀ q₀ =>
      -- a string chunk whose id is not the first of the bytes
      let post : List Chunk := [.string (id₀ + 1) (List.replicate 8 0)]
      obtain ⟨fuel, hp⟩ := hall post (by simp [post, Sound])
      have hlen : (id₀ :: q₀ ++ post.flatMap Chunk.bytes).length = (id₀ :: q₀).length + 12 := by
        rw [List.length_append]
        rfl
      cases fuel with
      | zero => simp [parseChunks] at hp
      | succ fuel =>
        rcases chunk_pass_cases h node (id₀ :: q₀ ++ post.flatMap Chunk.bytes) with
          ⟨-, hstop⟩ | ⟨id, type, length, q', hnext, hcall | ⟨rest, hrest, hgo⟩⟩
        · rw [hstop] at hp
          simp [post] at hp
        · obtain ⟨c, hid, -, hc⟩ := hcall behind fuel log
          obtain ⟨-, -, -, hhead⟩ := next_head_some hnext
          rw [hp, List.prefix_append_right_inj] at hc
          simp only [post, List.map_cons, List.map_nil, List.cons_prefix_cons, Prod.mk.injEq,
            true_and, List.prefix_rfl, and_true] at hc
          subst hc
          have hsucc : id₀ + 1 = id₀ := hid.trans (Option.some.inj hhead).symm
          simp at hsucc
        · obtain ⟨-, hlen', hle, -⟩ := next_head_some hnext
          rcases hrest with ⟨hs, rfl⟩ | ⟨-, hshort⟩
          · by_cases hwhole : length + 4 ≤ (id₀ :: q₀).length
            · obtain ⟨q₁, hq₁⟩ := next_head_front hnext hwhole
              obtain ⟨-, hlen₁, hle₁, -⟩ := next_head_some hq₁
              refine .chunk id type length hq₁ hs (ih _ ?_ (fun post hpost => ?_) rfl)
              · rw [List.length_drop]
                omega
              · obtain ⟨fuel, hp⟩ := hall post hpost
                cases fuel with
                | zero => simp [parseChunks] at hp
                | succ fuel =>
                  rw [silent_pass h node (next_head_append hq₁ _) hs,
                    List.drop_append_of_le_length hle₁] at hp
                  exact ⟨fuel, hp⟩
            · rw [hgo] at hp
              have hneeds := string_needs hp
              rw [List.length_drop, List.length_replicate] at hneeds
              omega
          · rw [hlen] at hlen'
            simp only [List.length_cons] at hlen'
            omega

/-- A buffer chunk of at most 65535 filled bytes and whatever sound chunks follow
it come back as appended exactly when the loop passes over what stands behind
the fill in the allocation of the buffer. -/
theorem buffer_chunk_intact_iff (h : ChunkIn ν) (node : ν) (fresh : Nat → UInt8)
    (pre : List Chunk) (hpre : ∀ c ∈ pre, Sound c) (id : UInt8) (value : AutoBuffer UInt8)
    (hfill : value.fillSize ≤ 65535) (behind : List UInt8) :
    (∀ post : List Chunk, (∀ c ∈ post, Sound c) →
      Intact h node fresh pre id value post behind) ↔ Skipped value.stale := by
  have hunfold : ∀ post, Intact h node fresh pre id value post behind ↔
      parsePacket h node ((pre ++ .buffer id value :: post).flatMap Chunk.bytes ++ behind)
        ((pre ++ .buffer id value :: post).flatMap Chunk.bytes).length =
      (((pre ++ .buffer id value :: post).map appended).map fun call => (node, call), none) := by
    intro post
    rw [Intact, ← AutoBuffer.content_length, build_content]
  constructor
  · intro hall
    -- what comes before the free part
    let front := pre.flatMap Chunk.bytes ++ (Chunk.buffer id (filled value)).bytes
    have hfront : Leads h node front (pre.map appended ++ [.setBinary id value.content]) := by
      rw [← filled_call]
      exact (leads_run appended pre fun d hd => leads_sound h node (hpre d hd)).append
        (leads_chunk h node (filled_framed id hfill))
    refine skipped_of_transparent h node behind
      ((pre.map appended ++ [ChunkCall.setBinary id value.content]).map fun call => (node, call))
      fun post hpost => ?_
    have hbytes : (pre ++ .buffer id value :: post).flatMap Chunk.bytes =
        front ++ (value.stale ++ post.flatMap Chunk.bytes) := by
      rw [List.flatMap_append, List.flatMap_cons, buffer_bytes]
      simp only [front, List.append_assoc]
    have hp := (hunfold post).mp (hall post hpost)
    rw [hbytes] at hp
    obtain ⟨fuel, hparse⟩ := hfront.parse (value.stale ++ post.flatMap Chunk.bytes) behind
    refine ⟨fuel + 1, ?_⟩
    rw [hparse] at hp
    rw [hp]
    simp [appended]
  · intro hs post hpost
    rw [hunfold]
    refine (leads_run appended _ fun c hc => leads_sound h node ?_).packet behind
    rcases List.mem_append.mp hc with hc | hc
    · exact hpre c hc
    · rcases List.mem_cons.mp hc with rfl | hc
      · exact ⟨hfill, hs⟩
      · exact hpost c hc

/-- A buffer whose allocation is filled to the end. -/
def fullBuffer : AutoBuffer UInt8 := ⟨[5, 6], 2, fun _ => 0, Nat.le_refl 2⟩

theorem full_buffer_intact :
    Intact flat () (fun _ => 0) [.byte 1 7] 2 fullBuffer [.byte 3 8] [] :=
  (buffer_chunk_intact_iff flat () (fun _ => 0) [.byte 1 7] (by simp [Sound]) 2 fullBuffer
    (by decide) []).mpr .nil [.byte 3 8] (by simp [Sound])

/-- One byte in an allocation of 1024: the byte chunk behind it is lost. -/
theorem one_byte_buffer_not_intact :
    ¬ Intact flat () (fun _ => 0) [] 1 ((AutoBuffer.empty fun _ => 0).append [7]) [.byte 2 9] [] ∧
    (parsePacket flat ()
        (build (fun _ => 0)
          [.buffer 1 ((AutoBuffer.empty fun _ => 0).append [7]), .byte 2 9]).abPacket.content
        (build (fun _ => 0)
          [.buffer 1 ((AutoBuffer.empty fun _ => 0).append [7]), .byte 2 9]).abPacket.fillSize).1 =
      [((), .setBinary 1 [7])] := by
  have hcalls : (parsePacket flat ()
      (build (fun _ => 0)
        [.buffer 1 ((AutoBuffer.empty fun _ => 0).append [7]), .byte 2 9]).abPacket.content
      (build (fun _ => 0)
        [.buffer 1 ((AutoBuffer.empty fun _ => 0).append [7]), .byte 2 9]).abPacket.fillSize).1 =
      [((), .setBinary 1 [7])] := by decide +kernel
  refine ⟨fun h => ?_, hcalls⟩
  simp only [Intact, List.nil_append, List.append_nil] at h
  rw [h] at hcalls
  cases hcalls

end Khorost.Chunks
