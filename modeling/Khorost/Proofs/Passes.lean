import Mathlib.Logic.Relation
import Khorost.App.Server2hbNp
import Khorost.Proofs.Chunks

namespace Khorost.Chunks

open Bytes

/-- Id, type, size and what follows them, where the size is not too large. -/
def nextHead : List UInt8 → Option (UInt8 × UInt8 × Nat × List UInt8)
  | id :: type :: s₁ :: s₀ :: q =>
    if 256 * s₁.toNat + s₀.toNat ≤ q.length then
      some (id, type, 256 * s₁.toNat + s₀.toNat, q)
    else none
  | _ => none

/-- The loop finds the next head or stops, whatever stands behind the bytes. -/
theorem read_head_next (q stale : List UInt8) :
    readHead ⟨q ++ stale, q.length⟩ =
      match nextHead q with
      | some (id, type, length, q) => .head id type length ⟨q ++ stale, q.length⟩
      | none => .stop := by
  match q with
  | [] => rw [readHead, if_pos (by simp)]; rfl
  | [id] =>
    rw [readHead, if_neg (by simp), Input.read_buffer8_cons]
    rfl
  | [id, type] =>
    rw [readHead, if_neg (by simp), Input.read_buffer8_cons]
    dsimp only
    rw [if_neg (by simp), Input.read_buffer8_cons]
    rfl
  | [id, type, s₁] =>
    rw [readHead, if_neg (by simp), Input.read_buffer8_cons]
    dsimp only
    rw [if_neg (by simp), Input.read_buffer8_cons]
    rfl
  | id :: type :: s₁ :: s₀ :: q =>
    rw [readHead, if_neg (by simp), Input.read_buffer8_cons]
    dsimp only
    rw [if_neg (by simp), Input.read_buffer8_cons]
    dsimp only
    rw [if_neg (by simp), Input.read_buffer16_cons]
    dsimp only
    rw [ntohs_read, two_bytes_to_nat, nextHead]
    by_cases hle : 256 * s₁.toNat + s₀.toNat ≤ q.length
    · rw [if_pos hle, if_neg (by omega)]
    · rw [if_neg hle, if_pos (by omega)]

theorem next_head_some {id : UInt8} (h : nextHead q = some (id, type, length, q')) :
    q = q.take 4 ++ q' ∧ q.length = q'.length + 4 ∧ length ≤ q'.length ∧ q.head? = some id := by
  unfold nextHead at h
  split at h
  · split at h
    · next hle =>
      cases h
      exact ⟨rfl, rfl, hle, rfl⟩
    · cases h
  · cases h

def callId : ChunkCall → UInt8
  | .setString id _ | .setBinary id _ | .setValue8 id _ | .setValue16 id _ | .setValue32 id _
  | .setValue64 id _ | .setArray id _ | .enterNode id _ | .leaveNode id _ => id

/-- A string or binary value that a call delivers stands in `bytes` in one piece. -/
def SliceOf (bytes : List UInt8) : ChunkCall → Prop
  | .setString _ value | .setBinary _ value => value <:+: bytes
  | _ => True

theorem slice_of_trans (h : q <:+: bytes) : ∀ {call}, SliceOf q call → SliceOf bytes call
  | .setString .., hc | .setBinary .., hc => hc.trans h
  | .setValue8 .., _ | .setValue16 .., _ | .setValue32 .., _ | .setValue64 .., _
  | .setArray .., _ | .enterNode .., _ | .leaveNode .., _ => trivial

def valueTypes : List UInt8 :=
  [ChunkType.byte, ChunkType.short, ChunkType.integer, ChunkType.long, ChunkType.string,
    ChunkType.binary]

/-- A value type: so many bytes are read, if they are left, and made into a call. -/
structure Sized (id type : UInt8) (length n : Nat) (make : List UInt8 → ChunkCall) : Prop where
  reads : ∀ i, readValue id type length i =
    if n ≤ i.nBufferSize then (i.readBuffer n).map (fun (bs, i) => (some (make bs), i))
    else some (none, i)
  known : type ∈ valueTypes
  width : n ≤ 8 ∨ n = length
  about : ∀ bs, callId (make bs) = id
  slice : ∀ bs q, bs <:+: q → SliceOf q (make bs)

/-- The `switch` without its ARRAY case: one sized read, or the chunk is skipped. -/
theorem read_value_shape (id type : UInt8) (length : Nat) :
    (∃ n make, Sized id type length n make) ∨
      (type ∉ valueTypes ∧ ∀ i, readValue id type length i = some (none, i.skip length)) := by
  by_cases h1 : type = ChunkType.byte
  · refine .inl ⟨1, fun bs => .setValue8 id (UInt8.ofNat (leValue bs)), fun i => ?_, h1 ▸ by decide,
      .inl (by decide), fun _ => rfl, fun _ _ _ => trivial⟩
    rw [readValue, if_pos h1, Input.readBuffer8, Option.map_map]
    rfl
  by_cases h2 : type = ChunkType.short
  · refine .inl ⟨2, fun bs => .setValue16 id (ntohs (UInt16.ofNat (leValue bs))), fun i => ?_,
      h2 ▸ by decide, .inl (by decide), fun _ => rfl, fun _ _ _ => trivial⟩
    rw [readValue, if_neg h1, if_pos h2, Input.readBuffer16, Option.map_map]
    rfl
  by_cases h3 : type = ChunkType.integer
  · refine .inl ⟨4, fun bs => .setValue32 id (ntohl (UInt32.ofNat (leValue bs))), fun i => ?_,
      h3 ▸ by decide, .inl (by decide), fun _ => rfl, fun _ _ _ => trivial⟩
    rw [readValue, if_neg h1, if_neg h2, if_pos h3, Input.readBuffer32, Option.map_map]
    rfl
  by_cases h4 : type = ChunkType.long
  · refine .inl ⟨8, fun bs => .setValue64 id (ntohHalves (UInt64.ofNat (leValue bs))), fun i => ?_,
      h4 ▸ by decide, .inl (by decide), fun _ => rfl, fun _ _ _ => trivial⟩
    rw [readValue, if_neg h1, if_neg h2, if_neg h3, if_pos h4, Input.readBuffer64, Option.map_map]
    rfl
  by_cases h5 : type = ChunkType.string
  · refine .inl ⟨length, .setString id, fun i => ?_, h5 ▸ by decide, .inr rfl, fun _ => rfl,
      fun _ _ hbs => hbs⟩
    rw [readValue, if_neg h1, if_neg h2, if_neg h3, if_neg h4, if_pos h5]
  by_cases h7 : type = ChunkType.binary
  · refine .inl ⟨length, .setBinary id, fun i => ?_, h7 ▸ by decide, .inr rfl, fun _ => rfl,
      fun _ _ hbs => hbs⟩
    rw [readValue, if_neg h1, if_neg h2, if_neg h3, if_neg h4, if_neg h5, if_pos h7]
  refine .inr ⟨?_, fun i => ?_⟩
  · simp only [valueTypes, List.mem_cons, List.not_mem_nil, or_false]
    rintro (h | h | h | h | h | h) <;> contradiction
  · rw [readValue, if_neg h1, if_neg h2, if_neg h3, if_neg h4, if_neg h5, if_neg h7]

/-- What `readValue` does with the bytes `q` behind a head. -/
structure ValueRead (id type : UInt8) (length : Nat) (q : List UInt8) (call : Option ChunkCall)
    (q' : List UInt8) : Prop where
  reads : ∀ stale, readValue id type length ⟨q ++ stale, q.length⟩ =
    some (call, ⟨q' ++ stale, q'.length⟩)
  left : q' <:+ q
  delivered : ∀ c ∈ call, callId c = id ∧ SliceOf q c ∧ type ∈ valueTypes
  silent : call = none → (type ∉ valueTypes ∧ q' = q.drop length) ∨
    (type ∈ valueTypes ∧ q' = q ∧ q.length < 8)

theorem read_value_spec (id type : UInt8) (hl : length ≤ q.length) :
    ∃ call q', ValueRead id type length q call q' := by
  rcases read_value_shape id type length with ⟨n, make, hs⟩ | ⟨hunknown, hskip⟩
  · have hwidth := hs.width
    by_cases hn : n ≤ q.length
    · refine ⟨some (make (q.take n)), q.drop n, fun stale => ?_, List.drop_suffix n q,
        fun c hc => ?_, fun hnone => (by cases hnone)⟩
      · rw [hs.reads, if_pos hn, Input.read_buffer_front stale hn]
        rfl
      · cases hc
        exact ⟨hs.about _, hs.slice _ _ (List.take_prefix n q).isInfix, hs.known⟩
    · refine ⟨none, q, fun stale => ?_, List.suffix_rfl, fun c hc => (by cases hc),
        fun _ => .inr ⟨hs.known, rfl, by omega⟩⟩
      rw [hs.reads]
      exact if_neg hn
  · refine ⟨none, q.drop length, fun stale => ?_, List.drop_suffix _ _, fun c hc => (by cases hc),
      fun _ => .inl ⟨hunknown, rfl⟩⟩
    rw [hskip, Input.skip_front stale hl]

/-- `SetArray` returns `NULL`, whatever has been called before. -/
def RefusesArrays (h : ChunkIn ν) : Prop :=
  ∀ log node id count, h.setArray log node id count = none

/-- One pass of the chunk loop where arrays are refused: the pointer and the
calls after it. `none` is the end of the loop, or a read outside the memory. -/
def flatPass (node : ν) (i : Input) (log : CallLog ν) : Option (Input × CallLog ν) :=
  match readHead i with
  | .stop | .outside => none
  | .head id type length i =>
    if type = ChunkType.array then
      if 2 ≤ length then
        ((Input.mk i.pBuffer length).readBuffer16).map fun (count, _) =>
          (i.skip length, log ++ [(node, .setArray id count)])
      else some (i.skip length, log)
    else
      (readValue id type length i).map fun (call, i) =>
        (i, log ++ call.toList.map (fun call => (node, call)))

theorem parse_flat_pass {h : ChunkIn ν} (hflat : RefusesArrays h)
    (hpass : flatPass node i log = some (i', log')) (fuel : Nat) :
    parseChunks h (fuel + 1) node i log = parseChunks h fuel node i' log' := by
  unfold flatPass at hpass
  rw [parseChunks]
  cases hhead : readHead i with
  | stop | outside => simp only [hhead, reduceCtorEq] at hpass
  | head id type length i₁ =>
    simp only [hhead] at hpass ⊢
    by_cases harray : type = ChunkType.array
    · rw [if_pos harray] at hpass ⊢
      by_cases hcount : 2 ≤ length
      · rw [if_pos hcount] at hpass ⊢
        obtain ⟨⟨count, inner⟩, hread, he⟩ := Option.map_eq_some_iff.mp hpass
        cases he
        rw [hread]
        dsimp only
        rw [hflat]
      · rw [if_neg hcount] at hpass ⊢
        cases hpass
        rfl
    · rw [if_neg harray] at hpass ⊢
      obtain ⟨⟨call, i₂⟩, hread, he⟩ := Option.map_eq_some_iff.mp hpass
      cases he
      rw [hread]

/-- A pass takes a head and more off the bytes left, or stops in front of them. -/
theorem flat_pass_spec (node : ν) (q : List UInt8) :
    (nextHead q = none ∧ ∀ stale log, flatPass node ⟨q ++ stale, q.length⟩ log = none) ∨
      ∃ q' calls, q' <:+ q ∧ q'.length < q.length ∧ (∀ c ∈ calls, SliceOf q c.2) ∧
        ∀ stale log, flatPass node ⟨q ++ stale, q.length⟩ log =
          some (⟨q' ++ stale, q'.length⟩, log ++ calls) := by
  unfold flatPass
  simp only [read_head_next]
  cases hnext : nextHead q with
  | none => exact .inl ⟨rfl, fun _ _ => rfl⟩
  | some head =>
    obtain ⟨id, type, length, q₁⟩ := head
    obtain ⟨hq, hlen, hle, -⟩ := next_head_some hnext
    have hbehind : q₁ <:+ q := ⟨q.take 4, hq.symm⟩
    have hdrop := (List.drop_suffix length q₁).trans hbehind
    have hshort : (q₁.drop length).length < q.length := by
      rw [List.length_drop]
      omega
    right
    dsimp only
    by_cases harray : type = ChunkType.array
    · simp only [if_pos harray, Input.skip_front _ hle]
      by_cases hcount : 2 ≤ length
      · simp only [if_pos hcount]
        have hread : ∀ stale, ∃ inner, (Input.mk (q₁ ++ stale) length).readBuffer16 =
            some (UInt16.ofNat (leValue (q₁.take 2)), inner) := by
          intro stale
          have h2 : 2 ≤ (q₁ ++ stale).length := by
            rw [List.length_append]
            omega
          rw [Input.readBuffer16, Input.readBuffer, if_pos h2]
          refine ⟨(Input.mk (q₁ ++ stale) length).skip 2, ?_⟩
          rw [Option.map_some, List.take_append_of_le_length (by omega)]
        refine ⟨q₁.drop length, [(node, .setArray id (UInt16.ofNat (leValue (q₁.take 2))))], hdrop,
          hshort, ?_, fun stale log => ?_⟩
        · intro c hc
          obtain rfl := List.mem_singleton.mp hc
          trivial
        · obtain ⟨inner, hr⟩ := hread stale
          rw [hr]
          rfl
      · simp only [if_neg hcount]
        exact ⟨q₁.drop length, [], hdrop, hshort, by simp, fun stale log => by simp⟩
    · obtain ⟨call, q₂, hvalue⟩ := read_value_spec id type hle
      have hshort₂ := hvalue.left.length_le
      refine ⟨q₂, call.toList.map fun call => (node, call), hvalue.left.trans hbehind, by omega, ?_,
        fun stale log => ?_⟩
      · intro c hc
        obtain ⟨c, hmem, rfl⟩ := List.mem_map.mp hc
        exact slice_of_trans hbehind.isInfix (hvalue.delivered c (Option.mem_toList.mp hmem)).2.1
      · rw [if_neg harray, hvalue.reads]
        rfl

/-- The parse of the bytes left, whatever stands behind them. -/
theorem parse_flat {h : ChunkIn ν} (hflat : RefusesArrays h) (node : ν) (q : List UInt8)
    (log : CallLog ν) :
    ∃ calls, (∀ c ∈ calls, SliceOf q c.2) ∧ ∀ stale fuel, q.length < fuel →
      parseChunks h fuel node ⟨q ++ stale, q.length⟩ log = (log ++ calls, none) := by
  induction hn : q.length using Nat.strong_induction_on generalizing q log with
  | _ n ih =>
    subst hn
    rcases flat_pass_spec node q with ⟨hnext, -⟩ | ⟨q', calls, hleft, hshort, hcalls, hpass⟩
    · refine ⟨[], by simp, fun stale fuel hfuel => ?_⟩
      obtain ⟨fuel, rfl⟩ : ∃ k, fuel = k + 1 := ⟨fuel - 1, by omega⟩
      rw [parseChunks, read_head_next, hnext, List.append_nil]
    · obtain ⟨more, hmore, hrest⟩ := ih q'.length hshort q' (log ++ calls) rfl
      refine ⟨calls ++ more, ?_, fun stale fuel hfuel => ?_⟩
      · intro c hc
        rcases List.mem_append.mp hc with hc | hc
        · exact hcalls c hc
        · exact slice_of_trans hleft.isInfix (hmore c hc)
      · obtain ⟨fuel, rfl⟩ : ∃ k, fuel = k + 1 := ⟨fuel - 1, by omega⟩
        rw [parse_flat_pass hflat (hpass stale log), hrest stale fuel (by omega), List.append_assoc]

/-- The loop at its top: the pointer and the calls made so far. -/
def FlatPass (node : ν) (s s' : Input × CallLog ν) : Prop := flatPass node s.1 s.2 = some s'

/-- The remaining size is always the number of bytes left. -/
theorem flat_passes_left {stale : List UInt8}
    (hrun : Relation.ReflTransGen (FlatPass node) (⟨bytes ++ stale, bytes.length⟩, log) s) :
    ∃ q, q <:+ bytes ∧ s.1 = ⟨q ++ stale, q.length⟩ := by
  induction hrun with
  | refl => exact ⟨bytes, List.suffix_rfl, rfl⟩
  | tail _ hpass ih =>
    obtain ⟨q, hq, hs⟩ := ih
    rw [FlatPass, hs] at hpass
    rcases flat_pass_spec node q with ⟨-, hstop⟩ | ⟨q', calls, hleft, -, -, hnext⟩
    · rw [hstop] at hpass
      cases hpass
    · rw [hnext] at hpass
      cases hpass
      exact ⟨q', hleft.trans hq, rfl⟩

/-- With arrays refused the parse comes to its end, makes the same calls whatever
stands behind the packet, delivers slices of the packet only, and its remaining
size is the number of bytes left at every pass. -/
theorem flat_parse_safe {h : ChunkIn ν} (hflat : RefusesArrays h) (node : ν)
    (bytes : List UInt8) :
    (∃ log, (∀ stale, parsePacket h node (bytes ++ stale) bytes.length = (log, none)) ∧
      ∀ c ∈ log, SliceOf bytes c.2) ∧
    ∀ stale s, Relation.ReflTransGen (FlatPass node) (⟨bytes ++ stale, bytes.length⟩, []) s →
      ∃ q, q <:+ bytes ∧ s.1 = ⟨q ++ stale, q.length⟩ := by
  obtain ⟨calls, hslices, hparse⟩ := parse_flat hflat node bytes []
  refine ⟨⟨calls, fun stale => ?_, hslices⟩, fun stale s hrun => flat_passes_left hrun⟩
  rw [parsePacket, hparse stale _ (by rw [List.length_append]; omega), List.nil_append]

/-- A string chunk, an array that is passed over, a long that has too few bytes. -/
theorem flat_parse_malformed :
    (∃ log, (∀ stale, parsePacket flat () ([2, 5, 0, 1, 65, 9, 8, 0, 2, 0, 1, 3, 4, 0, 1, 7] ++ stale)
        16 = (log, none)) ∧
      ∀ c ∈ log, SliceOf [2, 5, 0, 1, 65, 9, 8, 0, 2, 0, 1, 3, 4, 0, 1, 7] c.2) ∧
    ∀ stale s, Relation.ReflTransGen (FlatPass ())
      (⟨[2, 5, 0, 1, 65, 9, 8, 0, 2, 0, 1, 3, 4, 0, 1, 7] ++ stale, 16⟩, []) s →
      ∃ q, q <:+ [2, 5, 0, 1, 65, 9, 8, 0, 2, 0, 1, 3, 4, 0, 1, 7] ∧
        s.1 = ⟨q ++ stale, q.length⟩ :=
  flat_parse_safe (h := flat) (fun _ _ _ _ => rfl) ()
    [2, 5, 0, 1, 65, 9, 8, 0, 2, 0, 1, 3, 4, 0, 1, 7]

/-- A string field of a handler that takes over delivered strings and nothing else. -/
def TakesStrings (receive : σ → ChunkCall → σ) (field : σ → List UInt8) : Prop :=
  ∀ c call, field (receive c call) = field c ∨ ∃ id, call = .setString id (field (receive c call))

/-- Such a field holds what it held before or a piece of the packet. -/
theorem s2b_strings {receive : σ → ChunkCall → σ} {field : σ → List UInt8}
    (htakes : TakesStrings receive field) (c : σ) (bytes stale : List UInt8) :
    field (s2bParse receive c (bytes ++ stale) bytes.length) = field c ∨
      field (s2bParse receive c (bytes ++ stale) bytes.length) <:+: bytes := by
  obtain ⟨⟨log, hparse, hslices⟩, -⟩ :=
    flat_parse_safe (h := s2bChunkIn) (fun _ _ _ _ => rfl) () bytes
  rw [s2bParse, hparse]
  dsimp only
  clear hparse
  induction log generalizing c with
  | nil => exact .inl rfl
  | cons call log ih =>
    rw [List.map_cons, List.foldl_cons]
    rcases ih (receive c call.2) fun d hd => hslices d (List.mem_cons_of_mem _ hd) with he | hs
    · rw [he]
      rcases htakes c call.2 with hkept | ⟨id, hset⟩
      · exact .inl hkept
      · have hslice := hslices call (by simp)
        rw [hset] at hslice
        exact .inr hslice
    · exact .inr hs

theorem handlers_take_strings :
    TakesStrings S2bConnectClient.receive S2bConnectClient.login ∧
      TakesStrings S2bConnectServer.receive S2bConnectServer.salt ∧
      TakesStrings S2bConnectServer.receive S2bConnectServer.saltM ∧
      TakesStrings S2bLogonClient.receive S2bLogonClient.login ∧
      TakesStrings S2bLogonClient.receive S2bLogonClient.hash := by
  refine ⟨?_, ?_, ?_, ?_, ?_⟩
  all_goals
    intro c call
    cases call
    case setString id value =>
      simp only [S2bConnectClient.receive, S2bConnectServer.receive, S2bLogonClient.receive]
      repeat' split
      all_goals first | exact .inl rfl | exact .inr ⟨id, rfl⟩
    all_goals exact .inl rfl

end Khorost.Chunks
