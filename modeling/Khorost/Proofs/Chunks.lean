import Khorost.Proofs.Packets

namespace Khorost.Chunks

open Bytes

/-- One call of an `AppendChunk` function. -/
inductive Chunk
  | byte (id v : UInt8)
  | short (id : UInt8) (v : UInt16)
  | integer (id : UInt8) (v : UInt32)
  | string (id : UInt8) (value : List UInt8)
  | buffer (id : UInt8) (value : AutoBuffer UInt8)

namespace Chunk

def append (o : ChunkOut) : Chunk → ChunkOut
  | byte id v => o.appendChunkByte id v
  | short id v => o.appendChunkShort id v
  | integer id v => o.appendChunkInteger id v
  | string id value => o.appendChunkString id value
  | buffer id value => o.appendChunkBuffer id value

/-- What `ParsePacket` does on reading the chunk back. -/
def call : Chunk → ChunkCall
  | byte id v => .setValue8 id v
  | short id v => .setValue16 id (ntohs v)
  | integer id v => .setValue32 id (ntohl v)
  | string id value => .setString id value
  | buffer id value => .setBinary id value.content

/-- The size field says how many bytes follow it. -/
def Framed : Chunk → Prop
  | byte _ _ | short _ _ | integer _ _ => True
  | string _ value => value.length ≤ 65535
  | buffer _ value => value.fillSize = value.fullSize ∧ value.fillSize ≤ 65535

def ByteOrString : Chunk → Prop
  | byte _ _ | string _ _ => True
  | _ => False

/-- The bytes of a chunk: id, type, size in network order, value. -/
def frame (id type : UInt8) (value : List UInt8) : List UInt8 :=
  id :: type :: (bytes16 (ntohs (UInt16.ofNat value.length)) ++ value)

def bytes : Chunk → List UInt8
  | byte id v => frame id ChunkType.byte [v]
  | short id v => frame id ChunkType.short (bytes16 v)
  | integer id v => frame id ChunkType.integer (bytes32 v)
  | string id value => frame id ChunkType.string value
  | buffer id value =>
    id :: ChunkType.binary :: (bytes16 (ntohs (UInt16.ofNat value.fillSize)) ++ value.buffer)

end Chunk

/-- The packet under construction after a sequence of calls. -/
def build (fresh : Nat → UInt8) (cs : List Chunk) : ChunkOut :=
  cs.foldl Chunk.append ⟨AutoBuffer.empty fresh⟩

theorem append_content (o : ChunkOut) (c : Chunk) :
    (Chunk.append o c).abPacket.content = o.abPacket.content ++ c.bytes := by
  cases c <;>
    simp [Chunk.append, Chunk.bytes, Chunk.frame, ChunkOut.appendChunkByte,
      ChunkOut.appendChunkShort, ChunkOut.appendChunkInteger, ChunkOut.appendChunkT,
      ChunkOut.appendChunkString, ChunkOut.appendChunkBuffer]

theorem build_content (fresh : Nat → UInt8) (cs : List Chunk) :
    (build fresh cs).abPacket.content = cs.flatMap Chunk.bytes := by
  suffices h : ∀ o : ChunkOut, (cs.foldl Chunk.append o).abPacket.content =
      o.abPacket.content ++ cs.flatMap Chunk.bytes by
    exact h ⟨AutoBuffer.empty fresh⟩
  induction cs with
  | nil => simp
  | cons c cs ih =>
    intro o
    rw [List.foldl_cons, ih, append_content, List.flatMap_cons, List.append_assoc]

theorem read_head (id type : UInt8) (n : Nat) (tail stale : List UInt8) (hn : n ≤ 65535)
    (hl : n ≤ tail.length) :
    readHead ⟨id :: type :: (bytes16 (ntohs (UInt16.ofNat n)) ++ tail) ++ stale,
      (id :: type :: (bytes16 (ntohs (UInt16.ofNat n)) ++ tail)).length⟩ =
      .head id type n ⟨tail ++ stale, tail.length⟩ := by
  have hsize : (ntohs (UInt16.ofNat (leValue [UInt8.ofNat (n / 256), UInt8.ofNat n]))).toNat = n := by
    rw [ntohs_read, two_bytes_to_nat, size_read hn]
  rw [size_bytes, readHead, if_neg (by simp), Input.read_buffer8_cons]
  dsimp only
  rw [if_neg (by simp), Input.read_buffer8_cons]
  dsimp only [List.cons_append, List.nil_append]
  rw [if_neg (by simp)]
  have h := Input.read_buffer16_cons (UInt8.ofNat (n / 256)) (UInt8.ofNat n) tail stale
  dsimp only [List.cons_append] at h
  rw [h]
  dsimp only
  rw [hsize, if_neg (by omega)]

/-- The parser reads back one chunk and stands behind it. -/
theorem parse_chunk (h : ChunkIn ν) (node : ν) (c : Chunk) (hc : c.Framed)
    (tail stale : List UInt8) (fuel : Nat) (log : CallLog ν) :
    parseChunks h (fuel + 1) node ⟨c.bytes ++ tail ++ stale, (c.bytes ++ tail).length⟩ log =
      parseChunks h fuel node ⟨tail ++ stale, tail.length⟩ (log ++ [(node, c.call)]) := by
  have pass : ∀ (id type : UInt8) (value : List UInt8), value.length ≤ 65535 →
      type ≠ ChunkType.array →
      readValue id type value.length ⟨value ++ tail ++ stale, (value ++ tail).length⟩ =
        some (some c.call, ⟨tail ++ stale, tail.length⟩) →
      parseChunks h (fuel + 1) node ⟨Chunk.frame id type value ++ tail ++ stale,
          (Chunk.frame id type value ++ tail).length⟩ log =
        parseChunks h fuel node ⟨tail ++ stale, tail.length⟩ (log ++ [(node, c.call)]) := by
    intro id type value hl ht hv
    have hhead : readHead ⟨Chunk.frame id type value ++ tail ++ stale,
        (Chunk.frame id type value ++ tail).length⟩ =
        .head id type value.length ⟨value ++ tail ++ stale, (value ++ tail).length⟩ := by
      have h := read_head id type value.length (value ++ tail) stale hl (by simp)
      rw [← List.append_assoc (bytes16 _) value tail] at h
      exact h
    rw [parseChunks, hhead]
    dsimp only
    rw [if_neg ht, hv]
    rfl
  cases c with
  | byte id v =>
    apply pass id ChunkType.byte [v] (by simp) (by decide)
    rw [readValue, if_pos rfl, if_pos (by simp)]
    exact congrArg (Option.map _) (Input.read_buffer8_cons v tail stale)
  | short id v =>
    apply pass id ChunkType.short (bytes16 v) (by simp [bytes16]) (by decide)
    rw [readValue, if_neg (by decide), if_pos rfl, if_pos (by simp [bytes16]),
      Input.read_buffer16_bytes]
    rfl
  | integer id v =>
    apply pass id ChunkType.integer (bytes32 v) (by simp [bytes32]) (by decide)
    rw [readValue, if_neg (by decide), if_neg (by decide), if_pos rfl, if_pos (by simp [bytes32]),
      Input.read_buffer32_bytes]
    rfl
  | string id value =>
    apply pass id ChunkType.string value hc (by decide)
    rw [readValue, if_neg (by decide), if_neg (by decide), if_neg (by decide), if_neg (by decide),
      if_pos rfl, if_pos (by simp), Input.read_buffer_append]
    rfl
  | buffer id value =>
    obtain ⟨hfull, hle⟩ := hc
    have hcontent : value.content = value.buffer := by
      rw [AutoBuffer.content]
      exact List.take_of_length_le (Nat.le_of_eq hfull.symm)
    have hbytes : (Chunk.buffer id value).bytes = Chunk.frame id ChunkType.binary value.buffer := by
      rw [Chunk.bytes, hfull]
      rfl
    rw [hbytes]
    apply pass id ChunkType.binary value.buffer (by rw [hfull] at hle; exact hle) (by decide)
    rw [readValue, if_neg (by decide), if_neg (by decide), if_neg (by decide), if_neg (by decide),
      if_neg (by decide), if_pos rfl, if_pos (by simp), Input.read_buffer_append, Chunk.call,
      hcontent]
    rfl

theorem parse_nil (h : ChunkIn ν) (node : ν) (stale : List UInt8) (fuel : Nat) (log : CallLog ν) :
    parseChunks h (fuel + 1) node ⟨stale, 0⟩ log = (log, none) := by
  rw [parseChunks, readHead, if_pos Nat.zero_lt_one]

/-- From in front of `q` the loop comes behind it having made the calls. -/
def Leads (h : ChunkIn ν) (node : ν) (q : List UInt8) (calls : List ChunkCall) : Prop :=
  ∃ k, k ≤ q.length ∧ ∀ tail stale fuel log,
    parseChunks h (fuel + k) node ⟨q ++ tail ++ stale, (q ++ tail).length⟩ log =
      parseChunks h fuel node ⟨tail ++ stale, tail.length⟩
        (log ++ calls.map fun call => (node, call))

theorem leads_nil (h : ChunkIn ν) (node : ν) : Leads h node [] [] :=
  ⟨0, Nat.zero_le _, fun tail stale fuel log => by simp⟩

theorem Leads.append (h₁ : Leads h node q₁ calls₁) (h₂ : Leads h node q₂ calls₂) :
    Leads h node (q₁ ++ q₂) (calls₁ ++ calls₂) := by
  obtain ⟨k₁, hk₁, hrun₁⟩ := h₁
  obtain ⟨k₂, hk₂, hrun₂⟩ := h₂
  refine ⟨k₂ + k₁, by rw [List.length_append]; omega, fun tail stale fuel log => ?_⟩
  rw [List.append_assoc q₁ q₂ tail, ← Nat.add_assoc, hrun₁, hrun₂, List.map_append, List.append_assoc]

theorem leads_chunk (h : ChunkIn ν) (node : ν) (hc : Chunk.Framed c) :
    Leads h node c.bytes [c.call] := by
  refine ⟨1, ?_, fun tail stale fuel log => parse_chunk h node c hc tail stale fuel log⟩
  cases c <;> simp [Chunk.bytes, Chunk.frame]

/-- The parser reads back a run of chunks, call by call. -/
theorem leads_run (call : Chunk → ChunkCall) (cs : List Chunk)
    (hcs : ∀ c ∈ cs, Leads h node c.bytes [call c]) :
    Leads h node (cs.flatMap Chunk.bytes) (cs.map call) := by
  induction cs with
  | nil => exact leads_nil h node
  | cons c cs ih =>
    rw [List.flatMap_cons, List.map_cons]
    exact (hcs c (by simp)).append (ih fun d hd => hcs d (List.mem_cons_of_mem c hd))

/-- The parse of a packet goes on behind its first bytes, with fuel left. -/
theorem Leads.parse (hl : Leads h node q calls) (tail behind : List UInt8) :
    ∃ fuel, parsePacket h node (q ++ tail ++ behind) (q ++ tail).length =
      parseChunks h (fuel + 1) node ⟨tail ++ behind, tail.length⟩
        (calls.map fun call => (node, call)) := by
  obtain ⟨k, hk, hrun⟩ := hl
  have hfuel : (q ++ tail ++ behind).length + 1 = (q ++ tail ++ behind).length - k + 1 + k := by
    simp only [List.length_append]
    omega
  refine ⟨(q ++ tail ++ behind).length - k, ?_⟩
  rw [parsePacket, hfuel, hrun, List.nil_append]

theorem Leads.packet (hl : Leads h node q calls) (behind : List UInt8) :
    parsePacket h node (q ++ behind) q.length =
      (calls.map fun call => (node, call), none) := by
  obtain ⟨fuel, hrun⟩ := hl.parse [] behind
  rw [List.append_nil] at hrun
  exact hrun.trans (parse_nil h node behind _ _)

/-- What `SendChunkInPacket` sends is one packet; its payload is as long as the
16-bit size says. -/
theorem send_bytes (sign : UInt8) (type : UInt16) (o : ChunkOut) :
    Packets.nextPacket sign (sendChunkInPacket sign type o) =
      some ((type, o.abPacket.content.take (o.abPacket.fillSize % 65536)), []) := by
  have hsize : o.getSize.toNat = o.abPacket.fillSize % 65536 := UInt16.toNat_ofNat'
  have hle : o.getSize.toNat ≤ 65535 := Nat.le_of_lt_succ o.getSize.toNat_lt
  have hlow : o.getSize.toNat ≤ o.abPacket.readyPosition := hsize ▸ Nat.mod_le _ _
  have htake : o.abPacket.buffer.take o.getSize.toNat =
      o.abPacket.content.take o.getSize.toNat := by
    rw [AutoBuffer.content, List.take_take, Nat.min_eq_left hlow]
  have hlen : (o.abPacket.content.take o.getSize.toNat).length =
      256 * (UInt8.ofNat (o.getSize.toNat / 256)).toNat + (UInt8.ofNat o.getSize.toNat).toNat := by
    rw [size_read hle, List.length_take, AutoBuffer.content_length]
    exact Nat.min_eq_left hlow
  have htype : type = UInt16.ofNat (256 * (UInt8.ofNat (type.toNat / 256)).toNat +
      (UInt8.ofNat type.toNat).toNat) := by
    rw [size_read (Nat.le_of_lt_succ type.toNat_lt), UInt16.ofNat_toNat]
  have hwhole := Packets.next_packet_whole sign (UInt8.ofNat (o.getSize.toNat / 256))
    (UInt8.ofNat o.getSize.toNat) (UInt8.ofNat (type.toNat / 256)) (UInt8.ofNat type.toNat)
    (o.abPacket.content.take o.getSize.toNat) [] hlen
  rw [List.append_nil, ← htype, ← htake] at hwhole
  have hsize_bytes := size_bytes o.getSize.toNat
  rw [UInt16.ofNat_toNat] at hsize_bytes
  have htype_bytes := size_bytes type.toNat
  rw [UInt16.ofNat_toNat] at htype_bytes
  rw [sendChunkInPacket, hsize_bytes, htype_bytes, ← hsize, ← htake]
  exact hwhole

/-- A dispatcher that is given one packet hands its payload on and takes all of it. -/
theorem process_one (commands : ProcessCommandCB κ) (hf : commands type = some f)
    (d : Dispatch κ) (stale : List UInt8)
    (hnext : Packets.nextPacket sign sent = some ((type, payload), [])) :
    doProcessCB sign commands d (sent ++ stale) sent.length =
      some (d.call f type payload, sent.length) := by
  obtain ⟨size, hlen, -, hpos, hpass⟩ := Packets.loop_packet commands d stale hnext
  have hlen : sent.length = size := hlen
  obtain ⟨fuel, hfuel⟩ : ∃ fuel, sent.length = fuel + 1 := ⟨sent.length - 1, by omega⟩
  have hend := Packets.loop_end commands (d.call f type payload) stale
    (show Packets.nextPacket sign [] = none from rfl) fuel (0 + size)
  have hone := hpass fuel 0
  rw [hf] at hone
  rw [← hlen, Nat.zero_add] at hend hone
  rw [doProcessCB]
  nth_rewrite 1 [hfuel]
  exact hone.trans hend

/-- What the handler of the type is given: the first bytes of the chunk buffer,
as many as the size modulo `2 ^ 16`. -/
theorem sent_delivers (sign : UInt8) (type : UInt16) (o : ChunkOut) (commands : ProcessCommandCB κ)
    (hf : commands type = some f) (d : Dispatch κ) (stale : List UInt8) :
    doProcessCB sign commands d (sendChunkInPacket sign type o ++ stale)
        (sendChunkInPacket sign type o).length =
      some (d.call f type (o.abPacket.content.take (o.abPacket.fillSize % 65536)),
        (sendChunkInPacket sign type o).length) :=
  process_one commands hf d stale (send_bytes sign type o)

theorem take_fill (o : ChunkOut) (h : o.abPacket.fillSize ≤ 65535) :
    o.abPacket.content.take (o.abPacket.fillSize % 65536) = o.abPacket.content := by
  rw [Nat.mod_eq_of_lt (Nat.lt_succ_of_le h), ← AutoBuffer.content_length, List.take_length]

/-- A sequence of byte and string chunks that fits into a packet is sent,
received and parsed back call by call: the handler of the type gets the chunks
as its payload, and on the payload `ParsePacket` repeats the calls. -/
theorem sent_chunks_parsed (h : ChunkIn ν) (node : ν) (sign : UInt8) (type : UInt16)
    (fresh : Nat → UInt8) (cs : List Chunk) (hcs : ∀ c ∈ cs, c.ByteOrString)
    (hsize : (build fresh cs).abPacket.fillSize ≤ 65535) (commands : ProcessCommandCB κ)
    (f : κ → UInt16 → List UInt8 → κ) (hf : commands type = some f) (d : Dispatch κ)
    (stale behind : List UInt8) :
    let sent := sendChunkInPacket sign type (build fresh cs)
    ∃ payload,
      doProcessCB sign commands d (sent ++ stale) sent.length =
        some (d.call f type payload, sent.length) ∧
      parsePacket h node (payload ++ behind) payload.length =
        (cs.map (fun c => (node, c.call)), none) := by
  have hcontent := build_content fresh cs
  have hsent := sent_delivers sign type (build fresh cs) commands hf d stale
  rw [take_fill _ hsize] at hsent
  intro sent
  refine ⟨(build fresh cs).abPacket.content, hsent, ?_⟩
  rw [hcontent]
  have hframed : ∀ c ∈ cs, c.Framed := by
    intro c hc
    have hle : c.bytes.length ≤ 65535 := by
      rw [← AutoBuffer.content_length, hcontent] at hsize
      rw [List.flatMap_def] at hsize
      exact Nat.le_trans (List.sublist_flatten_of_mem (List.mem_map_of_mem hc)).length_le hsize
    have hkind := hcs c hc
    cases c with
    | byte => trivial
    | string id value =>
      simp only [Chunk.bytes, Chunk.frame, List.length_cons, List.length_append] at hle
      simp only [Chunk.Framed]
      omega
    | short | integer | buffer => exact hkind.elim
  have hrun := leads_run Chunk.call cs fun c hc => leads_chunk h node (hframed c hc)
  rw [hrun.packet behind, List.map_map]
  rfl

def flat : ChunkIn Unit := ⟨fun _ _ _ _ => none, fun _ _ _ _ => none⟩

def counting : ProcessCommandCB Nat :=
  fun type => if type = 3 then some (fun n _ _ => n + 1) else none

theorem sent_two_parsed :
    let sent := sendChunkInPacket 90 3 (build (fun _ => 0) [.byte 1 7, .string 2 [65, 0, 66]])
    ∃ payload,
      doProcessCB 90 counting ⟨0, []⟩ (sent ++ [90]) sent.length =
        some (⟨1, [(3, payload)]⟩, sent.length) ∧
      parsePacket flat () (payload ++ [1, 1]) payload.length =
        ([((), .setValue8 1 7), ((), .setString 2 [65, 0, 66])], none) :=
  sent_chunks_parsed flat () 90 3 (fun _ => 0) [.byte 1 7, .string 2 [65, 0, 66]]
    (by simp [Chunk.ByteOrString]) (by decide) counting (fun n _ _ => n + 1) rfl ⟨0, []⟩ [90] [1, 1]

theorem log_grows (h : ChunkIn ν) (fuel : Nat) :
    (∀ node i log, log <+: (parseChunks h fuel node i log).1) ∧
      ∀ array id index i log, log <+: (parseNodes h fuel array id index i log).1 := by
  induction fuel with
  | zero => exact ⟨fun _ _ _ => List.prefix_rfl, fun _ _ _ _ _ => List.prefix_rfl⟩
  | succ fuel ih =>
    obtain ⟨ihChunks, ihNodes⟩ := ih
    have later : ∀ (log : CallLog ν) more node i,
        log <+: (parseChunks h fuel node i (log ++ more)).1 :=
      fun log more node i => (List.prefix_append log more).trans (ihChunks node i _)
    constructor
    · intro node i log
      rw [parseChunks]
      split
      · exact List.prefix_rfl
      · exact List.prefix_rfl
      · rename_i id type length i _
        split
        · split
          · split
            · exact List.prefix_rfl
            · rename_i count inner _
              dsimp only
              split
              · exact later _ _ _ _
              · rename_i array _
                have hn := (List.prefix_append log [(node, .setArray id count)]).trans
                  (ihNodes array id 0 inner _)
                split
                · rename_i log' hlog
                  rw [hlog] at hn
                  exact hn.trans (ihChunks _ _ _)
                · exact hn
          · exact ihChunks _ _ _
        · split
          · exact List.prefix_rfl
          · exact later _ _ _ _
    · intro array id index i log
      rw [parseNodes]
      split
      · split
        · exact List.prefix_rfl
        · rename_i nodeLength i _
          dsimp only
          split
          · exact (List.prefix_append _ _).trans (ihNodes _ _ _ _ _)
          · rename_i node _
            have hn := later log [(array, .enterNode id index)] node
              ⟨i.pBuffer, nodeLength.toNat⟩
            split
            · rename_i log' hlog
              rw [hlog] at hn
              exact (hn.trans (List.prefix_append _ _)).trans (ihNodes _ _ _ _ _)
            · exact hn
      · exact List.prefix_rfl

/-- The call made at the position of a chunk in a sequence, whatever follows. -/
def CallAt (h : ChunkIn ν) (node : ν) (fresh : Nat → UInt8) (pre : List Chunk) (c : Chunk)
    (post : List Chunk) (behind : List UInt8) (call : ChunkCall) : Prop :=
  let packet := (build fresh (pre ++ c :: post)).abPacket
  (parsePacket h node (packet.content ++ behind) packet.fillSize).1[pre.length]? = some (node, call)

theorem call_at_iff (h : ChunkIn ν) (node : ν) (fresh : Nat → UInt8) (pre : List Chunk)
    (hpre : ∀ c ∈ pre, c.Framed) (hc : Chunk.Framed c) (post : List Chunk)
    (behind : List UInt8) (call : ChunkCall) :
    CallAt h node fresh pre c post behind call ↔ c.call = call := by
  have hbytes : (pre ++ c :: post).flatMap Chunk.bytes =
      (pre ++ [c]).flatMap Chunk.bytes ++ post.flatMap Chunk.bytes := by
    simp
  have hframed : ∀ d ∈ pre ++ [c], d.Framed := by
    intro d hd
    rcases List.mem_append.mp hd with hd | hd
    · exact hpre d hd
    · rwa [List.mem_singleton.mp hd]
  have hrun := leads_run Chunk.call (pre ++ [c]) fun d hd => leads_chunk h node (hframed d hd)
  obtain ⟨fuel, hparse⟩ := hrun.parse (post.flatMap Chunk.bytes) behind
  -- what lies behind the chunk only adds to the calls
  obtain ⟨more, hmore⟩ := (log_grows h (fuel + 1)).1 node
    ⟨post.flatMap Chunk.bytes ++ behind, (post.flatMap Chunk.bytes).length⟩
    (((pre ++ [c]).map Chunk.call).map fun call => (node, call))
  rw [CallAt, ← AutoBuffer.content_length, build_content, hbytes, hparse, ← hmore]
  simp

/-- A 16-bit or 32-bit value comes back as it was exactly when its bytes read
the same in both directions: it is converted on one side only. -/
theorem value_kept_iff (h : ChunkIn ν) (node : ν) (fresh : Nat → UInt8) (pre post : List Chunk)
    (hpre : ∀ c ∈ pre, c.Framed) (behind : List UInt8) (id : UInt8) :
    (∀ v : UInt16, CallAt h node fresh pre (.short id v) post behind (.setValue16 id v) ↔
      (bytes16 v).reverse = bytes16 v) ∧
    ∀ v : UInt32, CallAt h node fresh pre (.integer id v) post behind (.setValue32 id v) ↔
      (bytes32 v).reverse = bytes32 v := by
  constructor
  · intro v
    have hv : Chunk.Framed (.short id v) := trivial
    rw [call_at_iff h node fresh pre hpre hv, ← ntohs_eq_iff, Chunk.call]
    simp
  · intro v
    have hv : Chunk.Framed (.integer id v) := trivial
    rw [call_at_iff h node fresh pre hpre hv, ← ntohl_eq_iff, Chunk.call]
    simp

theorem value_kept_zero :
    CallAt flat () (fun _ => 0) [.string 7 [65]] (.short 1 0) [.byte 2 3] [] (.setValue16 1 0) :=
  ((value_kept_iff flat () (fun _ => 0) [.string 7 [65]] [.byte 2 3]
    (by simp [Chunk.Framed]) [] 1).1 0).mpr (by decide)

/-- The value 1 comes back as 256. -/
theorem short_one_turned :
    (parsePacket flat () (build (fun _ => 0) [.short 1 1]).abPacket.content
      (build (fun _ => 0) [.short 1 1]).abPacket.fillSize).1 = [((), .setValue16 1 256)] ∧
    ¬ CallAt flat () (fun _ => 0) [] (.short 1 1) [] [] (.setValue16 1 1) := by
  unfold CallAt
  decide +kernel

end Khorost.Chunks
