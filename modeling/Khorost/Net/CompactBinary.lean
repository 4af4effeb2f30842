import Khorost.Lib.Bytes
import Khorost.Net.Connection

namespace Khorost

open Bytes

/-- `htons` and `ntohs` of a little-endian host. -/
def ntohs (v : UInt16) : UInt16 := UInt16.ofNat (swap 2 v.toNat)

/-- `ntohl` of a little-endian host. -/
def ntohl (v : UInt32) : UInt32 := UInt32.ofNat (swap 4 v.toNat)

/-- What a 16-bit object looks like in the memory of a little-endian host. -/
def bytes16 (v : UInt16) : List UInt8 := leBytes 2 v.toNat

def bytes32 (v : UInt32) : List UInt8 := leBytes 4 v.toNat

/-- The pair `pBuffer_`, `nBufferSize_`: the memory from the pointer on and the
size, which is a `size_t` and wraps below zero. -/
structure Input where
  pBuffer : List UInt8
  nBufferSize : Nat

namespace Input

/-- The pointer goes forward and the size down by the same number. -/
def skip (i : Input) (n : Nat) : Input :=
  ⟨i.pBuffer.drop n,
    if n ≤ i.nBufferSize then i.nBufferSize - n else i.nBufferSize + 2 ^ 64 - n⟩

/-- `ReadBuffer`: the next `n` bytes. `none` is a read outside the memory. -/
def readBuffer (i : Input) (n : Nat) : Option (List UInt8 × Input) :=
  if n ≤ i.pBuffer.length then some (i.pBuffer.take n, i.skip n) else none

def readBuffer8 (i : Input) : Option (UInt8 × Input) :=
  (i.readBuffer 1).map (fun (bs, i) => (UInt8.ofNat (leValue bs), i))

def readBuffer16 (i : Input) : Option (UInt16 × Input) :=
  (i.readBuffer 2).map (fun (bs, i) => (UInt16.ofNat (leValue bs), i))

def readBuffer32 (i : Input) : Option (UInt32 × Input) :=
  (i.readBuffer 4).map (fun (bs, i) => (UInt32.ofNat (leValue bs), i))

def readBuffer64 (i : Input) : Option (UInt64 × Input) :=
  (i.readBuffer 8).map (fun (bs, i) => (UInt64.ofNat (leValue bs), i))

theorem skip_append (p q stale : List UInt8) :
    (Input.mk (p ++ q ++ stale) (p ++ q).length).skip p.length = ⟨q ++ stale, q.length⟩ := by
  simp [skip]

/-- A read of the bytes at the head leaves the pointer behind them. -/
theorem read_buffer_append (p q stale : List UInt8) :
    (Input.mk (p ++ q ++ stale) (p ++ q).length).readBuffer p.length =
      some (p, ⟨q ++ stale, q.length⟩) := by
  have hle : p.length ≤ (p ++ q ++ stale).length := by simp
  rw [readBuffer, if_pos hle, skip_append, List.append_assoc, List.take_left]

theorem skip_front (stale : List UInt8) (h : n ≤ q.length) :
    (Input.mk (q ++ stale) q.length).skip n = ⟨q.drop n ++ stale, (q.drop n).length⟩ := by
  have hs := skip_append (q.take n) (q.drop n) stale
  rwa [List.take_append_drop, List.length_take, Nat.min_eq_left h] at hs

theorem read_buffer_front (stale : List UInt8) (h : n ≤ q.length) :
    (Input.mk (q ++ stale) q.length).readBuffer n =
      some (q.take n, ⟨q.drop n ++ stale, (q.drop n).length⟩) := by
  have hr := read_buffer_append (q.take n) (q.drop n) stale
  rwa [List.take_append_drop, List.length_take, Nat.min_eq_left h] at hr

theorem read_buffer8_cons (b : UInt8) (q stale : List UInt8) :
    (Input.mk (b :: q ++ stale) (b :: q).length).readBuffer8 = some (b, ⟨q ++ stale, q.length⟩) := by
  have h : (Input.mk (b :: q ++ stale) (b :: q).length).readBuffer 1 = _ :=
    read_buffer_append [b] q stale
  have hb : UInt8.ofNat (leValue [b]) = b := UInt8.ofNat_toNat
  rw [readBuffer8, h]
  exact congrArg (fun v => some (v, Input.mk (q ++ stale) q.length)) hb

theorem read_buffer16_cons (b c : UInt8) (q stale : List UInt8) :
    (Input.mk (b :: c :: q ++ stale) (b :: c :: q).length).readBuffer16 =
      some (UInt16.ofNat (leValue [b, c]), ⟨q ++ stale, q.length⟩) := by
  have h : (Input.mk (b :: c :: q ++ stale) (b :: c :: q).length).readBuffer 2 = _ :=
    read_buffer_append [b, c] q stale
  rw [readBuffer16, h]
  rfl

theorem read_buffer16_bytes (v : UInt16) (q stale : List UInt8) :
    (Input.mk (bytes16 v ++ q ++ stale) (bytes16 v ++ q).length).readBuffer16 =
      some (v, ⟨q ++ stale, q.length⟩) := by
  have h : (Input.mk (bytes16 v ++ q ++ stale) (bytes16 v ++ q).length).readBuffer 2 = _ :=
    read_buffer_append (bytes16 v) q stale
  have hlt : v.toNat < 256 ^ 2 := v.toNat_lt
  have hv : UInt16.ofNat (leValue (bytes16 v)) = v := by
    rw [bytes16, le_value_bytes, Nat.mod_eq_of_lt hlt, UInt16.ofNat_toNat]
  rw [readBuffer16, h]
  exact congrArg (fun w => some (w, Input.mk (q ++ stale) q.length)) hv

theorem read_buffer32_bytes (v : UInt32) (q stale : List UInt8) :
    (Input.mk (bytes32 v ++ q ++ stale) (bytes32 v ++ q).length).readBuffer32 =
      some (v, ⟨q ++ stale, q.length⟩) := by
  have h : (Input.mk (bytes32 v ++ q ++ stale) (bytes32 v ++ q).length).readBuffer 4 = _ :=
    read_buffer_append (bytes32 v) q stale
  have hlt : v.toNat < 256 ^ 4 := v.toNat_lt
  have hv : UInt32.ofNat (leValue (bytes32 v)) = v := by
    rw [bytes32, le_value_bytes, Nat.mod_eq_of_lt hlt, UInt32.ofNat_toNat]
  rw [readBuffer32, h]
  exact congrArg (fun w => some (w, Input.mk (q ++ stale) q.length)) hv

end Input

/-- Two bytes read from memory and converted are a big-endian number. -/
theorem ntohs_read (b c : UInt8) :
    ntohs (UInt16.ofNat (leValue [b, c])) = UInt16.ofNat (256 * b.toNat + c.toNat) := by
  have hb := b.toNat_lt
  have hc := c.toNat_lt
  have hval : (UInt16.ofNat (leValue [b, c])).toNat = leValue [b, c] := by
    rw [UInt16.toNat_ofNat', Nat.mod_eq_of_lt]
    simp only [leValue]
    omega
  have hswap : swap 2 (leValue [b, c]) = 256 * b.toNat + c.toNat := by
    have h := le_bytes_value [b, c]
    simp only [List.length_cons, List.length_nil, Nat.zero_add] at h
    rw [swap, h]
    simp only [List.reverse_cons, List.reverse_nil, List.nil_append, List.cons_append, leValue]
    omega
  rw [ntohs, hval, hswap]

theorem two_bytes_to_nat (b c : UInt8) :
    (UInt16.ofNat (256 * b.toNat + c.toNat)).toNat = 256 * b.toNat + c.toNat := by
  have hb := b.toNat_lt
  have hc := c.toNat_lt
  rw [UInt16.toNat_ofNat']
  omega

theorem ntohs_to_nat (v : UInt16) : (ntohs v).toNat = swap 2 v.toNat := by
  rw [ntohs, UInt16.toNat_ofNat']
  exact Nat.mod_eq_of_lt (swap_lt 2 v.toNat)

theorem ntohl_to_nat (v : UInt32) : (ntohl v).toNat = swap 4 v.toNat := by
  rw [ntohl, UInt32.toNat_ofNat']
  exact Nat.mod_eq_of_lt (swap_lt 4 v.toNat)

/-- A value survives the conversion exactly when its bytes are a palindrome. -/
theorem ntohs_eq_iff (v : UInt16) : ntohs v = v ↔ (bytes16 v).reverse = bytes16 v := by
  rw [← UInt16.toNat_inj, ntohs_to_nat, swap_eq_iff v.toNat_lt, bytes16]

theorem ntohl_eq_iff (v : UInt32) : ntohl v = v ↔ (bytes32 v).reverse = bytes32 v := by
  rw [← UInt32.toNat_inj, ntohl_to_nat, swap_eq_iff v.toNat_lt, bytes32]

/-- A size field as it stands in memory: the high byte first. -/
theorem size_bytes (n : Nat) :
    bytes16 (ntohs (UInt16.ofNat n)) = [UInt8.ofNat (n / 256), UInt8.ofNat n] := by
  have hhigh : UInt8.ofNat (n % 2 ^ 16 / 256) = UInt8.ofNat (n / 256) := by
    rw [← UInt8.toNat_inj, UInt8.toNat_ofNat', UInt8.toNat_ofNat']
    omega
  have hlow : UInt8.ofNat (n % 2 ^ 16) = UInt8.ofNat n := by
    rw [← UInt8.toNat_inj, UInt8.toNat_ofNat', UInt8.toNat_ofNat']
    omega
  rw [bytes16, ntohs_to_nat, le_bytes_swap, UInt16.toNat_ofNat']
  simp only [leBytes, hhigh, hlow, List.reverse_cons, List.reverse_nil, List.nil_append,
    List.cons_append]

theorem size_read (h : n ≤ 65535) :
    256 * (UInt8.ofNat (n / 256)).toNat + (UInt8.ofNat n).toNat = n := by
  rw [UInt8.toNat_ofNat', UInt8.toNat_ofNat']
  omega

/-- `cbPacket::GetHeaderSize`: sign, size and type. -/
def getHeaderSize : Nat := 1 + 2 + 2

/-- `m_ProcessCommandCB`: what the registered handlers do to the context. -/
abbrev ProcessCommandCB (κ : Type) := UInt16 → Option (κ → UInt16 → List UInt8 → κ)

/-- The context of the dispatcher, and the handler calls made so far. -/
structure Dispatch (κ : Type) where
  context : κ
  calls : List (UInt16 × List UInt8)

def Dispatch.call (d : Dispatch κ) (f : κ → UInt16 → List UInt8 → κ) (type : UInt16)
    (payload : List UInt8) : Dispatch κ :=
  ⟨f d.context type payload, d.calls ++ [(type, payload)]⟩

/-- The loop of `DoProcessCB`. A pass that goes on has read a header, so the
buffer size bounds the number of passes. -/
def processLoop (signConst : UInt8) (commands : ProcessCommandCB κ) :
    Nat → Dispatch κ → Input → Nat → Option (Dispatch κ × Nat)
  | 0, d, _, nProcessBytes => some (d, nProcessBytes)
  | fuel + 1, d, i, nProcessBytes =>
    if getHeaderSize ≤ i.nBufferSize then do
      let (sign, i) ← i.readBuffer8
      if sign = signConst then do
        let (size, i) ← i.readBuffer16
        let (type, i) ← i.readBuffer16
        let sizePacket := (ntohs size).toNat
        let typePacket := ntohs type
        if sizePacket ≤ i.nBufferSize then
          let nProcessBytes := nProcessBytes + getHeaderSize + sizePacket
          match commands typePacket with
          | some f => do
            let (payload, i) ← i.readBuffer sizePacket
            processLoop signConst commands fuel (d.call f typePacket payload) i nProcessBytes
          | none => some (d, nProcessBytes)
        else some (d, nProcessBytes)
      else some (d, nProcessBytes)
    else some (d, nProcessBytes)

/-- `cbDispatchT::DoProcessCB`, which is `data_processing` of a `cb_connection`. -/
def doProcessCB (signConst : UInt8) (commands : ProcessCommandCB κ) : DataProcessing (Dispatch κ) :=
  fun d pBuffer nBufferSize => processLoop signConst commands nBufferSize d ⟨pBuffer, nBufferSize⟩ 0

namespace ChunkType

abbrev byte : UInt8 := 0x01
abbrev short : UInt8 := 0x02
abbrev integer : UInt8 := 0x03
abbrev long : UInt8 := 0x04
abbrev string : UInt8 := 0x05
abbrev binary : UInt8 := 0x07
abbrev array : UInt8 := 0x08

end ChunkType

/-- The virtual calls that `ParsePacket` makes on a `cbChunkIn`. -/
inductive ChunkCall
  | setString (id : UInt8) (value : List UInt8)
  | setBinary (id : UInt8) (value : List UInt8)
  | setValue8 (id : UInt8) (value : UInt8)
  | setValue16 (id : UInt8) (value : UInt16)
  | setValue32 (id : UInt8) (value : UInt32)
  | setValue64 (id : UInt8) (value : UInt64)
  | setArray (id : UInt8) (count : UInt16)
  | enterNode (id : UInt8) (index : UInt16)
  | leaveNode (id : UInt8) (index : UInt16)
deriving DecidableEq

/-- The calls made so far, each with the object it was made on. -/
abbrev CallLog (ν : Type) := List (ν × ChunkCall)

/-- The `cbChunkIn` objects of a program and what their virtual functions return,
which may depend on the calls made before. `none` is `NULL`. -/
structure ChunkIn (ν : Type) where
  setArray : CallLog ν → ν → UInt8 → UInt16 → Option ν
  enterNode : CallLog ν → ν → UInt8 → UInt16 → Option ν

/-- Why a parse stopped early: a read outside the memory, or no fuel left. -/
inductive Halt
  | outside
  | fuel
deriving DecidableEq

/-- The 8-byte value of a LONG chunk: each half turned around where it stands. -/
def ntohHalves (v : UInt64) : UInt64 :=
  UInt64.ofNat (swap 4 (v.toNat % 2 ^ 32) + 2 ^ 32 * swap 4 (v.toNat / 2 ^ 32))

/-- What the chunk loop finds at the pointer: too few bytes for a chunk, memory
that is not there, or id, type and size in front of the value. -/
inductive ChunkHead
  | stop
  | outside
  | head (id type : UInt8) (length : Nat) (value : Input)

/-- The checks and reads at the top of the chunk loop. -/
def readHead (i : Input) : ChunkHead :=
  if i.nBufferSize < 1 then .stop
  else match i.readBuffer8 with
  | none => .outside
  | some (id, i) =>
    if i.nBufferSize < 1 then .stop
    else match i.readBuffer8 with
    | none => .outside
    | some (type, i) =>
      if i.nBufferSize < 2 then .stop
      else match i.readBuffer16 with
      | none => .outside
      | some (size, i) =>
        let length := (ntohs size).toNat
        if i.nBufferSize < length then .stop else .head id type length i

/-- The cases of the `switch` other than ARRAY: the call that is made, if any,
and the pointer behind the value. A value of fixed size is read whatever
`length` says; where too little is left for it the pointer stays. -/
def readValue (id type : UInt8) (length : Nat) (i : Input) : Option (Option ChunkCall × Input) :=
  if type = ChunkType.byte then
    if 1 ≤ i.nBufferSize then
      i.readBuffer8.map (fun (v, i) => (some (.setValue8 id v), i))
    else some (none, i)
  else if type = ChunkType.short then
    if 2 ≤ i.nBufferSize then
      i.readBuffer16.map (fun (v, i) => (some (.setValue16 id (ntohs v)), i))
    else some (none, i)
  else if type = ChunkType.integer then
    if 4 ≤ i.nBufferSize then
      i.readBuffer32.map (fun (v, i) => (some (.setValue32 id (ntohl v)), i))
    else some (none, i)
  else if type = ChunkType.long then
    if 8 ≤ i.nBufferSize then
      i.readBuffer64.map (fun (v, i) => (some (.setValue64 id (ntohHalves v)), i))
    else some (none, i)
  else if type = ChunkType.string then
    if length ≤ i.nBufferSize then
      (i.readBuffer length).map (fun (sv, i) => (some (.setString id sv), i))
    else some (none, i)
  else if type = ChunkType.binary then
    if length ≤ i.nBufferSize then
      (i.readBuffer length).map (fun (ab, i) => (some (.setBinary id ab), i))
    else some (none, i)
  else some (none, i.skip length)

mutual

/-- The chunk loop of `cbChunkIn::ParsePacket` on the object `node`. It returns
the calls made and, unless it came to its end, why not. -/
def parseChunks (h : ChunkIn ν) : Nat → ν → Input → CallLog ν → CallLog ν × Option Halt
  | 0, _, _, log => (log, some .fuel)
  | fuel + 1, node, i, log =>
    match readHead i with
    | .stop => (log, none)
    | .outside => (log, some .outside)
    | .head id type length i =>
      if type = ChunkType.array then
        if 2 ≤ length then
          match (Input.mk i.pBuffer length).readBuffer16 with
          | none => (log, some .outside)
          | some (count, inner) =>
            let array := h.setArray log node id count
            let log := log ++ [(node, .setArray id count)]
            match array with
            | none => parseChunks h fuel node (i.skip length) log
            | some array =>
              match parseNodes h fuel array id 0 inner log with
              | (log, none) => parseChunks h fuel node (i.skip length) log
              | stopped => stopped
        else parseChunks h fuel node (i.skip length) log
      else
        match readValue id type length i with
        | none => (log, some .outside)
        | some (call, i) =>
          parseChunks h fuel node i (log ++ call.toList.map (fun call => (node, call)))

/-- The node loop of an ARRAY chunk. Neither the count nor a node's length is
compared with what is left of the chunk. -/
def parseNodes (h : ChunkIn ν) :
    Nat → ν → UInt8 → UInt16 → Input → CallLog ν → CallLog ν × Option Halt
  | 0, _, _, _, _, log => (log, some .fuel)
  | fuel + 1, array, id, index, i, log =>
    if 2 ≤ i.nBufferSize then
      match i.readBuffer16 with
      | none => (log, some .outside)
      | some (nodeLength, i) =>
        let node := h.enterNode log array id index
        let log := log ++ [(array, .enterNode id index)]
        match node with
        | none => parseNodes h fuel array id (index + 1) (i.skip nodeLength.toNat) log
        | some node =>
          match parseChunks h fuel node ⟨i.pBuffer, nodeLength.toNat⟩ log with
          | (log, none) =>
            parseNodes h fuel array id (index + 1) (i.skip nodeLength.toNat)
              (log ++ [(node, .leaveNode id index)])
          | stopped => stopped
    else (log, none)

end

/-- `cbChunkIn::ParsePacket`. Every pass of either loop and every node entered
moves the pointer on through the memory, which bounds their number. -/
def parsePacket (h : ChunkIn ν) (node : ν) (pBuffer : List UInt8) (nBufferSize : Nat) :
    CallLog ν × Option Halt :=
  parseChunks h (pBuffer.length + 1) node ⟨pBuffer, nBufferSize⟩ []

/-- `cbChunkOut`. -/
structure ChunkOut where
  abPacket : AutoBuffer UInt8

namespace ChunkOut

/-- `AppendChunkT`, with the bytes that the value has in memory: the type and
size are converted to network order, the value is not. -/
def appendChunkT (o : ChunkOut) (type id : UInt8) (value : List UInt8) : ChunkOut :=
  ⟨(((o.abPacket.append [id]).append [type]).append
    (bytes16 (ntohs (UInt16.ofNat value.length)))).append value⟩

def appendChunkByte (o : ChunkOut) (id v : UInt8) : ChunkOut :=
  o.appendChunkT ChunkType.byte id [v]

def appendChunkShort (o : ChunkOut) (id : UInt8) (v : UInt16) : ChunkOut :=
  o.appendChunkT ChunkType.short id (bytes16 v)

def appendChunkInteger (o : ChunkOut) (id : UInt8) (v : UInt32) : ChunkOut :=
  o.appendChunkT ChunkType.integer id (bytes32 v)

def appendChunkString (o : ChunkOut) (id : UInt8) (value : List UInt8) : ChunkOut :=
  ⟨(((o.abPacket.append [id]).append [ChunkType.string]).append
    (bytes16 (ntohs (UInt16.ofNat value.length)))).append value⟩

/-- `AppendChunkBuffer`: the size field is the fill size, but the whole
allocation is copied. -/
def appendChunkBuffer (o : ChunkOut) (id : UInt8) (value : AutoBuffer UInt8) : ChunkOut :=
  ⟨(((o.abPacket.append [id]).append [ChunkType.binary]).append
    (bytes16 (ntohs (UInt16.ofNat value.fillSize)))).append value.buffer⟩

def getSize (o : ChunkOut) : UInt16 := UInt16.ofNat o.abPacket.fillSize

end ChunkOut

/-- The bytes that `SendChunkInPacket` passes to `send_data`, one call after the other. -/
def sendChunkInPacket (signConst : UInt8) (type : UInt16) (o : ChunkOut) : List UInt8 :=
  [signConst] ++ bytes16 (ntohs o.getSize) ++ bytes16 (ntohs type) ++
    o.abPacket.buffer.take o.getSize.toNat

end Khorost
