import Khorost.Proofs.Chunks

namespace Khorost.Chunks

/-- What has been built is handed to the handler of the type when it is sent in a packet. -/
def Delivered (sign : UInt8) (type : UInt16) (o : ChunkOut) (commands : ProcessCommandCB κ)
    (f : κ → UInt16 → List UInt8 → κ) (d : Dispatch κ) (stale : List UInt8) : Prop :=
  let sent := sendChunkInPacket sign type o
  doProcessCB sign commands d (sent ++ stale) sent.length =
    some (d.call f type o.abPacket.content, sent.length)

theorem delivered_iff_take (sign : UInt8) (type : UInt16) (o : ChunkOut)
    (commands : ProcessCommandCB κ) (hf : commands type = some f) (d : Dispatch κ)
    (stale : List UInt8) :
    Delivered sign type o commands f d stale ↔
      o.abPacket.content.take (o.abPacket.fillSize % 65536) = o.abPacket.content := by
  unfold Delivered
  dsimp only
  rw [sent_delivers sign type o commands hf]
  constructor
  · intro h
    have hcall := congrArg Dispatch.calls (Prod.mk.inj (Option.some.inj h)).1
    have hlast := List.append_cancel_left hcall
    exact (Prod.mk.inj (List.cons.inj hlast).1).2
  · intro h
    rw [h]

/-- Any chunks reach the handler in one packet exactly when they are no more than
65535 bytes. -/
theorem delivered_iff (sign : UInt8) (type : UInt16) (fresh : Nat → UInt8) (cs : List Chunk)
    (commands : ProcessCommandCB κ) (f : κ → UInt16 → List UInt8 → κ)
    (hf : commands type = some f) (d : Dispatch κ) (stale : List UInt8) :
    Delivered sign type (build fresh cs) commands f d stale ↔
      (build fresh cs).abPacket.fillSize ≤ 65535 := by
  rw [delivered_iff_take sign type _ commands hf]
  constructor
  · intro h
    have hlen := congrArg List.length h
    rw [List.length_take, AutoBuffer.content_length] at hlen
    omega
  · exact take_fill (build fresh cs)

theorem delivered_two :
    Delivered 90 3 (build (fun _ => 0) [.byte 1 7, .string 2 [65, 0, 66]]) counting
      (fun n _ _ => n + 1) ⟨0, []⟩ [90] :=
  (delivered_iff 90 3 (fun _ => 0) [.byte 1 7, .string 2 [65, 0, 66]] counting
    (fun n _ _ => n + 1) rfl ⟨0, []⟩ [90]).mpr (by decide)

def longString : Chunk := .string 1 (List.replicate 65532 0)

theorem string_fill (fresh : Nat → UInt8) (id : UInt8) (value : List UInt8) :
    (build fresh [.string id value]).abPacket.fillSize = value.length + 4 := by
  rw [← AutoBuffer.content_length, build_content]
  simp only [List.flatMap_singleton, Chunk.bytes, Chunk.frame, bytes16, List.length_cons,
    List.length_append, Bytes.le_bytes_length]
  omega

theorem long_string_fill (fresh : Nat → UInt8) :
    (build fresh [longString]).abPacket.fillSize = 65536 := by
  rw [longString, string_fill, List.length_replicate]

/-- The handler is called with no bytes at all. -/
theorem long_string_lost :
    ¬ Delivered 90 3 (build (fun _ => 0) [longString]) counting (fun n _ _ => n + 1) ⟨0, []⟩ [] ∧
      doProcessCB 90 counting ⟨0, []⟩
          (sendChunkInPacket 90 3 (build (fun _ => 0) [longString]) ++ [])
          (sendChunkInPacket 90 3 (build (fun _ => 0) [longString])).length =
        some (⟨1, [(3, [])]⟩,
          (sendChunkInPacket 90 3 (build (fun _ => 0) [longString])).length) := by
  have hf : counting 3 = some (fun n _ _ => n + 1) := rfl
  constructor
  · rw [delivered_iff_take 90 3 _ counting hf, long_string_fill]
    intro h
    have hlen := congrArg List.length h
    rw [AutoBuffer.content_length, long_string_fill] at hlen
    exact absurd hlen (by decide)
  · rw [sent_delivers 90 3 _ counting hf, long_string_fill]
    rfl

end Khorost.Chunks
