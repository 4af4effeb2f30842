import Khorost.Net.Connection
import Khorost.Net.Http

namespace Khorost

/-- What the program reads before anything has been written there: the heap
under the buffers of its parsers, one after the other, and the local variable
`chunk_size` in each call of `process_data`. -/
structure Uninitialised where
  heap : Nat → Nat → UInt8
  chunkSize : Nat → Nat

/-- `server2_h::http_connection`. `processed` records the requests given to
`process_http` with the bytes reported for each; `calls`, `created` and `taken`
count the calls, the parsers and the bytes reported for the current request. -/
structure HttpConnection where
  httpProcessor : Option HttpHeader
  processed : List (HttpHeader × Nat)
  calls : Nat
  created : Nat
  taken : Nat

namespace HttpConnection

def start : HttpConnection := ⟨none, [], 0, 0, 0⟩

/-- The parser that a call works on, a new one if there is none. -/
def processor (u : Uninitialised) (d : HttpConnection) : HttpHeader :=
  d.httpProcessor.getD (HttpHeader.new (u.heap d.created))

/-- How many parsers there have been after a call. -/
def createdAfter (d : HttpConnection) : Nat :=
  if d.httpProcessor.isNone then d.created + 1 else d.created

/-- `http_connection::data_processing`: a request that has become ready is
processed and its parser deleted. -/
def dataProcessing (u : Uninitialised) : DataProcessing HttpConnection :=
  fun d buffer bufferSize => do
    let (h, processBytes) ← (d.processor u).processData buffer bufferSize (u.chunkSize d.calls)
    if processBytes ≠ 0 ∧ h.isReady then
      some (⟨none, d.processed ++ [(h, d.taken + processBytes)], d.calls + 1, d.createdAfter, 0⟩,
        processBytes)
    else
      some (⟨some h, d.processed, d.calls + 1, d.createdAfter, d.taken + processBytes⟩,
        processBytes)

/-- The connection after the given arrivals on a fresh socket. -/
def serve (u : Uninitialised) (fresh : Nat → UInt8) (segments : List (List UInt8)) :
    Connection HttpConnection :=
  (Connection.idle fresh start).reads (dataProcessing u) segments

theorem processing_waits {d : HttpConnection}
    (he : (d.processor u).processData buffer size (u.chunkSize d.calls) = some (h, n))
    (hnot : ¬ (n ≠ 0 ∧ h.isReady = true)) :
    dataProcessing u d buffer size =
      some (⟨some h, d.processed, d.calls + 1, d.createdAfter, d.taken + n⟩, n) := by
  rw [dataProcessing, he]
  exact if_neg hnot

theorem processing_serves {d : HttpConnection}
    (he : (d.processor u).processData buffer size (u.chunkSize d.calls) = some (h, n))
    (hyes : n ≠ 0 ∧ h.isReady = true) :
    dataProcessing u d buffer size =
      some (⟨none, d.processed ++ [(h, d.taken + n)], d.calls + 1, d.createdAfter, 0⟩, n) := by
  rw [dataProcessing, he]
  exact if_pos hyes

theorem processed_kept (h : dataProcessing u d buffer size = some (d', n)) :
    d.processed <+: d'.processed := by
  simp only [dataProcessing, Option.bind_eq_bind, Option.bind_eq_some_iff] at h
  obtain ⟨⟨hd, m⟩, -, h⟩ := h
  split at h
  · obtain ⟨rfl, -⟩ := Prod.mk.injEq _ _ _ _ ▸ Option.some.injEq _ _ ▸ h
    exact List.prefix_append _ _
  · obtain ⟨rfl, -⟩ := Prod.mk.injEq _ _ _ _ ▸ Option.some.injEq _ _ ▸ h
    exact List.prefix_rfl

end HttpConnection

end Khorost
