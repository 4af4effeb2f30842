import Khorost.Net.ChunkCall
import Khorost.Proofs.GetChunk

namespace Khorost

open Scan

/-- A call of `get_chunk` on data that is there, with the stop characters as a
string. -/
structure GetChunkCall where
  memory : List UInt8
  lead : UInt8
  stops : List UInt8
  state : ChunkState
  clear : nul ∉ stops
  inside : state.position + state.bufferSize ≤ memory.length

namespace GetChunkCall

def text (c : GetChunkCall) : List UInt8 := (c.memory.drop c.state.position).take c.state.bufferSize

def run (c : GetChunkCall) : Option (Bool × ChunkState) :=
  c.state.getChunk c.memory c.lead (c.stops ++ [nul])

/-- The chunk up to the stop character behind a token has been taken: it is at the
end of the target, and the reference is to the token there. -/
structure Took (before after : ChunkState) (gap token rest : List UInt8) : Prop where
  position : after.position = before.position + (gap.length + token.length + 1)
  bufferSize : after.bufferSize = rest.length
  chunkSize : after.chunkSize = gap.length + token.length + 1
  content : after.target.content = before.target.content ++ gap ++ token ++ [nul]
  reference : after.reference = some (before.target.fillSize + gap.length)

theorem text_length (c : GetChunkCall) : c.text.length = c.state.bufferSize := by
  have hin := c.inside
  rw [text, List.length_take, List.length_drop]
  omega

theorem memory_split (c : GetChunkCall) :
    c.memory.drop c.state.position =
      c.text ++ (c.memory.drop c.state.position).drop c.state.bufferSize :=
  (List.take_append_drop _ _).symm

/-- The data in front of the first stop character is taken off it. -/
theorem run_token (c : GetChunkCall) (h : Lexeme c.lead c.stops c.text gap token stop rest) :
    ∃ st, c.run = some (true, st) ∧ Took c.state st gap token rest := by
  obtain ⟨f, hf, hfound⟩ := get_chunk_found h
    ((c.memory.drop c.state.position).drop c.state.bufferSize) c.state.target
  rw [← c.memory_split, c.text_length] at hf
  refine ⟨c.state.behind f, ?_, ?_⟩
  · rw [run, ChunkState.get_chunk_eq c.clear c.lead c.inside, hf]
    rfl
  · exact {
      position := by rw [ChunkState.behind, hfound.size]
      bufferSize := by rw [ChunkState.behind, hfound.cursor]
      chunkSize := hfound.size
      content := hfound.content
      reference := by
        rw [ChunkState.behind, hfound.reference, List.length_append, AutoBuffer.content_length] }

theorem run_open (c : GetChunkCall) (h : Open c.lead c.stops c.text) :
    c.run = some (false, c.state) := by
  have hopen := get_chunk_open h ((c.memory.drop c.state.position).drop c.state.bufferSize)
    c.state.target
  rw [← c.memory_split, c.text_length] at hopen
  rw [run, ChunkState.get_chunk_eq c.clear c.lead c.inside, hopen]
  rfl

/-- `get_chunk` returns true exactly if a stop character stands behind the leading
run. It then takes what is up to the first one, and otherwise changes nothing. -/
theorem get_chunk_takes (c : GetChunkCall) :
    ∃ found st, c.run = some (found, st) ∧
      (found = true ↔ ∃ stop ∈ c.stops, stop ∈ c.text.dropWhile (· = c.lead)) ∧
      (found = true → ∃ gap token stop rest,
        Lexeme c.lead c.stops c.text gap token stop rest ∧ Took c.state st gap token rest) ∧
      (found = false → st = c.state) := by
  rcases token_or_open c.lead c.stops c.text with ⟨gap, token, stop, rest, h⟩ | h
  · obtain ⟨st, hrun, htook⟩ := c.run_token h
    have hhead : (token ++ stop :: rest).head? ≠ some c.lead := by
      have hstarts := h.starts
      cases token <;> exact hstarts
    refine ⟨true, st, hrun, iff_of_true rfl ⟨stop, h.ends, ?_⟩,
      fun _ => ⟨gap, token, stop, rest, h, htook⟩, nofun⟩
    rw [h.split, List.append_assoc, (lead_run h.gap_lead hhead).2]
    exact List.mem_append_right _ List.mem_cons_self
  · refine ⟨false, c.state, c.run_open h, iff_of_false nofun ?_, nofun, fun _ => rfl⟩
    obtain ⟨gap, token, htext, hgap, hstarts, hclear⟩ := h
    rintro ⟨stop, hstop, hmem⟩
    rw [htext, (lead_run hgap hstarts).2] at hmem
    exact hclear stop hmem hstop

end GetChunkCall

end Khorost
