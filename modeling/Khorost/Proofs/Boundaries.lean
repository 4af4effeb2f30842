import Khorost.Proofs.Passes

namespace Khorost.Chunks

/-- A chunk as the loop comes to it: how many bytes are left where it begins, its
id and type, and the bytes that its length field speaks of. -/
structure Visit where
  left : Nat
  id : UInt8
  type : UInt8
  payload : List UInt8
deriving DecidableEq

/-- The chunks that the loop comes to where arrays are refused, and the calls. -/
def visits (node : ν) : Nat → Input → CallLog ν → List Visit × CallLog ν
  | 0, _, log => ([], log)
  | fuel + 1, i, log =>
    match readHead i with
    | .stop | .outside => ([], log)
    | .head id type length value =>
      let visit : Visit := ⟨i.nBufferSize, id, type, value.pBuffer.take length⟩
      match flatPass node i log with
      | none => ([visit], log)
      | some (i, log) =>
        let (later, log) := visits node fuel i log
        (visit :: later, log)

/-- The split that the length fields alone describe: the next chunk begins behind
the bytes that the length field speaks of. -/
def splitChunks : Nat → List UInt8 → List Visit
  | 0, _ => []
  | fuel + 1, q =>
    match nextHead q with
    | none => []
    | some (id, type, length, q') =>
      ⟨q.length, id, type, q'.take length⟩ :: splitChunks fuel (q'.drop length)

def fixedWidth (type : UInt8) : Option Nat :=
  if type = ChunkType.byte then some 1
  else if type = ChunkType.short then some 2
  else if type = ChunkType.integer then some 4
  else if type = ChunkType.long then some 8
  else none

/-- What the loop moves over behind a head with so many bytes left: a scalar that
is there, or else what the length field says. -/
def moved (type : UInt8) (length left : Nat) : Nat :=
  match fixedWidth type with
  | some width => if width ≤ left then width else 0
  | none => length

/-- Up to the last chunk the loop moves over as many bytes as the length field
says. Behind the last one, no chunk begins where the loop goes on or should. -/
inductive InStep : List UInt8 → Prop
  | stop {q : List UInt8} (ends : nextHead q = none) : InStep q
  | chunk {q q' : List UInt8} (id type : UInt8) (length : Nat)
    (head : nextHead q = some (id, type, length, q')) (fits : moved type length q'.length = length)
    (rest : InStep (q'.drop length)) : InStep q
  | last {q q' : List UInt8} (id type : UInt8) (length : Nat)
    (head : nextHead q = some (id, type, length, q')) (ends : nextHead (q'.drop length) = none)
    (goes : nextHead (q'.drop (moved type length q'.length)) = none) : InStep q

theorem visits_calls {h : ChunkIn ν} (hflat : RefusesArrays h) (node : ν) (stale : List UInt8)
    (hf : q.length < fuel) (log : CallLog ν) :
    parseChunks h fuel node ⟨q ++ stale, q.length⟩ log =
      ((visits node fuel ⟨q ++ stale, q.length⟩ log).2, none) := by
  induction fuel generalizing q log with
  | zero => omega
  | succ fuel ih =>
    rw [visits]
    rcases flat_pass_spec node q with ⟨hnext, -⟩ | ⟨q', calls, -, hshort, -, hpass⟩
    · rw [parseChunks, read_head_next, hnext]
    · have hhead : ∃ head, nextHead q = some head := by
        cases hnext : nextHead q with
        | some head => exact ⟨head, rfl⟩
        | none =>
          have hp := hpass stale log
          rw [flatPass, read_head_next, hnext] at hp
          cases hp
      obtain ⟨⟨id, type, length, q₁⟩, hhead⟩ := hhead
      rw [parse_flat_pass hflat (hpass stale log), read_head_next, hhead, hpass,
        ih (by omega)]

/-- A read of `n` bytes moves over them if they are there. -/
theorem read_sized (q stale : List UInt8) (n : Nat) (make : List UInt8 → ChunkCall) :
    ∃ call, (if n ≤ q.length then
        ((Input.mk (q ++ stale) q.length).readBuffer n).map (fun (bs, i) => (some (make bs), i))
      else some (none, ⟨q ++ stale, q.length⟩)) =
    some (call, Input.mk (q.drop (if n ≤ q.length then n else 0) ++ stale)
      (q.drop (if n ≤ q.length then n else 0)).length) := by
  by_cases hn : n ≤ q.length
  · rw [if_pos hn, if_pos hn, Input.read_buffer_front stale hn]
    exact ⟨_, rfl⟩
  · rw [if_neg hn, if_neg hn]
    exact ⟨none, rfl⟩

/-- A scalar is read over its own width, whatever the length field says. -/
theorem read_value_moved (id : UInt8) (hl : length ≤ q.length) (stale : List UInt8) :
    ∃ call, readValue id type length ⟨q ++ stale, q.length⟩ =
      some (call, ⟨q.drop (moved type length q.length) ++ stale,
        (q.drop (moved type length q.length)).length⟩) := by
  by_cases h1 : type = ChunkType.byte
  · subst h1
    rw [readValue, if_pos rfl, Input.readBuffer8, Option.map_map]
    exact read_sized q stale 1 fun bs => .setValue8 id (UInt8.ofNat (Bytes.leValue bs))
  by_cases h2 : type = ChunkType.short
  · subst h2
    rw [readValue, if_neg h1, if_pos rfl, Input.readBuffer16, Option.map_map]
    exact read_sized q stale 2 fun bs => .setValue16 id (ntohs (UInt16.ofNat (Bytes.leValue bs)))
  by_cases h3 : type = ChunkType.integer
  · subst h3
    rw [readValue, if_neg h1, if_neg h2, if_pos rfl, Input.readBuffer32, Option.map_map]
    exact read_sized q stale 4 fun bs => .setValue32 id (ntohl (UInt32.ofNat (Bytes.leValue bs)))
  by_cases h4 : type = ChunkType.long
  · subst h4
    rw [readValue, if_neg h1, if_neg h2, if_neg h3, if_pos rfl, Input.readBuffer64, Option.map_map]
    exact read_sized q stale 8 fun bs => .setValue64 id (ntohHalves (UInt64.ofNat (Bytes.leValue bs)))
  have hmoved : moved type length q.length = length := by
    rw [moved, fixedWidth, if_neg h1, if_neg h2, if_neg h3, if_neg h4]
  rw [hmoved, readValue, if_neg h1, if_neg h2, if_neg h3, if_neg h4, Input.skip_front stale hl,
    Input.read_buffer_front stale hl, if_pos hl]
  split
  · exact ⟨_, rfl⟩
  · split
    · exact ⟨_, rfl⟩
    · exact ⟨none, rfl⟩

theorem flat_pass_moved (node : ν) {id : UInt8} (hnext : nextHead q = some (id, type, length, q'))
    (stale : List UInt8) (log : CallLog ν) :
    ∃ calls, flatPass node ⟨q ++ stale, q.length⟩ log =
      some (⟨q'.drop (moved type length q'.length) ++ stale,
        (q'.drop (moved type length q'.length)).length⟩, log ++ calls) := by
  obtain ⟨-, -, hle, -⟩ := next_head_some hnext
  rw [flatPass, read_head_next, hnext]
  dsimp only
  by_cases harray : type = ChunkType.array
  · subst harray
    rw [if_pos rfl, Input.skip_front stale hle]
    by_cases hcount : 2 ≤ length
    · have h2 : 2 ≤ (q' ++ stale).length := by
        rw [List.length_append]
        omega
      rw [if_pos hcount, Input.readBuffer16, Input.readBuffer, if_pos h2]
      exact ⟨_, rfl⟩
    · rw [if_neg hcount]
      exact ⟨[], by rw [List.append_nil]; rfl⟩
  · obtain ⟨call, hread⟩ := read_value_moved id hle stale
    rw [if_neg harray, hread]
    exact ⟨_, rfl⟩

theorem visits_stop (node : ν) (hnext : nextHead q = none) (stale : List UInt8) (fuel : Nat)
    (log : CallLog ν) : visits node (fuel + 1) ⟨q ++ stale, q.length⟩ log = ([], log) := by
  rw [visits, read_head_next, hnext]

/-- The chunk at hand is visited, and then what begins behind the bytes moved over. -/
theorem visits_chunk (node : ν) {id : UInt8} (hnext : nextHead q = some (id, type, length, q'))
    (stale : List UInt8) (fuel : Nat) (log : CallLog ν) :
    ∃ calls, (visits node (fuel + 1) ⟨q ++ stale, q.length⟩ log).1 =
      ⟨q.length, id, type, q'.take length⟩ ::
        (visits node fuel ⟨q'.drop (moved type length q'.length) ++ stale,
          (q'.drop (moved type length q'.length)).length⟩ (log ++ calls)).1 := by
  obtain ⟨-, -, hle, -⟩ := next_head_some hnext
  obtain ⟨calls, hpass⟩ := flat_pass_moved node hnext stale log
  refine ⟨calls, ?_⟩
  rw [visits, read_head_next, hnext, hpass]
  dsimp only
  rw [List.take_append_of_le_length hle]

theorem moved_le (hle : length ≤ left) : moved type length left ≤ left := by
  unfold moved
  split
  · split <;> omega
  · exact hle

/-- What is visited begins where it should as long as the loop is in step, and no longer. -/
theorem visits_split_iff (node : ν) (stale : List UInt8) (hf : q.length < fuel) (log : CallLog ν) :
    (visits node fuel ⟨q ++ stale, q.length⟩ log).1 = splitChunks fuel q ↔ InStep q := by
  induction fuel generalizing q log with
  | zero => omega
  | succ fuel ih =>
    rw [splitChunks]
    cases hnext : nextHead q with
    | none =>
      rw [visits_stop node hnext]
      exact ⟨fun _ => .stop hnext, fun _ => rfl⟩
    | some head =>
      obtain ⟨id, type, length, q'⟩ := head
      obtain ⟨-, hlen, hle, -⟩ := next_head_some hnext
      obtain ⟨calls, hvisits⟩ := visits_chunk node hnext stale fuel log
      have hmoved : moved type length q'.length ≤ q'.length := moved_le hle
      rw [hvisits]
      dsimp only
      rw [List.cons.injEq, and_iff_right rfl]
      by_cases hfits : moved type length q'.length = length
      · rw [hfits, ih (by rw [List.length_drop]; omega)]
        constructor
        · exact .chunk id type length hnext hfits
        · intro hstep
          cases hstep with
          | stop ends => rw [hnext] at ends; cases ends
          | chunk id type length head _ rest =>
            rw [hnext] at head
            cases head
            exact rest
          | last id type length head ends _ =>
            rw [hnext] at head
            cases head
            exact .stop ends
      · -- the two go on at different places, so neither may find a chunk there
        have hne : (q'.drop (moved type length q'.length)).length ≠ (q'.drop length).length := by
          rw [List.length_drop, List.length_drop]
          omega
        obtain ⟨fuel, rfl⟩ : ∃ k, fuel = k + 1 := ⟨fuel - 1, by omega⟩
        constructor
        · intro hsame
          cases hgoes : nextHead (q'.drop (moved type length q'.length)) with
          | some head =>
            obtain ⟨id₁, type₁, length₁, q₁⟩ := head
            obtain ⟨_, hlater⟩ := visits_chunk node hgoes stale fuel (log ++ calls)
            rw [hlater, splitChunks] at hsame
            split at hsame
            · cases hsame
            · exact absurd (Visit.mk.inj (List.cons.inj hsame).1).1 hne
          | none =>
            rw [visits_stop node hgoes, splitChunks] at hsame
            cases hends : nextHead (q'.drop length) with
            | none => exact .last id type length hnext hends hgoes
            | some head =>
              rw [hends] at hsame
              cases hsame
        · intro hstep
          cases hstep with
          | stop ends => rw [hnext] at ends; cases ends
          | chunk id type length head fits _ =>
            rw [hnext] at head
            cases head
            exact absurd fits hfits
          | last id type length head ends goes =>
            rw [hnext] at head
            cases head
            rw [visits_stop node goes, splitChunks, ends]

/-- The chunks begin where the length fields say, in a packet with anything behind
it, and the parse makes the calls of these chunks. -/
def ByLength (h : ChunkIn ν) (node : ν) (bytes : List UInt8) : Prop :=
  ∀ stale, ∃ log, parsePacket h node (bytes ++ stale) bytes.length = (log, none) ∧
    visits node (bytes.length + 1) ⟨bytes ++ stale, bytes.length⟩ [] =
      (splitChunks (bytes.length + 1) bytes, log)

/-- The boundaries come from the length fields exactly if the loop stays in step:
a scalar is read over the width of its type. -/
theorem by_length_iff {h : ChunkIn ν} (hflat : RefusesArrays h) (node : ν) (bytes : List UInt8) :
    ByLength h node bytes ↔ InStep bytes := by
  have hfuel := Nat.lt_succ_self bytes.length
  constructor
  · intro hall
    obtain ⟨log, -, hvisits⟩ := hall []
    exact (visits_split_iff node [] hfuel []).mp (congrArg Prod.fst hvisits)
  · intro hstep stale
    have hcalls := visits_calls hflat node stale hfuel []
    obtain ⟨calls, -, hflatparse⟩ := parse_flat hflat node bytes []
    refine ⟨calls, ?_, Prod.ext ?_ ?_⟩
    · exact hflatparse stale _ (by rw [List.length_append]; omega)
    · exact (visits_split_iff node stale hfuel []).mpr hstep
    · rw [hflatparse stale _ hfuel] at hcalls
      exact (congrArg Prod.fst hcalls).symm

/-- A byte and a string, both as long as they say. -/
theorem by_length_two : ByLength flat () [1, 1, 0, 1, 7, 9, 5, 0, 2, 65, 66] :=
  (by_length_iff (h := flat) (fun _ _ _ _ => rfl) () [1, 1, 0, 1, 7, 9, 5, 0, 2, 65, 66]).mpr
    (.chunk 1 1 1 rfl rfl (.chunk 9 5 2 rfl rfl (.stop rfl)))

/-- A byte chunk that says it is three bytes long takes the one behind it with it. -/
theorem long_byte_desynchronises : ¬ ∀ (h : ChunkIn Unit), RefusesArrays h →
    ∀ (node : Unit) (bytes : List UInt8), ByLength h node bytes := by
  intro hall
  obtain ⟨log, -, hvisits⟩ := hall flat (fun _ _ _ _ => rfl) ()
    [1, 1, 0, 3, 5, 6, 7, 2, 1, 0, 1, 9] []
  have hlost : (visits () 13 ⟨[1, 1, 0, 3, 5, 6, 7, 2, 1, 0, 1, 9], 12⟩ []).1 ≠
      splitChunks 13 [1, 1, 0, 3, 5, 6, 7, 2, 1, 0, 1, 9] := by decide +kernel
  exact hlost (congrArg Prod.fst hvisits)

end Khorost.Chunks
