import Mathlib.Data.List.Infix
import Khorost.Proofs.Passes

namespace Khorost.Chunks

open Bytes

/-- What the checked parser stops at besides the end: a halt of the parser, or
an index that is not below the announced count. -/
inductive Trip
  | halt (reason : Halt)
  | index
deriving DecidableEq

mutual

/-- `parseChunks` with two checks: the memory of an ARRAY chunk ends with the
chunk, so that a read behind it, at whatever depth, is outside the memory; and
every index is compared with the count before `EnterNode` is called. -/
def checkedChunks (h : ChunkIn ν) : Nat → ν → Input → CallLog ν → CallLog ν × Option Trip
  | 0, _, _, log => (log, some (.halt .fuel))
  | fuel + 1, node, i, log =>
    match readHead i with
    | .stop => (log, none)
    | .outside => (log, some (.halt .outside))
    | .head id type length i =>
      if type = ChunkType.array then
        if 2 ≤ length then
          match (Input.mk (i.pBuffer.take length) length).readBuffer16 with
          | none => (log, some (.halt .outside))
          | some (count, inner) =>
            let array := h.setArray log node id count
            let log := log ++ [(node, .setArray id count)]
            match array with
            | none => checkedChunks h fuel node (i.skip length) log
            | some array =>
              match checkedNodes h fuel array id count 0 inner log with
              | (log, none) => checkedChunks h fuel node (i.skip length) log
              | tripped => tripped
        else checkedChunks h fuel node (i.skip length) log
      else
        match readValue id type length i with
        | none => (log, some (.halt .outside))
        | some (call, i) =>
          checkedChunks h fuel node i (log ++ call.toList.map (fun call => (node, call)))

def checkedNodes (h : ChunkIn ν) :
    Nat → ν → UInt8 → UInt16 → UInt16 → Input → CallLog ν → CallLog ν × Option Trip
  | 0, _, _, _, _, _, log => (log, some (.halt .fuel))
  | fuel + 1, array, id, count, index, i, log =>
    if 2 ≤ i.nBufferSize then
      match i.readBuffer16 with
      | none => (log, some (.halt .outside))
      | some (nodeLength, i) =>
        if index < count then
          let node := h.enterNode log array id index
          let log := log ++ [(array, .enterNode id index)]
          match node with
          | none => checkedNodes h fuel array id count (index + 1) (i.skip nodeLength.toNat) log
          | some node =>
            match checkedChunks h fuel node ⟨i.pBuffer, nodeLength.toNat⟩ log with
            | (log, none) =>
              checkedNodes h fuel array id count (index + 1) (i.skip nodeLength.toNat)
                (log ++ [(node, .leaveNode id index)])
            | tripped => tripped
        else (log, some .index)
    else (log, none)

end

/-- Parts of a packet: chunks, or the nodes of an array of which so many are still to come. -/
inductive Part
  | chunks
  | nodes (remaining : Nat)

/-- The arrays in the bytes keep their bounds, nested ones too: there are at most
as many nodes as announced, and each lies within its array. -/
inductive Bounded : Part → List UInt8 → Prop
  | stop {q : List UInt8} (head : nextHead q = none) : Bounded .chunks q
  | value {q q' rest : List UInt8} {id type : UInt8} {length : Nat} {call : Option ChunkCall}
    (head : nextHead q = some (id, type, length, q')) (type_ne : type ≠ ChunkType.array)
    (read : ValueRead id type length q' call rest) (behind : Bounded .chunks rest) :
    Bounded .chunks q
  | shortArray {q q' : List UInt8} {id : UInt8} {length : Nat}
    (head : nextHead q = some (id, ChunkType.array, length, q')) (short : length < 2)
    (behind : Bounded .chunks (q'.drop length)) : Bounded .chunks q
  | array {q q' : List UInt8} {id c₀ c₁ : UInt8} {length : Nat}
    (head : nextHead q = some (id, ChunkType.array, length + 2, c₀ :: c₁ :: q'))
    (nodes : Bounded (.nodes (leValue [c₀, c₁])) (q'.take length))
    (behind : Bounded .chunks (q'.drop length)) : Bounded .chunks q
  | last {q : List UInt8} {n : Nat} (short : q.length < 2) : Bounded (.nodes n) q
  | node {q : List UInt8} {n : Nat} {l₀ l₁ : UInt8} (fits : leValue [l₀, l₁] ≤ q.length)
    (chunks : Bounded .chunks (q.take (leValue [l₀, l₁])))
    (behind : Bounded (.nodes n) (q.drop (leValue [l₀, l₁]))) :
    Bounded (.nodes (n + 1)) (l₀ :: l₁ :: q)

/-- The count or the node length at the head of memory that ends with the size. -/
theorem read_16 (b c : UInt8) (q : List UInt8) :
    (Input.mk (b :: c :: q) (q.length + 2)).readBuffer16 =
      some (UInt16.ofNat (leValue [b, c]), ⟨q, q.length⟩) := by
  have hread := Input.read_buffer16_cons b c q []
  rwa [List.append_nil, List.append_nil] at hread

theorem two_bytes_le (b c : UInt8) : (UInt16.ofNat (leValue [b, c])).toNat = leValue [b, c] := by
  have hb := b.toNat_lt
  have hc := c.toNat_lt
  simp only [UInt16.toNat_ofNat', leValue]
  omega

theorem skip_exact (h : n ≤ q.length) :
    (Input.mk q q.length).skip n = ⟨q.drop n, (q.drop n).length⟩ := by
  have hs := Input.skip_front (q := q) [] h
  rwa [List.append_nil, List.append_nil] at hs

theorem index_succ {index count : UInt16} (h : index < count) :
    (index + 1).toNat = index.toNat + 1 := by
  have hlt : index.toNat < count.toNat := h
  have hle := count.toNat_lt
  rw [UInt16.toNat_add, UInt16.toNat_one, Nat.mod_eq_of_lt (by omega)]

/-- The memory of an array chunk that has room for its count. -/
theorem array_inner (stale : List UInt8) (hlen : length + 2 ≤ (c₀ :: c₁ :: q).length) :
    (Input.mk ((c₀ :: c₁ :: q ++ stale).take (length + 2)) (length + 2)).readBuffer16 =
      some (UInt16.ofNat (leValue [c₀, c₁]), ⟨q.take length, (q.take length).length⟩) := by
  simp only [List.length_cons] at hlen
  have htake : (c₀ :: c₁ :: q ++ stale).take (length + 2) = c₀ :: c₁ :: q.take length := by
    rw [List.take_append_of_le_length (by simp only [List.length_cons]; omega),
      List.take_succ_cons, List.take_succ_cons]
  have hsize : (q.take length).length = length := by
    rw [List.length_take]
    omega
  have hread := read_16 c₀ c₁ (q.take length)
  rw [hsize] at hread ⊢
  rw [htake, hread]

section

variable {q q' rest : List UInt8} {id type : UInt8} {length fuel : Nat}

theorem checked_stop (h : ChunkIn ν) (hnext : nextHead q = none) (node : ν) (stale : List UInt8)
    (log : CallLog ν) :
    checkedChunks h (fuel + 1) node ⟨q ++ stale, q.length⟩ log = (log, none) := by
  rw [checkedChunks, read_head_next, hnext]

theorem checked_value {call : Option ChunkCall} (h : ChunkIn ν)
    (hnext : nextHead q = some (id, type, length, q')) (htype : type ≠ ChunkType.array)
    (hread : ValueRead id type length q' call rest) (node : ν) (stale : List UInt8)
    (log : CallLog ν) : checkedChunks h (fuel + 1) node ⟨q ++ stale, q.length⟩ log =
      checkedChunks h fuel node ⟨rest ++ stale, rest.length⟩
        (log ++ call.toList.map fun call => (node, call)) := by
  rw [checkedChunks, read_head_next, hnext]
  dsimp only
  rw [if_neg htype, hread.reads]

/-- An array without room for its count is passed over. -/
theorem checked_short (h : ChunkIn ν)
    (hnext : nextHead q = some (id, ChunkType.array, length, q')) (hshort : length < 2) (node : ν)
    (stale : List UInt8) (log : CallLog ν) :
    checkedChunks h (fuel + 1) node ⟨q ++ stale, q.length⟩ log =
      checkedChunks h fuel node ⟨q'.drop length ++ stale, (q'.drop length).length⟩ log := by
  obtain ⟨-, -, hle, -⟩ := next_head_some hnext
  rw [checkedChunks, read_head_next, hnext]
  dsimp only
  rw [if_pos rfl, if_neg (by omega), Input.skip_front stale hle]

theorem checked_array (h : ChunkIn ν)
    (hnext : nextHead q = some (id, ChunkType.array, length + 2, c₀ :: c₁ :: q')) (node : ν)
    (stale : List UInt8) (log : CallLog ν) :
    let count := UInt16.ofNat (leValue [c₀, c₁])
    let behind : Input := ⟨q'.drop length ++ stale, (q'.drop length).length⟩
    let called := log ++ [(node, .setArray id count)]
    checkedChunks h (fuel + 1) node ⟨q ++ stale, q.length⟩ log =
      match h.setArray log node id count with
      | none => checkedChunks h fuel node behind called
      | some array =>
        match checkedNodes h fuel array id count 0 ⟨q'.take length, (q'.take length).length⟩
          called with
        | (log, none) => checkedChunks h fuel node behind log
        | tripped => tripped := by
  obtain ⟨-, -, hle, -⟩ := next_head_some hnext
  have hskip : (Input.mk (c₀ :: c₁ :: q' ++ stale) (c₀ :: c₁ :: q').length).skip (length + 2) =
      ⟨q'.drop length ++ stale, (q'.drop length).length⟩ := Input.skip_front stale hle
  rw [checkedChunks, read_head_next, hnext]
  dsimp only
  rw [if_pos rfl, if_pos (by omega), array_inner stale hle, hskip]

theorem checked_last (h : ChunkIn ν) (hshort : q.length < 2) (array : ν) (id : UInt8)
    (count index : UInt16) (log : CallLog ν) :
    checkedNodes h (fuel + 1) array id count index ⟨q, q.length⟩ log = (log, none) := by
  rw [checkedNodes, if_neg (by dsimp only; omega)]

theorem checked_node (h : ChunkIn ν) (l₀ l₁ : UInt8) (q : List UInt8) (array : ν) (id : UInt8)
    (count index : UInt16) (log : CallLog ν) :
    let behind := (Input.mk q q.length).skip (leValue [l₀, l₁])
    let called := log ++ [(array, .enterNode id index)]
    checkedNodes h (fuel + 1) array id count index ⟨l₀ :: l₁ :: q, (l₀ :: l₁ :: q).length⟩ log =
      if index < count then
        match h.enterNode log array id index with
        | none => checkedNodes h fuel array id count (index + 1) behind called
        | some node =>
          match checkedChunks h fuel node ⟨q, leValue [l₀, l₁]⟩ called with
          | (log, none) =>
            checkedNodes h fuel array id count (index + 1) behind
              (log ++ [(node, .leaveNode id index)])
          | tripped => tripped
      else (log, some .index) := by
  rw [checkedNodes, if_pos (by simp), List.length_cons, List.length_cons, read_16]
  dsimp only
  rw [two_bytes_le]

end

/-- A part is parsed to its end with no check tripped. -/
def Runs (h : ChunkIn ν) : Part → List UInt8 → Prop
  | .chunks, q => ∀ node log, ∃ log', ∀ stale fuel, q.length < fuel →
    checkedChunks h fuel node ⟨q ++ stale, q.length⟩ log = (log', none)
  | .nodes n, q => ∀ array id count (index : UInt16) log, index.toNat + n = count.toNat →
    ∃ log', ∀ fuel, q.length < fuel →
      checkedNodes h fuel array id count index ⟨q, q.length⟩ log = (log', none)

theorem runs_of_bounded (h : ChunkIn ν) (hb : Bounded part q) : Runs h part q := by
  induction hb with
  | stop hnext =>
    intro node log
    refine ⟨log, fun stale fuel hfuel => ?_⟩
    obtain ⟨fuel, rfl⟩ : ∃ k, fuel = k + 1 := ⟨fuel - 1, by omega⟩
    exact checked_stop h hnext node stale log
  | @value q q' rest id type length call hnext htype hread _ ih =>
    intro node log
    obtain ⟨-, hlen, -, -⟩ := next_head_some hnext
    have hshort := hread.left.length_le
    obtain ⟨log', hrun⟩ := ih node (log ++ call.toList.map fun call => (node, call))
    refine ⟨log', fun stale fuel hfuel => ?_⟩
    obtain ⟨fuel, rfl⟩ : ∃ k, fuel = k + 1 := ⟨fuel - 1, by omega⟩
    rw [checked_value h hnext htype hread]
    exact hrun stale fuel (by omega)
  | @shortArray q q' id length hnext hshort _ ih =>
    intro node log
    obtain ⟨-, hlen, -, -⟩ := next_head_some hnext
    obtain ⟨log', hrun⟩ := ih node log
    refine ⟨log', fun stale fuel hfuel => ?_⟩
    obtain ⟨fuel, rfl⟩ : ∃ k, fuel = k + 1 := ⟨fuel - 1, by omega⟩
    rw [checked_short h hnext hshort]
    exact hrun stale fuel (by rw [List.length_drop]; omega)
  | @array q q' id c₀ c₁ length hnext _ _ ihNodes ihChunks =>
    intro node log
    obtain ⟨-, hlen, -, -⟩ := next_head_some hnext
    have hlen₂ : q.length = q'.length + 6 := hlen
    have hcount : (0 : UInt16).toNat + leValue [c₀, c₁] =
        (UInt16.ofNat (leValue [c₀, c₁])).toNat := by
      rw [two_bytes_le, UInt16.toNat_zero, Nat.zero_add]
    cases harray : h.setArray log node id (UInt16.ofNat (leValue [c₀, c₁])) with
    | none =>
      obtain ⟨log', hrun⟩ := ihChunks node
        (log ++ [(node, .setArray id (UInt16.ofNat (leValue [c₀, c₁])))])
      refine ⟨log', fun stale fuel hfuel => ?_⟩
      obtain ⟨fuel, rfl⟩ : ∃ k, fuel = k + 1 := ⟨fuel - 1, by omega⟩
      simp only [checked_array h hnext, harray]
      exact hrun stale fuel (by rw [List.length_drop]; omega)
    | some array =>
      obtain ⟨log₁, hnodes⟩ := ihNodes array id _ 0
        (log ++ [(node, .setArray id (UInt16.ofNat (leValue [c₀, c₁])))]) hcount
      obtain ⟨log', hrun⟩ := ihChunks node log₁
      refine ⟨log', fun stale fuel hfuel => ?_⟩
      obtain ⟨fuel, rfl⟩ : ∃ k, fuel = k + 1 := ⟨fuel - 1, by omega⟩
      have hinner := hnodes fuel (by rw [List.length_take]; omega)
      simp only [checked_array h hnext, harray, hinner]
      exact hrun stale fuel (by rw [List.length_drop]; omega)
  | @last q n hshort =>
    intro array id count index log _
    refine ⟨log, fun fuel hfuel => ?_⟩
    obtain ⟨fuel, rfl⟩ : ∃ k, fuel = k + 1 := ⟨fuel - 1, by omega⟩
    exact checked_last h hshort array id count index log
  | @node q n l₀ l₁ hfits _ _ ihChunks ihNodes =>
    intro array id count index log hindex
    have hlt : index < count := by
      rw [UInt16.lt_iff_toNat_lt]
      omega
    have hnext : (index + 1).toNat + n = count.toNat := by
      rw [index_succ hlt]
      omega
    cases hnode : h.enterNode log array id index with
    | none =>
      obtain ⟨log', hrun⟩ := ihNodes array id count (index + 1)
        (log ++ [(array, .enterNode id index)]) hnext
      refine ⟨log', fun fuel hfuel => ?_⟩
      simp only [List.length_cons] at hfuel
      obtain ⟨fuel, rfl⟩ : ∃ k, fuel = k + 1 := ⟨fuel - 1, by omega⟩
      simp only [checked_node, if_pos hlt, hnode, skip_exact hfits]
      exact hrun fuel (by rw [List.length_drop]; omega)
    | some node =>
      obtain ⟨log₁, hchunks⟩ := ihChunks node (log ++ [(array, .enterNode id index)])
      obtain ⟨log', hrun⟩ := ihNodes array id count (index + 1)
        (log₁ ++ [(node, .leaveNode id index)]) hnext
      refine ⟨log', fun fuel hfuel => ?_⟩
      simp only [List.length_cons] at hfuel
      obtain ⟨fuel, rfl⟩ : ∃ k, fuel = k + 1 := ⟨fuel - 1, by omega⟩
      have hsize : (q.take (leValue [l₀, l₁])).length = leValue [l₀, l₁] := by
        rw [List.length_take]
        omega
      have hpart := hchunks (q.drop (leValue [l₀, l₁])) fuel (by omega)
      rw [List.take_append_drop, hsize] at hpart
      simp only [checked_node, if_pos hlt, hnode, skip_exact hfits, hpart]
      exact hrun fuel (by rw [List.length_drop]; omega)

/-- A handler that enters every array and every node. -/
def entering : ChunkIn Unit := ⟨fun _ _ _ _ => some (), fun _ _ _ _ => some ()⟩

/-- A node length past the end of the array is followed by a read outside of it. -/
theorem overrun_trips (h : ChunkIn ν) (fuel : Nat) (array : ν) (id : UInt8) (count index : UInt16)
    (log : CallLog ν) (hover : ¬ leValue [l₀, l₁] ≤ q.length) :
    checkedNodes h fuel array id count index ((Input.mk q q.length).skip (leValue [l₀, l₁])) log ≠
      (log', none) := by
  have hlt : leValue [l₀, l₁] < 2 ^ 16 := by
    rw [← two_bytes_le]
    exact (UInt16.ofNat _).toNat_lt
  have hskip : (Input.mk q q.length).skip (leValue [l₀, l₁]) =
      ⟨[], q.length + 2 ^ 64 - leValue [l₀, l₁]⟩ := by
    rw [Input.skip, if_neg hover, List.drop_eq_nil_of_le (by dsimp only; omega)]
  cases fuel with
  | zero => simp [checkedNodes]
  | succ fuel =>
    rw [hskip, checkedNodes, if_pos (by dsimp only; omega)]
    simp [Input.readBuffer16, Input.readBuffer]

/-- What does not trip the parse of a handler that enters everything is bounded. -/
theorem bounded_of_checked (fuel : Nat) :
    (∀ q stale log log', checkedChunks entering fuel () ⟨q ++ stale, q.length⟩ log = (log', none) →
      Bounded .chunks q) ∧
    ∀ q id count index log log',
      checkedNodes entering fuel () id count index ⟨q, q.length⟩ log = (log', none) →
      Bounded (.nodes (count.toNat - index.toNat)) q := by
  induction fuel with
  | zero =>
    constructor
    · intro q stale log log' hrun
      simp [checkedChunks] at hrun
    · intro q id count index log log' hrun
      simp [checkedNodes] at hrun
  | succ fuel ih =>
    obtain ⟨ihChunks, ihNodes⟩ := ih
    constructor
    · intro q stale log log' hrun
      cases hnext : nextHead q with
      | none => exact .stop hnext
      | some head =>
        obtain ⟨id, type, length, q'⟩ := head
        obtain ⟨-, -, hle, -⟩ := next_head_some hnext
        by_cases harray : type = ChunkType.array
        · subst harray
          by_cases hshort : length < 2
          · rw [checked_short entering hnext hshort] at hrun
            exact .shortArray hnext hshort (ihChunks _ _ _ _ hrun)
          · match q', length, hle, hshort with
            | [], _, hle, hshort | [_], _, hle, hshort =>
              simp only [List.length_cons, List.length_nil] at hle
              omega
            | c₀ :: c₁ :: q', length + 2, hle, _ =>
              rw [checked_array entering hnext] at hrun
              dsimp only [entering] at hrun
              split at hrun
              · next log₁ hnodes =>
                have hn := ihNodes _ _ _ _ _ _ hnodes
                rw [two_bytes_le] at hn
                exact .array hnext hn (ihChunks _ _ _ _ hrun)
              · next hnot =>
                exact absurd hrun (hnot _)
        · obtain ⟨call, rest, hread⟩ := read_value_spec id type hle
          rw [checked_value entering hnext harray hread] at hrun
          exact .value hnext harray hread (ihChunks _ _ _ _ hrun)
    · intro q id count index log log' hrun
      match q with
      | [] | [_] => exact .last (by simp)
      | l₀ :: l₁ :: q =>
        rw [checked_node] at hrun
        by_cases hlt : index < count
        · rw [if_pos hlt] at hrun
          dsimp only [entering] at hrun
          split at hrun
          · next log₁ hnode =>
            by_cases hfits : leValue [l₀, l₁] ≤ q.length
            · rw [skip_exact hfits] at hrun
              have hsize : (q.take (leValue [l₀, l₁])).length = leValue [l₀, l₁] := by
                rw [List.length_take]
                omega
              rw [← List.take_append_drop (leValue [l₀, l₁]) q] at hnode
              nth_rewrite 3 [← hsize] at hnode
              have hremain : count.toNat - index.toNat =
                  count.toNat - (index + 1).toNat + 1 := by
                rw [UInt16.lt_iff_toNat_lt] at hlt
                rw [index_succ (UInt16.lt_iff_toNat_lt.mpr hlt)]
                omega
              rw [hremain]
              exact .node hfits (ihChunks _ _ _ _ hnode) (ihNodes _ _ _ _ _ _ hrun)
            · exact absurd hrun (overrun_trips entering fuel () id count (index + 1) _ hfits)
          · next hnot => exact absurd hrun (hnot _)
        · rw [if_neg hlt] at hrun
          cases hrun

/-- The same size over a memory that goes further. -/
structure Under (i i' : Input) : Prop where
  memory : i.pBuffer <+: i'.pBuffer
  size : i'.nBufferSize = i.nBufferSize

theorem Under.skip (hi : Under i i') (n : Nat) : Under (i.skip n) (i'.skip n) :=
  ⟨hi.memory.drop n, by simp only [Input.skip, hi.size]⟩

theorem Under.read (hi : Under i i') (hread : i.readBuffer n = some (bs, j)) :
    ∃ j', i'.readBuffer n = some (bs, j') ∧ Under j j' := by
  unfold Input.readBuffer at hread
  split at hread
  · next hn =>
    cases hread
    refine ⟨i'.skip n, ?_, hi.skip n⟩
    obtain ⟨more, hmore⟩ := hi.memory
    rw [Input.readBuffer, ← hmore, if_pos (Nat.le_trans hn (List.prefix_append _ _).length_le),
      List.take_append_of_le_length hn]
  · cases hread

theorem Under.map_read (hi : Under i i') (f : List UInt8 → β)
    (hread : (i.readBuffer n).map (fun (bs, i) => (f bs, i)) = some (v, j)) :
    ∃ j', (i'.readBuffer n).map (fun (bs, i) => (f bs, i)) = some (v, j') ∧ Under j j' := by
  obtain ⟨⟨bs, j⟩, hread, he⟩ := Option.map_eq_some_iff.mp hread
  cases he
  obtain ⟨j', hread', hj⟩ := hi.read hread
  exact ⟨j', by rw [hread']; rfl, hj⟩

theorem Under.read8 (hi : Under i i') (hread : i.readBuffer8 = some (v, j)) :
    ∃ j', i'.readBuffer8 = some (v, j') ∧ Under j j' :=
  hi.map_read (fun bs => UInt8.ofNat (leValue bs)) hread

theorem Under.read16 (hi : Under i i') (hread : i.readBuffer16 = some (v, j)) :
    ∃ j', i'.readBuffer16 = some (v, j') ∧ Under j j' :=
  hi.map_read (fun bs => UInt16.ofNat (leValue bs)) hread

/-- The same head is found unless the smaller memory ends before it. -/
theorem Under.head (hi : Under i i') :
    match readHead i with
    | .stop => readHead i' = .stop
    | .outside => True
    | .head id type length j => ∃ j', readHead i' = .head id type length j' ∧ Under j j' := by
  unfold readHead
  rw [hi.size]
  by_cases h1 : i.nBufferSize < 1
  · simp only [if_pos h1]
  simp only [if_neg h1]
  cases hid : i.readBuffer8 with
  | none => trivial
  | some r =>
    obtain ⟨id, i₁⟩ := r
    obtain ⟨i₁', hid', hi₁⟩ := hi.read8 hid
    simp only [hid', hi₁.size]
    by_cases h2 : i₁.nBufferSize < 1
    · simp only [if_pos h2]
    simp only [if_neg h2]
    cases htype : i₁.readBuffer8 with
    | none => trivial
    | some r =>
      obtain ⟨type, i₂⟩ := r
      obtain ⟨i₂', htype', hi₂⟩ := hi₁.read8 htype
      simp only [htype', hi₂.size]
      by_cases h3 : i₂.nBufferSize < 2
      · simp only [if_pos h3]
      simp only [if_neg h3]
      cases hsize : i₂.readBuffer16 with
      | none => trivial
      | some r =>
        obtain ⟨size, i₃⟩ := r
        obtain ⟨i₃', hsize', hi₃⟩ := hi₂.read16 hsize
        simp only [hsize', hi₃.size]
        by_cases h4 : i₃.nBufferSize < (ntohs size).toNat
        · simp only [if_pos h4]
        · simp only [if_neg h4]
          exact ⟨i₃', rfl, hi₃⟩

theorem Under.value {id type : UInt8} (hi : Under i i')
    (hread : readValue id type length i = some (call, j)) :
    ∃ j', readValue id type length i' = some (call, j') ∧ Under j j' := by
  rcases read_value_shape id type length with ⟨n, make, hs⟩ | ⟨-, hskip⟩
  · rw [hs.reads] at hread ⊢
    rw [hi.size]
    by_cases hn : n ≤ i.nBufferSize
    · rw [if_pos hn] at hread ⊢
      exact hi.map_read (fun bs => some (make bs)) hread
    · rw [if_neg hn] at hread ⊢
      cases hread
      exact ⟨i', rfl, hi⟩
  · rw [hskip] at hread ⊢
    cases hread
    exact ⟨_, rfl, hi.skip length⟩

/-- A run on which no check trips is a run of the parser, over any memory that
begins with that of the checked one. -/
theorem checked_agrees (h : ChunkIn ν) (fuel : Nat) :
    (∀ i i' node log log', Under i i' → checkedChunks h fuel node i log = (log', none) →
      parseChunks h fuel node i' log = (log', none)) ∧
    ∀ i i' array id count index log log', Under i i' →
      checkedNodes h fuel array id count index i log = (log', none) →
      parseNodes h fuel array id index i' log = (log', none) := by
  induction fuel with
  | zero =>
    constructor
    · intro i i' node log log' _ hrun
      simp [checkedChunks] at hrun
    · intro i i' array id count index log log' _ hrun
      simp [checkedNodes] at hrun
  | succ fuel ih =>
    obtain ⟨ihChunks, ihNodes⟩ := ih
    constructor
    · intro i i' node log log' hi hrun
      have hh := hi.head
      rw [checkedChunks] at hrun
      rw [parseChunks]
      cases hhead : readHead i with
      | stop =>
        simp only [hhead] at hh hrun
        simp only [hh]
        exact congrArg (fun log => (log, none)) (Prod.mk.inj hrun).1
      | outside => simp [hhead] at hrun
      | head id type length j =>
        simp only [hhead] at hh hrun
        obtain ⟨j', hhead', hj⟩ := hh
        simp only [hhead']
        by_cases harray : type = ChunkType.array
        · rw [if_pos harray] at hrun ⊢
          by_cases hcount : 2 ≤ length
          · rw [if_pos hcount] at hrun ⊢
            have hinner : Under ⟨j.pBuffer.take length, length⟩ ⟨j'.pBuffer, length⟩ :=
              ⟨(List.take_prefix _ _).trans hj.memory, rfl⟩
            cases hread : (Input.mk (j.pBuffer.take length) length).readBuffer16 with
            | none => simp [hread] at hrun
            | some r =>
              obtain ⟨count, inner⟩ := r
              obtain ⟨inner', hread', hin⟩ := hinner.read16 hread
              simp only [hread] at hrun
              simp only [hread']
              cases harr : h.setArray log node id count with
              | none =>
                simp only [harr] at hrun
                exact ihChunks _ _ _ _ _ (hj.skip length) hrun
              | some array =>
                simp only [harr] at hrun
                split at hrun
                · next log₁ hnodes =>
                  simp only [ihNodes _ _ _ _ _ _ _ _ hin hnodes]
                  exact ihChunks _ _ _ _ _ (hj.skip length) hrun
                · next hnot => exact absurd hrun (hnot _)
          · rw [if_neg hcount] at hrun ⊢
            exact ihChunks _ _ _ _ _ (hj.skip length) hrun
        · rw [if_neg harray] at hrun ⊢
          cases hread : readValue id type length j with
          | none => simp [hread] at hrun
          | some r =>
            obtain ⟨call, k⟩ := r
            obtain ⟨k', hread', hk⟩ := hj.value hread
            simp only [hread] at hrun
            simp only [hread']
            exact ihChunks _ _ _ _ _ hk hrun
    · intro i i' array id count index log log' hi hrun
      rw [checkedNodes] at hrun
      rw [parseNodes, hi.size]
      by_cases hsize : 2 ≤ i.nBufferSize
      · rw [if_pos hsize] at hrun ⊢
        cases hread : i.readBuffer16 with
        | none => simp [hread] at hrun
        | some r =>
          obtain ⟨nodeLength, j⟩ := r
          obtain ⟨j', hread', hj⟩ := hi.read16 hread
          simp only [hread] at hrun
          simp only [hread']
          by_cases hlt : index < count
          · rw [if_pos hlt] at hrun
            cases hnode : h.enterNode log array id index with
            | none =>
              simp only [hnode] at hrun
              exact ihNodes _ _ _ _ _ _ _ _ (hj.skip _) hrun
            | some node =>
              simp only [hnode] at hrun
              split at hrun
              · next log₁ hchunks =>
                have hpart : Under ⟨j.pBuffer, nodeLength.toNat⟩ ⟨j'.pBuffer, nodeLength.toNat⟩ :=
                  ⟨hj.memory, rfl⟩
                simp only [ihChunks _ _ _ _ _ hpart hchunks]
                exact ihNodes _ _ _ _ _ _ _ _ (hj.skip _) hrun
              · next hnot => exact absurd hrun (hnot _)
          · rw [if_neg hlt] at hrun
            cases hrun
      · rw [if_neg hsize] at hrun ⊢
        exact congrArg (fun log => (log, none)) (Prod.mk.inj hrun).1

/-- Whatever arrays and nodes a handler takes: the parse of the packet comes to
its end, it reads no byte behind an array chunk while it decodes that chunk, and
it enters nodes with indices below the announced count only. -/
def Within (bytes : List UInt8) : Prop :=
  ∀ (ν : Type) (h : ChunkIn ν) (node : ν), ∃ log,
    (∃ fuel, checkedChunks h fuel node ⟨bytes, bytes.length⟩ [] = (log, none)) ∧
      ∀ stale, parsePacket h node (bytes ++ stale) bytes.length = (log, none)

theorem within_bounded (hw : Within bytes) : Bounded .chunks bytes := by
  obtain ⟨log, ⟨fuel, hrun⟩, -⟩ := hw Unit entering ()
  exact (bounded_of_checked fuel).1 bytes [] [] log (by rwa [List.append_nil])

/-- Every handler stays within the arrays of a packet exactly when they keep their bounds. -/
theorem arrays_within_iff (bytes : List UInt8) : Within bytes ↔ Bounded .chunks bytes := by
  constructor
  · exact within_bounded
  · intro hb ν h node
    obtain ⟨log, hrun⟩ := runs_of_bounded h hb node []
    refine ⟨log, ⟨bytes.length + 1, ?_⟩, fun stale => ?_⟩
    · have hexact := hrun [] (bytes.length + 1) (Nat.lt_succ_self _)
      rwa [List.append_nil] at hexact
    · exact (checked_agrees h _).1 _ _ node [] log ⟨List.prefix_rfl, rfl⟩
        (hrun stale _ (by rw [List.length_append]; omega))

theorem Bounded.in_array {id : UInt8} (hb : Bounded .chunks q)
    (hnext : nextHead q = some (id, ChunkType.array, length + 2, c₀ :: c₁ :: q')) :
    Bounded (.nodes (leValue [c₀, c₁])) (q'.take length) := by
  cases hb with
  | stop head => simp [head] at hnext
  | value head type_ne =>
    simp only [head, Option.some.injEq, Prod.mk.injEq] at hnext
    exact (type_ne hnext.2.1).elim
  | shortArray head short =>
    simp only [head, Option.some.injEq, Prod.mk.injEq] at hnext
    omega
  | array head nodes =>
    rw [head] at hnext
    cases hnext
    exact nodes

theorem Bounded.in_node (hb : Bounded (.nodes n) (l₀ :: l₁ :: q)) :
    0 < n ∧ leValue [l₀, l₁] ≤ q.length := by
  cases hb with
  | last short =>
    simp only [List.length_cons] at short
    omega
  | node fits => exact ⟨Nat.succ_pos _, fits⟩

/-- An array of one node that claims 16 bytes where none are left, and an array
that announces no nodes and has one. -/
theorem array_bounds_not_kept :
    ¬ Within [1, 8, 0, 4, 1, 0, 16, 0] ∧ ¬ Within [1, 8, 0, 4, 0, 0, 0, 0] ∧
      parsePacket entering () [1, 8, 0, 4, 1, 0, 16, 0] 8 =
        ([((), .setArray 1 1), ((), .enterNode 1 0)], some .outside) ∧
      parsePacket entering () [1, 8, 0, 4, 0, 0, 0, 0] 8 =
        ([((), .setArray 1 0), ((), .enterNode 1 0), ((), .leaveNode 1 0)], none) := by
  refine ⟨fun hw => ?_, fun hw => ?_, by decide +kernel, by decide +kernel⟩
  · have hnodes := (within_bounded hw).in_array  rfl
    exact absurd hnodes.in_node.2 (by decide)
  · have hnodes := (within_bounded hw).in_array  rfl
    exact absurd hnodes.in_node.1 (by decide)

end Khorost.Chunks
