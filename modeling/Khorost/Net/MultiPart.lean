import Khorost.Lib.Blocks
import Khorost.Net.Http
import Khorost.Util.RawBuffer

namespace Khorost

open Blocks

/-- `HTTP_ATTRIBUTE_ENDL`. -/
def endl : List UInt8 := [cr, lf]

/-- `HTTP_ATTRIBUTE_LABEL_CD`. -/
def labelCd : List UInt8 := ascii "--"

/-- `PTRDIFF_MAX`, the length up to which there are objects and strings. -/
def maxSize : Nat := 2 ^ 63 - 1

theorem lt_of_max_size (h : n ≤ maxSize) : n < 2 ^ 63 := by
  rw [maxSize] at h
  omega

/-- `find`. `none` is a read outside of the memory, here and below. -/
def AutoBuffer.find (b : AutoBuffer UInt8) (start : Nat) (match_ : List UInt8) :
    Option (Option Nat) :=
  search match_ (sizeSub b.fillSize match_.length) (b.buffer.drop start) start

/-- `compare(...) == 0`. -/
def AutoBuffer.compare (b : AutoBuffer UInt8) (start : Nat) (match_ : List UInt8) : Option Bool :=
  if b.fillSize < sizeAdd start match_.length then some false
  else (read b.buffer start match_.length).map (· == match_)

/-- What is found in the filled part is what the call returns, whatever is behind it. -/
theorem AutoBuffer.find_filled {b : AutoBuffer UInt8} {m : List UInt8}
    (h : search m (sizeSub b.fillSize m.length) (b.content.drop start) start = some found) :
    b.find start m = some found := by
  have hmore := search_more h (b.stale.drop (start - b.content.length))
  rw [← List.drop_append, ← b.buffer_split] at hmore
  exact hmore

/-- A text that is no longer than the fill is found where it first stands in the
filled part. -/
theorem AutoBuffer.find_spec (b : AutoBuffer UInt8) (start : Nat) {m : List UInt8}
    (hm : m.length ≤ b.fillSize) (hfill : b.fillSize ≤ maxSize) :
    (∃ k, b.find start m = some (some k) ∧ start ≤ k ∧ m <+: b.content.drop k ∧
        ∀ i, start ≤ i → i < k → ¬ m <+: b.content.drop i) ∨
      (b.find start m = some none ∧
        ∀ i, start ≤ i → i ≤ b.fillSize - m.length → ¬ m <+: b.content.drop i) := by
  have hlen : b.content.length = b.fillSize := b.content_length
  have hmax : sizeSub b.fillSize m.length = b.fillSize - m.length := by
    have := lt_of_max_size hfill
    exact size_sub_eq hm (by omega)
  have hmem : b.fillSize - m.length + m.length ≤ start + (b.content.drop start).length := by
    rw [List.length_drop]
    omega
  rcases search_spec _ start hmem with ⟨j, hfound, hj, hat, hfirst⟩ | ⟨hfound, hnone⟩
  · rw [List.drop_drop] at hat
    rw [← hmax] at hfound
    refine .inl ⟨start + j, find_filled hfound, Nat.le_add_right .., hat, fun i hi hlt hp => ?_⟩
    obtain ⟨i, rfl⟩ := Nat.exists_eq_add_of_le hi
    have := hfirst i (by omega)
    rw [List.drop_drop] at this
    exact this hp
  · rw [← hmax] at hfound
    refine .inr ⟨find_filled hfound, fun i hi hle hp => ?_⟩
    obtain ⟨i, rfl⟩ := Nat.exists_eq_add_of_le hi
    have := hnone i hle
    rw [List.drop_drop] at this
    exact this hp

theorem AutoBuffer.compare_prefix (b : AutoBuffer UInt8) (start : Nat) {m : List UInt8}
    (hm : 0 < m.length) (hsize : start + m.length < 2 ^ 64) :
    b.compare start m = some (decide (m <+: b.content.drop start)) := by
  have hready : b.fillSize ≤ b.buffer.length := b.ready_le
  have hadd : sizeAdd start m.length = start + m.length := size_add_eq hsize
  rw [AutoBuffer.compare, hadd]
  split
  · next hshort =>
    have hno : ¬ m <+: b.content.drop start := by
      intro hp
      have := hp.length_le
      rw [List.length_drop, content_length] at this
      omega
    rw [decide_eq_false hno]
  · next hroom =>
    have hdrop : b.buffer.drop start = b.content.drop start ++ b.stale := by
      rw [b.buffer_split, List.drop_append_of_le_length (by rw [content_length]; omega)]
    have hlen : m.length ≤ (b.content.drop start).length := by
      rw [List.length_drop, content_length]
      omega
    have hread : Blocks.read b.buffer start m.length =
        some ((b.content.drop start).take m.length) := by
      rw [Blocks.read, if_pos (by omega), hdrop, List.take_append_of_le_length hlen]
    rw [hread, Option.map_some, Option.some_inj, Bool.eq_iff_iff, beq_iff_eq, decide_eq_true_iff,
      List.prefix_iff_eq_take, eq_comm]

def strlen (memory : List UInt8) : Option Nat :=
  if nul ∈ memory then some (cStr memory).length else none

/-- The first loop of `find_sub_value` with `n` positions to go: where the text
stands outside of quotes. -/
def findMatchAt (source pMatch : List UInt8) : Nat → Nat → Bool → Option (Option Nat)
  | 0, _, _ => some none
  | n + 1, pCheck, inQuote => do
    let c ← source[pCheck]?
    if c = quote then findMatchAt source pMatch n (pCheck + 1) (!inQuote)
    else if inQuote = false then
      if (← read source pCheck pMatch.length) = pMatch then some (some pCheck)
      else findMatchAt source pMatch n (pCheck + 1) inQuote
    else findMatchAt source pMatch n (pCheck + 1) inQuote

/-- The second loop, which the end of the source or a `divKK` ends: where it
ends, and the position behind the last `divKV` it has passed. -/
def findValue (source : List UInt8) (divKV divKK : UInt8) :
    Nat → Nat → Bool → Option Nat → Option (Nat × Option Nat)
  | 0, pCheck, _, pStart => some (pCheck, pStart)
  | n + 1, pCheck, inQuote, pStart => do
    let c ← source[pCheck]?
    if c = quote then findValue source divKV divKK n (pCheck + 1) (!inQuote) pStart
    else if inQuote = false ∧ c = divKV then
      findValue source divKV divKK n (pCheck + 1) inQuote (some (pCheck + 1))
    else if inQuote = false ∧ c = divKK then some (pCheck, pStart)
    else findValue source divKV divKK n (pCheck + 1) inQuote pStart

/-- The loop over spaces from a position backwards. -/
def spacesBack (source : List UInt8) : Nat → Option Nat
  | 0 => do
    let c ← source[0]?
    if c = space then none else some 0
  | p + 1 => do
    let c ← source[p + 1]?
    if c = space then spacesBack source p else some (p + 1)

/-- What `find_sub_value` assigns to `*pResult_` and `*pnResultSize_`. The
position is one in the source, and `none` is a null pointer. -/
structure SubValue where
  result : Option Nat
  resultSize : Nat
deriving DecidableEq

/-- The spaces and a quote are taken off both ends of a value, each without
regard to the other end. -/
def trimValue (source : List UInt8) (pStart pCheck : Nat) : Option SubValue := do
  let spaces ← spacesAt (source.drop pStart)
  let pStart := pStart + spaces
  let first ← source[pStart]?
  let pStart := if first = quote then pStart + 1 else pStart
  let pCheck ← spacesBack source pCheck
  let last ← source[pCheck]?
  let pEnd := if last = quote then pCheck else pCheck + 1
  some ⟨some pStart, sizeSub pEnd pStart⟩

/-- `find_sub_value` with both results wanted, on the memory from `pSource_` on. -/
def findSubValue (source : List UInt8) (size : Nat) (pMatch : List UInt8) (divKV divKK : UInt8) :
    Option (Option SubValue) := do
  let size ← if size = npos then strlen source else some size
  if size < pMatch.length then some none
  else
    match ← findMatchAt source pMatch (size - pMatch.length + 1) 0 false with
    | none => some none
    | some pCheck =>
      let pCheck := pCheck + pMatch.length
      let (pCheck, pStart) ← findValue source divKV divKK (size - pCheck) pCheck false none
      match pStart with
      | none => some (some ⟨none, 0⟩)
      -- `pCheck` is taken back by one where the loop breaks, and else behind it
      | some pStart => (trimValue source pStart (pCheck - 1)).map some

/-- `get_multi_part`'s parameters, all of them references. The content is a
position in the body. -/
structure MultiPart where
  currentIterator : Nat
  partName : List UInt8
  partContentType : List UInt8
  bufferContent : Option Nat
  bufferContentSize : Nat
deriving DecidableEq

/-- How a call ends: it returns, an exception leaves it, it reads outside of the
memory, or it is still in its loop after so many passes. -/
inductive PartEnd
  | returned (found : Bool) (m : MultiPart)
  | threw
  | outside
  | running
deriving DecidableEq

def orOutside (value : Option α) : Except PartEnd α :=
  match value with
  | some a => .ok a
  | none => .error .outside

/-- `assign` and `append` of the value to a string. Longer strings than there
are are refused with an exception. -/
def takeString (source : List UInt8) (value : SubValue) (length : Nat) :
    Except PartEnd (List UInt8) :=
  if maxSize - length < value.resultSize then .error .threw
  else
    match value.result with
    | none => .ok []
    | some p => orOutside (read source p value.resultSize)

/-- A line's value under the name `pMatch`, or `old` where the line has none. -/
def lineValue (source : List UInt8) (size : Nat) (pMatch : List UInt8) (divKV : UInt8)
    (old : List UInt8) : Except PartEnd (List UInt8) := do
  match ← orOutside (findSubValue source size pMatch divKV semicolon) with
  | none => .ok old
  | some value => takeString source value 0

/-- A header line of a part, from the iterator on and of the given size. -/
def partLine (b : AutoBuffer UInt8) (size : Nat) (m : MultiPart) : Except PartEnd MultiPart := do
  let line := b.buffer.drop m.currentIterator
  if ← orOutside (b.compare m.currentIterator (ascii "Content-Disposition")) then
    let partName ← lineValue line size (ascii "name") equals m.partName
    .ok { m with partName := partName }
  else if ← orOutside (b.compare m.currentIterator (ascii "Content-Type")) then
    let partContentType ← lineValue line size (ascii "Content-Type") colon m.partContentType
    .ok { m with partContentType := partContentType }
  else .ok m

/-- The blank line in front of the content. The iterator stays behind it where
no boundary follows. -/
def partContent (b : AutoBuffer UInt8) (boundaryLabel : List UInt8) (m : MultiPart) : PartEnd :=
  let m := { m with currentIterator := sizeAdd m.currentIterator endl.length }
  match b.find m.currentIterator (endl ++ boundaryLabel) with
  | none => .outside
  | some none => .returned false m
  | some (some pEndLine) =>
    .returned true { m with
      bufferContent := some m.currentIterator
      bufferContentSize := sizeSub pEndLine m.currentIterator
      currentIterator := sizeAdd pEndLine endl.length }

/-- One pass of the loop: the call ends with it, or it goes on. -/
def linePass (b : AutoBuffer UInt8) (boundaryLabel : List UInt8) (m : MultiPart) :
    Except PartEnd MultiPart := do
  let found ← orOutside (b.find m.currentIterator endl)
  -- without a line end, what is left of the body is taken for a position in it
  let pEndLine := found.getD (sizeSub b.fillSize m.currentIterator)
  if pEndLine = m.currentIterator then .error (partContent b boundaryLabel m)
  else
    let m' ← partLine b (sizeSub pEndLine m.currentIterator) m
    .ok { m' with currentIterator := sizeAdd pEndLine endl.length }

theorem part_content_found {b : AutoBuffer UInt8} {label : List UInt8} {m : MultiPart}
    (hcur : sizeAdd m.currentIterator endl.length = cur)
    (hfind : b.find cur (endl ++ label) = some (some pEndLine)) :
    partContent b label m = .returned true { m with
      bufferContent := some cur
      bufferContentSize := sizeSub pEndLine cur
      currentIterator := sizeAdd pEndLine endl.length } := by
  simp only [partContent, hcur, hfind]

theorem part_content_none {b : AutoBuffer UInt8} {label : List UInt8} {m : MultiPart}
    (hcur : sizeAdd m.currentIterator endl.length = cur)
    (hfind : b.find cur (endl ++ label) = some none) :
    partContent b label m = .returned false { m with currentIterator := cur } := by
  simp only [partContent, hcur, hfind]

theorem line_pass_blank {b : AutoBuffer UInt8} {label : List UInt8} {m : MultiPart}
    (hfind : b.find m.currentIterator endl = some found)
    (hend : found.getD (sizeSub b.fillSize m.currentIterator) = m.currentIterator) :
    linePass b label m = .error (partContent b label m) := by
  rw [linePass, hfind]
  exact if_pos hend

theorem line_pass_line {b : AutoBuffer UInt8} {label : List UInt8} {m : MultiPart}
    (hfind : b.find m.currentIterator endl = some found)
    (hend : found.getD (sizeSub b.fillSize m.currentIterator) = pEndLine)
    (hne : pEndLine ≠ m.currentIterator) :
    linePass b label m = (do
      let m' ← partLine b (sizeSub pEndLine m.currentIterator) m
      .ok { m' with currentIterator := sizeAdd pEndLine endl.length }) := by
  subst hend
  rw [linePass, hfind]
  exact if_neg hne

def lineLoop (b : AutoBuffer UInt8) (boundaryLabel : List UInt8) : Nat → MultiPart → PartEnd
  | 0, _ => .running
  | fuel + 1, m =>
    if m.currentIterator < b.fillSize then
      match linePass b boundaryLabel m with
      | .error result => result
      | .ok m => lineLoop b boundaryLabel fuel m
    else .returned false m

theorem line_loop_pass {b : AutoBuffer UInt8} {label : List UInt8} {m m' : MultiPart}
    (hlt : m.currentIterator < b.fillSize) (hpass : linePass b label m = .ok m') :
    lineLoop b label (fuel + 1) m = lineLoop b label fuel m' := by
  rw [lineLoop, if_pos hlt, hpass]

theorem line_loop_end {b : AutoBuffer UInt8} {label : List UInt8} {m : MultiPart}
    (hlt : m.currentIterator < b.fillSize)
    (hpass : linePass b label m = .error result) : lineLoop b label (fuel + 1) m = result := by
  rw [lineLoop, if_pos hlt, hpass]

/-- The boundary's label, from the `Content-Type` with its terminator. -/
def findLabel (contentType : List UInt8) : Except PartEnd (Option (List UInt8)) := do
  if (findMatch (ascii "multipart/form-data") contentType false).isSome then
    match ← orOutside (findSubValue (contentType ++ [nul]) contentType.length (ascii "boundary")
        equals semicolon) with
    | none => .ok none
    | some value =>
      let boundary ← takeString (contentType ++ [nul]) value labelCd.length
      .ok (some (labelCd ++ boundary))
  else .ok none

/-- The label at the iterator and the end of its line. -/
def passLabel (b : AutoBuffer UInt8) (boundaryLabel : List UInt8) (m : MultiPart) :
    Except PartEnd MultiPart := do
  if ← orOutside (b.compare m.currentIterator boundaryLabel) then
    let m := { m with currentIterator := sizeAdd m.currentIterator boundaryLabel.length }
    if ← orOutside (b.compare m.currentIterator labelCd) then .error (.returned false m)
    else if ← orOutside (b.compare m.currentIterator endl) then
      .ok { m with currentIterator := sizeAdd m.currentIterator endl.length }
    else .error (.returned false m)
  else .error (.returned false m)

namespace HttpHeader

/-- A header value is no longer than the buffer that it stands in. -/
theorem header_parameter_length {h : HttpHeader}
    (hvalue : h.getHeaderParameter param none = some value) :
    value.length ≤ h.abHeader.fullSize := by
  unfold getHeaderParameter at hvalue
  split at hvalue
  · rw [← Option.some_inj.mp hvalue]
    exact (List.takeWhile_prefix _).length_le.trans (List.drop_sublist ..).length_le
  · cases hvalue

/-- `get_multi_part` in front of its loop. -/
def multiPartStart (h : HttpHeader) (m : MultiPart) :
    Except PartEnd (List UInt8 × MultiPart) := do
  match h.getHeaderParameter (ascii "Content-Type") none with
  | none => .error (.returned false m)
  | some contentType =>
    match ← findLabel contentType with
    | none => .error (.returned false m)
    | some boundaryLabel =>
      let m ← passLabel h.abBody boundaryLabel m
      .ok (boundaryLabel, m)

/-- `get_multi_part`, with the passes of its loop bounded by `fuel`. -/
def getMultiPart (h : HttpHeader) (fuel : Nat) (m : MultiPart) : PartEnd :=
  match h.multiPartStart m with
  | .error result => result
  | .ok (boundaryLabel, m) => lineLoop h.abBody boundaryLabel fuel m

end HttpHeader

end Khorost
