import Khorost.Util.AutoBuffer
import Khorost.Util.CString

namespace Khorost

/-- The values of `m_eHeaderProcess` and `m_eBodyProcess`. -/
inductive Phase
  | none
  | processingFirst
  | processingNext
  | successful
  | error
deriving DecidableEq

/-- `list_pairs`: positions of a name and its value; a value of `npos` is `none`. -/
abbrev ListPairs := List (Nat × Option Nat)

/-- `http_text_protocol_header` without the response. The three chunk
references are `none` while they are not valid. -/
structure HttpHeader where
  abHeader : AutoBuffer UInt8
  abParams : AutoBuffer UInt8
  abBody : AutoBuffer UInt8
  queryMethod : Option Nat
  queryUri : Option Nat
  queryVersion : Option Nat
  headerValues : List (Nat × Nat)
  paramsValue : ListPairs
  cookies : ListPairs
  headerProcess : Phase
  bodyProcess : Phase
  contentLength : Nat

/-- `find_sub_value` as far as its result `true` or `false` goes: where a
non-empty text stands outside of quotes. -/
def findMatch (pMatch : List UInt8) : List UInt8 → Bool → Option Nat
  | [], _ => none
  | c :: source, inQuote =>
    if (c :: source).length < pMatch.length then none
    else if c = quote then (findMatch pMatch source (!inQuote)).map (· + 1)
    else if inQuote = false ∧ (c :: source).take pMatch.length = pMatch then some 0
    else (findMatch pMatch source inQuote).map (· + 1)

/-- A pointer into the data and the size that goes with it. -/
structure Cursor where
  buffer : List UInt8
  bufferSize : Nat

namespace Cursor

def advance (i : Cursor) (n : Nat) : Cursor := ⟨i.buffer.drop n, i.bufferSize - n⟩

/-- `++buffer; --buffer_size`, where a size of zero wraps around. -/
def step (i : Cursor) : Cursor :=
  ⟨i.buffer.drop 1, if i.bufferSize = 0 then npos else i.bufferSize - 1⟩

end Cursor

/-- The loop of `get_chunk` over the leading run. `none` is a read outside the
memory, here and below. -/
def skipLead (lead : UInt8) : List UInt8 → Nat → Option Nat
  | _, 0 => some 0
  | [], _ + 1 => none
  | c :: buffer, size + 1 =>
    if c = lead then (skipLead lead buffer size).map (· + 1) else some 0

theorem skip_lead_bounds (h : skipLead lead xs n = some s) : s ≤ n ∧ s ≤ xs.length := by
  induction xs generalizing n s with
  | nil =>
    cases n with
    | zero =>
      cases h
      exact ⟨Nat.le_refl 0, Nat.le_refl 0⟩
    | succ n => cases h
  | cons d xs ih =>
    cases n with
    | zero =>
      cases h
      exact ⟨Nat.le_refl 0, Nat.zero_le _⟩
    | succ n =>
      rw [skipLead] at h
      split at h
      · obtain ⟨k, hk, rfl⟩ := Option.map_eq_some_iff.mp h
        obtain ⟨hn, hlen⟩ := ih hk
        exact ⟨Nat.succ_le_succ hn, Nat.succ_le_succ hlen⟩
      · cases h
        exact ⟨Nat.zero_le _, Nat.zero_le _⟩

/-- The loop of `get_chunk` that looks for a stop character. -/
def findStop (div : List UInt8) : List UInt8 → Nat → Option (Option Nat)
  | _, 0 => some none
  | [], _ + 1 => none
  | c :: buffer, size + 1 =>
    if c ∈ div then some (some 0) else (findStop div buffer size).map (Option.map (· + 1))

/-- What a successful `get_chunk` leaves behind. -/
structure ChunkFound where
  target : AutoBuffer UInt8
  reference : Nat
  chunkSize : Nat
  cursor : Cursor

/-- `get_chunk`: everything up to the first stop character behind the leading
run goes to the target, with the stop character replaced by a terminator. -/
def getChunk (i : Cursor) (lead : UInt8) (div : List UInt8) (target : AutoBuffer UInt8) :
    Option (Option ChunkFound) := do
  let s ← skipLead lead i.buffer i.bufferSize
  match ← findStop div (i.buffer.drop s) (i.bufferSize - s) with
  | none => some none
  | some m =>
    let k := s + m
    let chunkSize := k + 1
    let t := target.fillSize
    some (some {
      target := (target.append (i.buffer.take chunkSize)).set (t + k) nul
      reference := t + s
      chunkSize := chunkSize
      cursor := i.advance chunkSize })

/-- The loop over spaces at a position, `for (; buffer[k] == ' '; ++k)`. -/
def spacesAt : List UInt8 → Option Nat
  | [] => none
  | c :: buffer => if c = space then (spacesAt buffer).map (· + 1) else some 0

/-- The spaces end at the latest where something else stands. -/
theorem spaces_at_bounds {ys : List UInt8} (h : ys[i]? = some c) (hc : c ≠ space) :
    ∃ n ≤ i, spacesAt ys = some n := by
  induction ys generalizing i with
  | nil => simp at h
  | cons d ys ih =>
    by_cases hd : d = space
    · cases i with
      | zero =>
        simp only [List.getElem?_cons_zero, Option.some_inj] at h
        exact absurd (h ▸ hd) hc
      | succ i =>
        obtain ⟨n, hn, hspaces⟩ := ih (i := i) (by simpa using h)
        exact ⟨n + 1, by omega, by simp [spacesAt, hd, hspaces]⟩
    · exact ⟨0, Nat.zero_le i, by simp [spacesAt, hd]⟩

theorem spaces_at_more (h : spacesAt source = some n) (behind : List UInt8) :
    spacesAt (source ++ behind) = some n := by
  induction source generalizing n with
  | nil => cases h
  | cons c source ih =>
    rw [spacesAt] at h
    rw [List.cons_append, spacesAt]
    split at h
    · rename_i hc
      obtain ⟨m, hm, rfl⟩ := Option.map_eq_some_iff.mp h
      rw [if_pos hc, ih hm]
      rfl
    · rename_i hc
      rw [if_neg hc]
      exact h

/-- The position of a name in `parse_string`, behind its spaces if it is trimmed. -/
def namePosition (b : AutoBuffer UInt8) (trim : Bool) (k : Nat) : Option Nat :=
  if trim then (spacesAt (b.buffer.drop k)).map (k + ·) else some k

/-- The loop of `parse_string` with `size` bytes to go. Its `buffer` begins at the
position `shift` of `b`; the positions here are those in `b`. -/
def parseLoop (div : UInt8) (trim : Bool) :
    Nat → AutoBuffer UInt8 → Nat → Nat → Option Nat → ListPairs →
    Option (AutoBuffer UInt8 × ListPairs)
  | 0, b, _, _, _, target => some (b, target)
  | size + 1, b, t, k, v, target => do
    let c ← b.buffer[t]?
    if c = nul then
      let k ← namePosition b trim k
      some (b, target ++ [(k, v)])
    else if c = div then
      let b := b.set t nul
      let k ← namePosition b trim k
      parseLoop div trim size b (t + 1) (t + 1) none (target ++ [(k, v)])
    else if c = equals then parseLoop div trim size (b.set t nul) (t + 1) k (some (t + 1)) target
    else parseLoop div trim size b (t + 1) k v target

/-- `parse_string` on the `bufferSize` bytes of `b` from `shift` on. -/
def parseString (b : AutoBuffer UInt8) (bufferSize shift : Nat) (target : ListPairs) (div : UInt8)
    (trim : Bool) : Option (AutoBuffer UInt8 × ListPairs) :=
  parseLoop div trim bufferSize b shift shift none target

namespace HttpHeader

/-- `clear`. The buffers keep their allocations. -/
def clear (h : HttpHeader) : HttpHeader where
  abHeader := h.abHeader.flushFreeSize
  abParams := h.abParams.flushFreeSize
  abBody := h.abBody.flushFreeSize
  queryMethod := none
  queryUri := none
  queryVersion := none
  headerValues := []
  paramsValue := []
  cookies := []
  headerProcess := .processingFirst
  bodyProcess := .none
  contentLength := npos

/-- A new parser. `fresh` is what the allocator leaves in the three buffers. -/
def new (fresh : Nat → UInt8) : HttpHeader where
  abHeader := AutoBuffer.empty fresh
  abParams := AutoBuffer.empty fresh
  abBody := AutoBuffer.empty fresh
  queryMethod := none
  queryUri := none
  queryVersion := none
  headerValues := []
  paramsValue := []
  cookies := []
  headerProcess := .processingFirst
  bodyProcess := .none
  contentLength := npos

def isReady (h : HttpHeader) : Bool :=
  h.headerProcess = .successful ∧ h.bodyProcess = .successful

/-- The C string at a position of the header buffer. -/
def headerText (h : HttpHeader) (position : Nat) : List UInt8 := cStr (h.abHeader.buffer.drop position)

def paramsText (h : HttpHeader) (position : Nat) : List UInt8 := cStr (h.abParams.buffer.drop position)

def getQueryMethod (h : HttpHeader) : Option (List UInt8) := h.queryMethod.map h.headerText

def getQueryUri (h : HttpHeader) : Option (List UInt8) := h.queryUri.map h.headerText

/-- `m_query_version_.get_chunk()`. -/
def getQueryVersion (h : HttpHeader) : Option (List UInt8) := h.queryVersion.map h.headerText

/-- `get_header_parameter`; a `nullptr` is `none`. -/
def getHeaderParameter (h : HttpHeader) (param : List UInt8) (defaultValue : Option (List UInt8)) :
    Option (List UInt8) :=
  match h.headerValues.find? (fun p => strcaseEq param (h.headerText p.1)) with
  | some p => some (h.headerText p.2)
  | none => defaultValue

def getCookie (h : HttpHeader) (key : List UInt8) (defaultValue : Option (List UInt8)) :
    Option (List UInt8) :=
  match h.cookies.find? (fun p => strcaseEq key (h.headerText p.1)) with
  | some (_, some v) => some (h.headerText v)
  | _ => defaultValue

/-- `get_parameter` for strings. -/
def getParameter (h : HttpHeader) (key : List UInt8) (defaultValue : Option (List UInt8)) :
    Option (List UInt8) :=
  match h.paramsValue.find? (fun p => strcaseEq key (h.paramsText p.1)) with
  | some (_, some v) => some (h.paramsText v)
  | _ => defaultValue

def isParameterExist (h : HttpHeader) (key : List UInt8) : Bool :=
  h.paramsValue.any (fun p => strcaseEq key (h.paramsText p.1))

def getBody (h : HttpHeader) : List UInt8 := h.abBody.content

end HttpHeader

/-- The local variables of `process_data`. -/
structure Locals where
  cursor : Cursor
  processByte : Nat
  chunkSize : Nat

/-- Where a part of `process_data` goes on: it returns its number, or falls
through to the next part. -/
inductive Flow
  | ret (h : HttpHeader) (processByte : Nat)
  | next (h : HttpHeader) (l : Locals)

def Flow.andThen (flow : Option Flow) (part : HttpHeader → Locals → Option (HttpHeader × Nat)) :
    Option (HttpHeader × Nat) :=
  match flow with
  | none => none
  | some (.ret h processByte) => some (h, processByte)
  | some (.next h l) => part h l

namespace HttpHeader

/-- `GET` or `POST`. -/
def methodPart (h : HttpHeader) (l : Locals) : Option Flow :=
  if h.queryMethod.isSome then some (.next h l)
  else do
    match ← getChunk l.cursor space [space] h.abHeader with
    | none => some (.ret h l.processByte)
    | some c =>
      some (.next { h with abHeader := c.target, queryMethod := some c.reference }
        ⟨c.cursor, l.processByte + c.chunkSize, c.chunkSize⟩)

/-- `/index.html`. A question mark that ends it is left in the buffer. -/
def uriPart (h : HttpHeader) (l : Locals) : Option Flow :=
  if h.queryUri.isSome then some (.next h l)
  else do
    match ← getChunk l.cursor space [question, space] h.abHeader with
    | none => some (.ret h l.processByte)
    | some c =>
      let h := { h with abHeader := c.target, queryUri := some c.reference }
      let last ← l.cursor.buffer[c.chunkSize - 1]?
      if last = question then
        let chunkSize := c.chunkSize - 1
        some (.next h ⟨⟨l.cursor.buffer.drop chunkSize, c.cursor.bufferSize + 1⟩,
          l.processByte + chunkSize, chunkSize⟩)
      else some (.next h ⟨c.cursor, l.processByte + c.chunkSize, c.chunkSize⟩)

/-- `?key=val&`. The size is not compared with zero before the first byte is read. -/
def paramsPart (h : HttpHeader) (l : Locals) : Option Flow :=
  if h.abParams.fillSize = 0 then do
    let first ← l.cursor.buffer[0]?
    if first = question then
      match ← getChunk l.cursor.step question [space] h.abParams with
      | none => some (.ret h l.processByte)
      | some c =>
        some (.next { h with abParams := c.target }
          ⟨c.cursor, l.processByte + c.chunkSize + 1, c.chunkSize⟩)
    else some (.next h l)
  else some (.next h l)

/-- `if (0 < buffer_size && (buffer[0] == '\r' || buffer[0] == '\n'))` behind the
first line and behind each header line. -/
def skipLineEnd (i : Cursor) (chunkSize : Nat) : Option (Cursor × Nat) :=
  if 0 < i.bufferSize then do
    let c ← i.buffer[0]?
    if c = cr ∨ c = lf then some (i.advance 1, chunkSize + 1) else some (i, chunkSize)
  else some (i, chunkSize)

/-- `HTTP/1.1`. -/
def versionPart (h : HttpHeader) (l : Locals) : Option Flow :=
  if h.queryVersion.isSome then some (.next h l)
  else do
    match ← getChunk l.cursor space [cr, lf] h.abHeader with
    | none => some (.ret h l.processByte)
    | some c =>
      let (i, chunkSize) ← skipLineEnd c.cursor c.chunkSize
      some (.next { h with
        abHeader := c.target
        queryVersion := some c.reference
        headerProcess := .processingNext } ⟨i, l.processByte + chunkSize, chunkSize⟩)

/-- What is done with a whole header line; the buffer holds it already. -/
def addHeader (h : HttpHeader) (headerKey headerValue chunkSizeV : Nat) : Option HttpHeader :=
  let h := { h with headerValues := h.headerValues ++ [(headerKey, headerValue)] }
  if h.contentLength = npos ∧ h.headerText headerKey = ascii "Content-Length" then
    some { h with contentLength := sizeT (atoi (h.headerText headerValue)) }
  else if h.headerText headerKey = ascii "Cookie" then do
    let (abHeader, cookies) ←
      parseString h.abHeader chunkSizeV headerValue h.cookies semicolon true
    some { h with abHeader := abHeader, cookies := cookies }
  else some h

/-- One header line, and whether it was complete. When it is not,
`decrement_free_size` is called with `chunk_size` as the last chunk has left it. -/
def headerLine (h : HttpHeader) (l : Locals) : Option (HttpHeader × Locals × Bool) := do
  match ← getChunk l.cursor space [colon] h.abHeader with
  | none => some ({ h with abHeader := h.abHeader.decrementFreeSize l.chunkSize }, l, false)
  | some key =>
    match ← getChunk key.cursor space [cr, lf] key.target with
    | none =>
      some ({ h with abHeader := key.target.decrementFreeSize key.chunkSize },
        ⟨key.cursor, l.processByte, key.chunkSize⟩, false)
    | some value => do
      let (i, chunkSize) ← skipLineEnd value.cursor key.chunkSize
      let h ← addHeader { h with abHeader := value.target } key.reference value.reference
        value.chunkSize
      some (h, ⟨i, l.processByte + (chunkSize + value.chunkSize), chunkSize⟩, true)

/-- `buffer[0] == '\r' && buffer[1] == '\n'`. -/
def blankLine (buffer : List UInt8) : Option Bool := do
  let first ← buffer[0]?
  if first = cr then buffer[1]?.map (· == lf) else some false

/-- The loop over the header lines. A pass that goes on moves the pointer
through the memory, which bounds the number of passes. -/
def headerLoop : Nat → HttpHeader → Locals → Option (HttpHeader × Locals)
  | 0, _, _ => none
  | fuel + 1, h, l =>
    if 2 ≤ l.cursor.bufferSize then do
      if ← blankLine l.cursor.buffer then
        some ({ h with headerProcess := .successful, bodyProcess := .processingFirst },
          ⟨l.cursor.advance 2, l.processByte + 2, l.chunkSize⟩)
      else do
        let (h, l, whole) ← headerLine h l
        if whole then headerLoop fuel h l else some (h, l)
    else some (h, l)

/-- The parameters so far, with an ampersand in the place of their terminator. -/
def endWithAmpersand (b : AutoBuffer UInt8) : AutoBuffer UInt8 :=
  let k := b.fillSize
  if b.buffer[k - 1]? = some nul then
    if 1 < k ∧ b.buffer[k - 2]? ≠ some ampersand then b.set (k - 1) ampersand
    else b.incrementFreeSize 1
  else if b.buffer[k - 1]? ≠ some ampersand then b.append [ampersand]
  else b

/-- A body of the type `application/x-www-form-urlencoded` is appended to the parameters. -/
def mergeForm (h : HttpHeader) : HttpHeader :=
  let joined :=
    if h.abParams.fillSize = 0 then h
    else
      let abParams := endWithAmpersand h.abParams
      { h with
        abParams := abParams
        contentLength :=
          (h.contentLength + sizeT ((abParams.fillSize : Int).bmod (2 ^ 32))) % 2 ^ 64 }
  { joined with abParams := (joined.abParams.append joined.abBody.content).append [nul] }

/-- Whether the `Content-Type` is that of a form. -/
def isForm (h : HttpHeader) : Bool :=
  match h.getHeaderParameter (ascii "Content-Type") none with
  | some contentType =>
    (findMatch (ascii "application/x-www-form-urlencoded") contentType false).isSome
  | none => false

/-- The number of body bytes taken is bounded by the whole `Content-Length`, not
by what is still missing of it. -/
def takeBody (h : HttpHeader) (l : Locals) : Option (HttpHeader × Nat) :=
  let chunkSize := min l.cursor.bufferSize h.contentLength
  if h.contentLength = npos ∨ (l.cursor.bufferSize = 0 ∧ h.contentLength = 0) then
    some ({ h with bodyProcess := .successful, contentLength := 0 }, l.processByte)
  else if chunkSize ≠ 0 then
    if l.cursor.buffer.length < chunkSize then none
    else
      let h := { h with abBody := h.abBody.append (l.cursor.buffer.take chunkSize) }
      let h :=
        if h.contentLength ≤ h.abBody.fillSize then
          let h := { h with bodyProcess := .successful }
          if h.isForm then h.mergeForm else h
        else h
      some (h, l.processByte + chunkSize)
  else some (h, l.processByte)

def bodyPart (h : HttpHeader) (l : Locals) : Option (HttpHeader × Nat) :=
  if h.bodyProcess = .processingFirst ∨ h.bodyProcess = .processingNext then do
    let (h, processByte) ← h.takeBody l
    if h.bodyProcess = .successful then
      let (abParams, paramsValue) ←
        parseString h.abParams h.abParams.fillSize 0 h.paramsValue ampersand false
      some ({ h with abParams := abParams, paramsValue := paramsValue }, processByte)
    else some (h, processByte)
  else some (h, l.processByte)

/-- `case eProcessingNext`, and the body behind it. -/
def nextPart (h : HttpHeader) (l : Locals) : Option (HttpHeader × Nat) := do
  let (h, l) ← headerLoop (l.cursor.buffer.length + 1) h l
  bodyPart h l

/-- `process_data`: the memory from `buffer` on, the buffer size, and what the
local variable `chunk_size` holds before anything is assigned to it. -/
def processData (h : HttpHeader) (buffer : List UInt8) (bufferSize chunkSize : Nat) :
    Option (HttpHeader × Nat) :=
  let l : Locals := ⟨⟨buffer, bufferSize⟩, 0, chunkSize⟩
  match h.headerProcess with
  | .processingFirst =>
    Flow.andThen (methodPart h l) fun h l =>
    Flow.andThen (uriPart h l) fun h l =>
    Flow.andThen (paramsPart h l) fun h l =>
    Flow.andThen (versionPart h l) nextPart
  | .processingNext => nextPart h l
  | _ => bodyPart h l

end HttpHeader

end Khorost
