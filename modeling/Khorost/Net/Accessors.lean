import Khorost.Net.Response

namespace Khorost

/-- Where a filled part holds a terminated string. -/
def TextAt (content : List UInt8) (position : Nat) : Prop := nul ∈ content.drop position

instance (content : List UInt8) (position : Nat) : Decidable (TextAt content position) :=
  inferInstanceAs (Decidable (nul ∈ content.drop position))

/-- The string at `get_position(position)`. `none` is a position at which no
string starts that ends in the filled part. -/
def AutoBuffer.stringAt (b : AutoBuffer UInt8) (position : Nat) : Option (List UInt8) :=
  if TextAt b.content position then some (cStr (b.content.drop position)) else none

/-- The first pair whose name is the key, with every name that is compared read
where it stands. -/
def AutoBuffer.findName (b : AutoBuffer UInt8) (key : List UInt8) :
    List (Nat × γ) → Option (Option (Nat × γ))
  | [] => some none
  | p :: pairs => do
    let name ← b.stringAt p.1
    if strcaseEq key name then some (some p) else b.findName key pairs

namespace HttpHeader.Checked

def getHeaderParameter (h : HttpHeader) (param : List UInt8) (defaultValue : Option (List UInt8)) :
    Option (Option (List UInt8)) := do
  match ← h.abHeader.findName param h.headerValues with
  | none => some defaultValue
  | some (_, value) => (h.abHeader.stringAt value).map some

def getCookie (h : HttpHeader) (key : List UInt8) (defaultValue : Option (List UInt8)) :
    Option (Option (List UInt8)) := do
  match ← h.abHeader.findName key h.cookies with
  | some (_, some value) => (h.abHeader.stringAt value).map some
  | _ => some defaultValue

def getParameter (h : HttpHeader) (key : List UInt8) (defaultValue : Option (List UInt8)) :
    Option (Option (List UInt8)) := do
  match ← h.abParams.findName key h.paramsValue with
  | some (_, some value) => (h.abParams.stringAt value).map some
  | _ => some defaultValue

/-- The loop of `fill_parameter2_array`. A value is read without a look at `npos`,
which lies outside every buffer. -/
def fillLoop (b : AutoBuffer UInt8) (sKey sKey2 : List UInt8) :
    ListPairs → List Int → Option (List Int)
  | [], rArray => some rArray
  | p :: pairs, rArray => do
    let name ← b.stringAt p.1
    if strcaseEq sKey name ∨ strcaseEq sKey2 name then
      let value ← p.2.bind b.stringAt
      fillLoop b sKey sKey2 pairs (rArray ++ [atoi value])
    else fillLoop b sKey sKey2 pairs rArray

def fillParameter2Array (h : HttpHeader) (sKey : List UInt8) (rArray : List Int) :
    Option (List Int) :=
  fillLoop h.abParams sKey (sKey ++ ascii "[]") h.paramsValue rArray

end HttpHeader.Checked

namespace HttpProcessor.Checked

def calculateHostPort (p : HttpProcessor) : Option HttpProcessor := do
  match ← p.header.abHeader.findName (ascii "Host") p.header.headerValues with
  | none => some p
  | some (_, idx) =>
    let (n, atColon) ← hostEnd (p.header.abHeader.content.drop idx)
    if atColon then
      some { p with
        header := { p.header with abHeader := p.header.abHeader.set (idx + n) nul }
        host := some idx
        port := some (idx + n + 1) }
    else some { p with host := some idx, port := some 0 }

def withHost (p : HttpProcessor) : Option HttpProcessor :=
  if p.host.isNone then calculateHostPort p else some p

def getHost (p : HttpProcessor) : Option (List UInt8 × HttpProcessor) := do
  let p ← withHost p
  match p.host with
  | none => some ([], p)
  | some idx => (p.header.abHeader.stringAt idx).map (·, p)

def getPort (p : HttpProcessor) : Option (List UInt8 × HttpProcessor) := do
  let p ← withHost p
  match p.port with
  | none | some 0 => some ([], p)
  | some idx => (p.header.abHeader.stringAt idx).map (·, p)

end HttpProcessor.Checked

theorem c_str_ended (h : nul ∈ xs) (ys : List UInt8) : cStr (xs ++ ys) = cStr xs := by
  obtain ⟨before, after, rfl⟩ := List.append_of_mem h
  obtain ⟨after', ha⟩ := c_str_split before after
  rw [ha, List.append_assoc, List.cons_append, c_str_terminated (c_str_clear before),
    c_str_terminated (c_str_clear before)]

theorem host_end_append (h : hostEnd xs = some r) (ys : List UInt8) :
    hostEnd (xs ++ ys) = some r := by
  induction xs generalizing r with
  | nil => cases h
  | cons c xs ih =>
    rw [hostEnd] at h
    rw [List.cons_append, hostEnd]
    split at h
    · rename_i hc
      rw [if_pos hc]
      exact h
    · rename_i hc
      rw [if_neg hc]
      split at h
      · rename_i hc
        rw [if_pos hc]
        exact h
      · rename_i hc
        obtain ⟨s, hs, rfl⟩ := Option.map_eq_some_iff.mp h
        rw [if_neg hc, ih hs]
        rfl

theorem drop_split (b : AutoBuffer UInt8) (h : position ≤ b.content.length) :
    b.buffer.drop position = b.content.drop position ++ b.stale := by
  rw [b.buffer_split, List.drop_append_of_le_length h]

theorem TextAt.le (h : TextAt content position) : position ≤ content.length := by
  have hpos := List.length_pos_of_mem h
  rw [List.length_drop] at hpos
  omega

theorem string_at_text {b : AutoBuffer UInt8} (h : TextAt b.content position) :
    b.stringAt position = some (cStr (b.buffer.drop position)) := by
  rw [AutoBuffer.stringAt, if_pos h, drop_split b h.le, c_str_ended h]

/-- A string that is read with the check is the one that is read without it. -/
theorem string_at_some {b : AutoBuffer UInt8} (h : b.stringAt position = some s) :
    TextAt b.content position ∧ cStr (b.buffer.drop position) = s := by
  by_cases ht : TextAt b.content position
  · rw [string_at_text ht] at h
    exact ⟨ht, Option.some.inj h⟩
  · rw [AutoBuffer.stringAt, if_neg ht] at h
    cases h

theorem find_name_some {b : AutoBuffer UInt8} {pairs : List (Nat × γ)} {key : List UInt8}
    (h : b.findName key pairs = some found) :
    pairs.find? (fun p => strcaseEq key (cStr (b.buffer.drop p.1))) = found := by
  induction pairs with
  | nil => exact Option.some.inj h
  | cons p pairs ih =>
    obtain ⟨name, hname, h⟩ := Option.bind_eq_some_iff.mp h
    obtain ⟨-, rfl⟩ := string_at_some hname
    rw [List.find?_cons]
    split at h
    · rename_i heq
      rw [heq]
      exact Option.some.inj h
    · rename_i heq
      rw [Bool.not_eq_true] at heq
      rw [heq]
      exact ih h

namespace HttpHeader

theorem checked_header_parameter (h : HttpHeader)
    (he : Checked.getHeaderParameter h param d = some r) : h.getHeaderParameter param d = r := by
  obtain ⟨found, hfound, he⟩ := Option.bind_eq_some_iff.mp he
  have hfind := find_name_some hfound
  unfold getHeaderParameter headerText
  rw [hfind]
  cases found with
  | none => exact Option.some.inj he
  | some v =>
    obtain ⟨s, hs, rfl⟩ := Option.map_eq_some_iff.mp he
    exact congrArg some (string_at_some hs).2

theorem checked_cookie (h : HttpHeader) (he : Checked.getCookie h key d = some r) :
    h.getCookie key d = r := by
  obtain ⟨found, hfound, he⟩ := Option.bind_eq_some_iff.mp he
  have hfind := find_name_some hfound
  unfold getCookie headerText
  rw [hfind]
  match found, he with
  | none, he => exact Option.some.inj he
  | some (_, none), he => exact Option.some.inj he
  | some (_, some value), he =>
    obtain ⟨s, hs, rfl⟩ := Option.map_eq_some_iff.mp he
    exact congrArg some (string_at_some hs).2

theorem checked_parameter (h : HttpHeader) (he : Checked.getParameter h key d = some r) :
    h.getParameter key d = r := by
  obtain ⟨found, hfound, he⟩ := Option.bind_eq_some_iff.mp he
  have hfind := find_name_some hfound
  unfold getParameter paramsText
  rw [hfind]
  match found, he with
  | none, he => exact Option.some.inj he
  | some (_, none), he => exact Option.some.inj he
  | some (_, some value), he =>
    obtain ⟨s, hs, rfl⟩ := Option.map_eq_some_iff.mp he
    exact congrArg some (string_at_some hs).2

end HttpHeader

namespace HttpProcessor

theorem checked_calculate (p : HttpProcessor) (he : Checked.calculateHostPort p = some p') :
    p.calculateHostPort = some p' := by
  obtain ⟨found, hfound, he⟩ := Option.bind_eq_some_iff.mp he
  have hfind := find_name_some hfound
  unfold calculateHostPort getHeaderIndex HttpHeader.headerText
  rw [hfind]
  cases found with
  | none => exact he
  | some v =>
    obtain ⟨r, hr, he⟩ := Option.bind_eq_some_iff.mp he
    have hlt : v.2 ≤ p.header.abHeader.content.length := by
      by_contra hgt
      rw [List.drop_eq_nil_of_le (Nat.le_of_not_le hgt)] at hr
      cases hr
    simp only [Option.map_some, drop_split _ hlt, host_end_append hr, Option.bind_eq_bind,
      Option.bind_some]
    exact he

theorem checked_with_host (p : HttpProcessor) (he : Checked.withHost p = some p') :
    p.withHost = some p' := by
  unfold Checked.withHost at he
  unfold withHost
  split at he
  · rename_i hnone
    rw [if_pos hnone]
    exact checked_calculate p he
  · rename_i hnone
    rw [if_neg hnone]
    exact he

theorem checked_host (p : HttpProcessor) (he : Checked.getHost p = some r) :
    p.getHost = some r := by
  obtain ⟨p', hp, he⟩ := Option.bind_eq_some_iff.mp he
  simp only [getHost, checked_with_host p hp, Option.bind_eq_bind, Option.bind_some]
  cases hhost : p'.host with
  | none =>
    rw [hhost] at he
    exact he
  | some idx =>
    rw [hhost] at he
    obtain ⟨s, hs, rfl⟩ := Option.map_eq_some_iff.mp he
    exact congrArg (fun s => some (s, p')) (string_at_some hs).2

theorem checked_port (p : HttpProcessor) (he : Checked.getPort p = some r) :
    p.getPort = some r := by
  obtain ⟨p', hp, he⟩ := Option.bind_eq_some_iff.mp he
  simp only [getPort, checked_with_host p hp, Option.bind_eq_bind, Option.bind_some]
  match hport : p'.port with
  | none =>
    rw [hport] at he
    exact he
  | some 0 =>
    rw [hport] at he
    exact he
  | some (idx + 1) =>
    rw [hport] at he
    obtain ⟨s, hs, rfl⟩ := Option.map_eq_some_iff.mp he
    exact congrArg (fun s => some (s, p')) (string_at_some hs).2

end HttpProcessor

end Khorost
