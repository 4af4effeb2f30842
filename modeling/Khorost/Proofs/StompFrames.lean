import Khorost.Net.Stomp

namespace Khorost

/-- The end of a line. -/
inductive LineEnd
  | lf
  | crlf

def LineEnd.text : LineEnd → List UInt8
  | .lf => [Khorost.lf]
  | .crlf => [cr, Khorost.lf]

/-- A key and a value that a header line can hold. -/
structure IsHeader (header : List UInt8 × List UInt8) : Prop where
  nonempty : header.1 ≠ []
  colon : colon ∉ header.1
  key : cr ∉ header.1 ∧ lf ∉ header.1
  value : cr ∉ header.2 ∧ lf ∉ header.2

/-- A frame that can be written. -/
structure StompFrame where
  command : List UInt8
  headers : List (List UInt8 × List UInt8)
  body : List UInt8
  nonempty : command ≠ []
  line : cr ∉ command ∧ lf ∉ command
  sound : ∀ header ∈ headers, IsHeader header
  distinct : (headers.map Prod.fst).Nodup

namespace StompFrame

def lines (frame : StompFrame) (e : LineEnd) : List UInt8 :=
  frame.headers.flatMap fun header => header.1 ++ colon :: header.2 ++ e.text

def text (frame : StompFrame) (e : LineEnd) : List UInt8 :=
  frame.command ++ e.text ++ frame.lines e ++ e.text ++ frame.body

def header (frame : StompFrame) (key : List UInt8) : Option (List UInt8) :=
  (frame.headers.find? fun header => header.1 = key).map Prod.snd

def stored (frame : StompFrame) : Stomp := ⟨frame.command, frame.header, frame.body⟩

end StompFrame

namespace Stomp

/-- The first character behind the command is taken for the blank line. -/
theorem parse_from_start (h : message[startPos]? = some c) (s : Stomp) :
    parseFrom message startPos s =
      match substrFrom message (startPos + if c = cr then 2 else 1) with
      | some body => .ok true { s with body := body }
      | none => .error .outOfRange s := by
  have htest : c ≠ lf ∨ c ≠ cr := by
    by_cases hc : c = lf
    · exact .inr (by rw [hc]; decide)
    · exact .inl hc
  unfold parseFrom
  split
  · next hnone =>
    rw [hnone] at h
    cases h
  · next d hd =>
    obtain rfl : d = c := Option.some.inj (hd.symm.trans h)
    exact if_pos htest

theorem line_end_text {text : List UInt8} (hne : text ≠ []) (hcr : cr ∉ text) (hlf : lf ∉ text)
    (e : LineEnd) (rest : List UInt8) :
    ∃ pos, findFirstOf (text ++ e.text ++ rest) lf 0 = some pos ∧
      pos + 1 = (text ++ e.text).length ∧
      lineEnd (text ++ e.text ++ rest) pos = some text.length := by
  have hlen : text.length ≠ 0 := List.length_eq_zero_iff.not.mpr hne
  cases e with
  | lf =>
    have hfind := find_first_behind hlf [] rest
    refine ⟨text.length, by simpa [LineEnd.text] using hfind, by simp [LineEnd.text], ?_⟩
    have hlast : (text ++ LineEnd.lf.text ++ rest)[text.length - 1]? ≠ some cr := by
      rw [List.append_assoc, List.getElem?_append_left (by omega)]
      intro h
      exact hcr (List.mem_of_getElem? h)
    rw [lineEnd, if_neg hlen, if_neg hlast]
  | crlf =>
    have hclear : lf ∉ text ++ [cr] := by
      rw [List.mem_append, List.mem_singleton]
      exact fun h => h.elim hlf (by decide)
    have hfind := find_first_behind hclear [] rest
    refine ⟨text.length + 1, by simpa [LineEnd.text] using hfind, by simp [LineEnd.text], ?_⟩
    have hlast : (text ++ LineEnd.crlf.text ++ rest)[text.length + 1 - 1]? = some cr := by
      simp [LineEnd.text]
    rw [lineEnd, if_neg (by omega), if_pos hlast, Nat.add_sub_cancel]

theorem parse_command (frame : StompFrame) (e : LineEnd) (s : Stomp) :
    parse (frame.text e) s =
      parseFrom (frame.text e) (frame.command ++ e.text).length
        { s with command := frame.command } := by
  have htext : frame.text e =
      frame.command ++ e.text ++ (frame.lines e ++ e.text ++ frame.body) := by
    simp [StompFrame.text]
  obtain ⟨pos, hfind, hpos, hend⟩ := line_end_text frame.nonempty frame.line.1 frame.line.2 e
    (frame.lines e ++ e.text ++ frame.body)
  rw [htext, parse, hfind]
  dsimp only
  rw [hend]
  dsimp only
  rw [hpos, List.append_assoc, substr_head]

/-- What stands behind the command line, without its first character, becomes the body. -/
theorem parse_other {frame : StompFrame} (hc : c ≠ cr)
    (h : frame.lines e ++ e.text ++ frame.body = c :: rest) (s : Stomp) :
    parse (frame.text e) s = .ok true ⟨frame.command, s.headers, rest⟩ := by
  have htext : frame.text e = (frame.command ++ e.text) ++ c :: rest := by
    rw [← h]
    simp [StompFrame.text]
  have hbehind : substrFrom (frame.command ++ e.text ++ c :: rest)
      ((frame.command ++ e.text).length + 1) = some rest := by
    have hsplit := substr_from_behind (frame.command ++ e.text ++ [c]) rest
    rw [List.append_assoc, List.singleton_append, List.length_append] at hsplit
    exact hsplit
  rw [parse_command, htext, parse_from_start (c := c) (by simp), if_neg hc, hbehind]

/-- Without headers the blank line is where it is looked for. -/
theorem parse_headerless {frame : StompFrame} (h : frame.headers = []) (e : LineEnd)
    (s : Stomp) :
    parse (frame.text e) s = .ok true ⟨frame.command, s.headers, frame.body⟩ := by
  have hlines : frame.lines e = [] := by rw [StompFrame.lines, h, List.flatMap_nil]
  cases e with
  | lf => exact parse_other (c := lf) (by decide) (by rw [hlines]; rfl) s
  | crlf =>
    have htext : frame.text .crlf =
        (frame.command ++ LineEnd.crlf.text) ++ cr :: lf :: frame.body := by
      simp [StompFrame.text, hlines, LineEnd.text]
    have hbehind : substrFrom (frame.command ++ LineEnd.crlf.text ++ cr :: lf :: frame.body)
        ((frame.command ++ LineEnd.crlf.text).length + 2) = some frame.body := by
      have hsplit := substr_from_behind (frame.command ++ LineEnd.crlf.text ++ [cr, lf]) frame.body
      rw [List.append_assoc, List.length_append] at hsplit
      exact hsplit
    rw [parse_command, htext, parse_from_start (c := cr) (by simp), if_pos rfl, hbehind]

theorem parse_headers {frame : StompFrame} (h : frame.headers ≠ []) (e : LineEnd) (s : Stomp) :
    ∃ body, parse (frame.text e) s = .ok true ⟨frame.command, s.headers, body⟩ ∧
      frame.body.length < body.length := by
  obtain ⟨header, headers, hheaders⟩ := List.exists_cons_of_ne_nil h
  have hsound := frame.sound header (hheaders ▸ List.mem_cons_self ..)
  obtain ⟨c, key, hkey⟩ := List.exists_cons_of_ne_nil hsound.nonempty
  have hc : c ≠ cr := by
    rintro rfl
    exact hsound.key.1 (hkey ▸ List.mem_cons_self ..)
  have htext : frame.lines e ++ e.text ++ frame.body =
      c :: (key ++ colon :: header.2 ++ e.text ++
        (headers.flatMap fun header => header.1 ++ colon :: header.2 ++ e.text) ++ e.text ++
        frame.body) := by
    simp [StompFrame.lines, hheaders, hkey]
  refine ⟨_, parse_other hc htext s, ?_⟩
  simp
  omega

theorem parse_stores_headerless {frame : StompFrame}
    (h : parse (frame.text e) s = .ok true frame.stored) : frame.headers = [] := by
  by_contra hheaders
  obtain ⟨body, hparse, hlen⟩ := parse_headers hheaders e s
  rw [hparse] at h
  injection h with _ hs
  have hbody : body = frame.body := congrArg Stomp.body hs
  rw [hbody] at hlen
  exact Nat.lt_irrefl _ hlen

/-- A frame is stored as it is exactly if there is no header, neither in the
frame nor in the object. -/
theorem parse_stores_iff (frame : StompFrame) (e : LineEnd) (s : Stomp) :
    parse (frame.text e) s = .ok true frame.stored ↔
      frame.headers = [] ∧ s.headers = fun _ => none := by
  have hnone : frame.headers = [] → frame.header = fun _ => none := by
    intro h
    funext key
    rw [StompFrame.header, h]
    rfl
  constructor
  · intro h
    have hheaders := parse_stores_headerless h
    refine ⟨hheaders, ?_⟩
    rw [parse_headerless hheaders] at h
    injection h with _ hs
    rw [← hnone hheaders]
    exact congrArg Stomp.headers hs
  · rintro ⟨hheaders, hs⟩
    rw [parse_headerless hheaders, hs, StompFrame.stored, hnone hheaders]

def sendFrame : StompFrame where
  command := ascii "SEND"
  headers := [(ascii "a", ascii "b")]
  body := ascii "x"
  nonempty := by decide
  line := by decide
  sound header h := by
    obtain rfl := List.mem_singleton.mp h
    exact ⟨by decide, by decide, by decide, by decide⟩
  distinct := by decide

/-- The header line of the frame is taken for its body. -/
theorem header_in_body :
    ¬ ∀ (frame : StompFrame) (e : LineEnd),
      parse (frame.text e) new = .ok true frame.stored := by
  intro h
  have hheaders := parse_stores_headerless (h sendFrame .lf)
  cases hheaders

end Stomp

end Khorost
