import Khorost.Proofs.Grounded

namespace Khorost

/-- A host as it is written: a name or the four numbers of an address, without a
colon, or the address of the other kind in brackets. -/
inductive Host
  | name (text : List UInt8) (clear : ∀ c ∈ text, c ≠ colon ∧ c ≠ nul)
  | address (a b c d : List UInt8) (decimal : ∀ part ∈ [a, b, c, d], ∃ n < 256, Decimal part n)
  | literal (text : List UInt8) (clear : nul ∉ text) (colons : 2 ≤ text.count colon)

namespace Host

def text : Host → List UInt8
  | name text _ => text
  | address a b c d _ => a ++ ascii "." ++ b ++ ascii "." ++ c ++ ascii "." ++ d
  | literal text _ _ => ascii "[" ++ text ++ ascii "]"

def IsLiteral : Host → Prop
  | literal .. => True
  | _ => False

end Host

/-- A host, and a port if there is one. -/
structure Authority where
  host : Host
  port : Option (List UInt8)
  digits : ∀ p ∈ port, ∀ c ∈ p, isDigit c = true

/-- The two accessors. -/
inductive HostCall
  | getHost
  | getPort

/-- What a call returns of a host and a port; the empty text is for no port. -/
def HostCall.answer (host : List UInt8) (port : Option (List UInt8)) : HostCall → List UInt8
  | .getHost => host
  | .getPort => port.getD []

namespace Authority

def text (a : Authority) : List UInt8 :=
  a.host.text ++ a.port.elim [] fun p => colon :: p

def answer (a : Authority) (call : HostCall) : List UInt8 := call.answer a.host.text a.port

end Authority

namespace HttpProcessor

def ask (p : HttpProcessor) : HostCall → Option (List UInt8 × HttpProcessor)
  | .getHost => Checked.getHost p
  | .getPort => Checked.getPort p

/-- What one call after the other returns. `none` is a read outside of the header
buffer. -/
def answers : HttpProcessor → List HostCall → Option (List (List UInt8))
  | _, [] => some []
  | p, call :: calls => do
    let (text, p) ← p.ask call
    (answers p calls).map (text :: ·)

end HttpProcessor

/-- A ready request whose `Host` header is an authority, which stands in the filled part. -/
structure HostRequest where
  header : HttpHeader
  reached : header.Reached
  ready : header.isReady = true
  authority : Authority
  value : HttpHeader.Checked.getHeaderParameter header (ascii "Host") none =
    some (some authority.text)

/-- Every call returns what it is to return, in every order of calls. -/
def HostRequest.Answers (r : HostRequest) : Prop :=
  ∀ calls, (HttpProcessor.ofRequest r.header).answers calls = some (calls.map r.authority.answer)

theorem string_at_str {b : AutoBuffer UInt8} (h : StrAt b.content position s) :
    b.stringAt position = some s := by
  have htext : TextAt b.content position := by
    obtain ⟨before, after, hsplit, rfl, -⟩ := h
    rw [TextAt, hsplit, List.append_assoc, List.drop_left]
    exact List.mem_append_right _ List.mem_cons_self
  rw [string_at_text htext, b.buffer_split, h.read]

theorem TextAt.str (h : TextAt content position) :
    StrAt content position (cStr (content.drop position)) := by
  obtain ⟨x, rest, hsplit⟩ := List.append_of_mem h
  obtain ⟨after, hafter⟩ := c_str_split x rest
  have hstr : cStr (x ++ nul :: rest) = cStr x := by
    rw [hafter, c_str_terminated (c_str_clear x)]
  refine ⟨content.take position, after, ?_, List.length_take_of_le h.le, c_str_clear _⟩
  rw [hsplit, hstr, List.append_assoc, ← hafter, ← hsplit, List.take_append_drop]

theorem host_end_clear (hs : ∀ c ∈ s, c ≠ colon ∧ c ≠ nul) (hc : c = colon ∨ c = nul)
    (rest : List UInt8) : hostEnd (s ++ c :: rest) = some (s.length, decide (c = colon)) := by
  induction s with
  | nil =>
    rcases hc with rfl | rfl <;> rfl
  | cons x s ih =>
    obtain ⟨hcolon, hnul⟩ := hs x List.mem_cons_self
    rw [List.cons_append, hostEnd, if_neg hnul, if_neg hcolon,
      ih fun c hc => hs c (List.mem_cons_of_mem _ hc)]
    rfl

namespace HttpProcessor

variable {p : HttpProcessor} {s : List UInt8} {q : Option (List UInt8)}

/-- The text `s` is remembered as the host and `q` as the port. -/
structure SplitInto (p : HttpProcessor) (s : List UInt8) (q : Option (List UInt8)) : Prop where
  hostAt : ∃ idx, p.host = some idx ∧ StrAt p.header.abHeader.content idx s
  noPort : q = none → p.port = some 0
  portAt : ∀ text ∈ q, ∃ idx, p.port = some (idx + 1) ∧
    StrAt p.header.abHeader.content (idx + 1) text

theorem SplitInto.asked (h : SplitInto p s q) (call : HostCall) :
    p.ask call = some (call.answer s q, p) := by
  obtain ⟨idx, hhost, hs⟩ := h.hostAt
  have hwith : Checked.withHost p = some p := by
    rw [Checked.withHost, hhost]
    rfl
  cases call with
  | getHost =>
    simp only [ask, Checked.getHost, hwith, hhost, Option.bind_eq_bind, Option.bind_some,
      string_at_str hs, Option.map_some, HostCall.answer]
  | getPort =>
    cases q with
    | none =>
      simp only [ask, Checked.getPort, hwith, h.noPort rfl, Option.bind_eq_bind, Option.bind_some,
        HostCall.answer, Option.getD_none]
    | some text =>
      obtain ⟨idx, hport, hq⟩ := h.portAt text rfl
      simp only [ask, Checked.getPort, hwith, hport, Option.bind_eq_bind, Option.bind_some,
        string_at_str hq, Option.map_some, HostCall.answer, Option.getD_some]

theorem SplitInto.all_asked (h : SplitInto p s q) (calls : List HostCall) :
    p.answers calls = some (calls.map (HostCall.answer s q)) := by
  induction calls with
  | nil => rfl
  | cons call calls ih =>
    rw [answers, h.asked call]
    simp only [Option.bind_eq_bind, Option.bind_some, ih, Option.map_some, List.map_cons]

theorem split_at_end {h : HttpHeader} (hs : ∀ c ∈ s, c ≠ colon ∧ c ≠ nul)
    (hfound : h.abHeader.findName (ascii "Host") h.headerValues = some (some v))
    (hsplit : h.abHeader.content = front ++ s ++ nul :: back) (hlen : front.length = v.2) :
    ∃ p, Checked.withHost (ofRequest h) = some p ∧ SplitInto p s none := by
  have hend : hostEnd (h.abHeader.content.drop v.2) = some (s.length, false) := by
    rw [hsplit, ← hlen, List.append_assoc, List.drop_left]
    exact host_end_clear hs (.inr rfl) back
  refine ⟨{ ofRequest h with host := some v.2, port := some 0 }, ?_, ⟨⟨v.2, rfl, ?_⟩, fun _ => rfl,
    by simp⟩⟩
  · simp [Checked.withHost, ofRequest, Checked.calculateHostPort, hfound, hend]
  · exact ⟨front, back, hsplit, hlen, fun hn => (hs nul hn).2 rfl⟩

theorem split_at_colon {h : HttpHeader} (hs : ∀ c ∈ s, c ≠ colon ∧ c ≠ nul) (htext : nul ∉ text)
    (hfound : h.abHeader.findName (ascii "Host") h.headerValues = some (some v))
    (hsplit : h.abHeader.content = front ++ s ++ colon :: (text ++ nul :: back))
    (hlen : front.length = v.2) :
    ∃ p, Checked.withHost (ofRequest h) = some p ∧ SplitInto p s (some text) := by
  have hend : hostEnd (h.abHeader.content.drop v.2) = some (s.length, true) := by
    rw [hsplit, ← hlen, List.append_assoc, List.drop_left]
    exact host_end_clear hs (.inl rfl) _
  have hset : (h.abHeader.set (v.2 + s.length) nul).content =
      front ++ s ++ nul :: (text ++ nul :: back) := by
    rw [AutoBuffer.content_set, hsplit, ← hlen, ← List.length_append, List.set_append_right _ _
      (Nat.le_refl _), Nat.sub_self]
    rfl
  refine ⟨{ ofRequest h with
      header := { h with abHeader := h.abHeader.set (v.2 + s.length) nul }
      host := some v.2
      port := some (v.2 + s.length + 1) }, ?_, ⟨⟨v.2, rfl, ?_⟩, by simp, ?_⟩⟩
  · simp [Checked.withHost, ofRequest, Checked.calculateHostPort, hfound, hend]
  · exact ⟨front, text ++ nul :: back, hset, hlen, fun hn => (hs nul hn).2 rfl⟩
  · intro port hport
    cases hport
    refine ⟨v.2 + s.length, rfl, front ++ s ++ [nul], back, ?_, ?_, htext⟩
    · rw [hset]
      simp
    · simp only [List.length_append, List.length_singleton, hlen]

/-- The first call splits the header at its first colon. -/
theorem first_split {h : HttpHeader}
    (hvalue : HttpHeader.Checked.getHeaderParameter h (ascii "Host") none =
      some (some (s ++ q.elim [] fun p => colon :: p)))
    (hs : ∀ c ∈ s, c ≠ colon ∧ c ≠ nul) (hq : ∀ text ∈ q, nul ∉ text) :
    ∃ p, Checked.withHost (ofRequest h) = some p ∧ SplitInto p s q := by
  obtain ⟨found, hfound, hvalue⟩ := Option.bind_eq_some_iff.mp hvalue
  obtain ⟨v, rfl⟩ : ∃ v, found = some v := by
    cases found with
    | none => cases hvalue
    | some v => exact ⟨v, rfl⟩
  obtain ⟨text, htext, hsame⟩ := Option.map_eq_some_iff.mp hvalue
  obtain rfl := Option.some.inj hsame
  -- where the header stands in the buffer
  obtain ⟨hat, -⟩ := string_at_some htext
  have hstr := hat.str
  rw [← Option.some.inj (htext.symm.trans (string_at_str hstr))] at hstr
  obtain ⟨front, back, hsplit, hlen, -⟩ := hstr
  cases q with
  | none =>
    rw [Option.elim_none, List.append_nil] at hsplit
    exact split_at_end hs hfound hsplit hlen
  | some text =>
    exact split_at_colon hs (hq text rfl) hfound (by simpa using hsplit) hlen

theorem answers_split {h : HttpHeader}
    (hvalue : HttpHeader.Checked.getHeaderParameter h (ascii "Host") none =
      some (some (s ++ q.elim [] fun p => colon :: p)))
    (hs : ∀ c ∈ s, c ≠ colon ∧ c ≠ nul) (hq : ∀ text ∈ q, nul ∉ text) (calls : List HostCall) :
    (ofRequest h).answers calls = some (calls.map (HostCall.answer s q)) := by
  obtain ⟨p, hwith, hsplit⟩ := first_split hvalue hs hq
  cases calls with
  | nil => rfl
  | cons call calls =>
    -- the first call is as if it were the second one
    have hagain : Checked.withHost p = some p := by
      obtain ⟨idx, hhost, -⟩ := hsplit.hostAt
      rw [Checked.withHost, hhost]
      rfl
    have hfirst : (ofRequest h).ask call = p.ask call := by
      cases call with
      | getHost => rw [ask, ask, Checked.getHost, Checked.getHost, hwith, hagain]
      | getPort => rw [ask, ask, Checked.getPort, Checked.getPort, hwith, hagain]
    rw [answers, hfirst]
    exact hsplit.all_asked (call :: calls)

end HttpProcessor

theorem digit_clear (h : isDigit c = true) : c ≠ colon ∧ c ≠ nul := by
  constructor <;> rintro rfl <;> exact absurd h (by decide)

namespace Host

theorem text_clear (host : Host) (h : ¬ host.IsLiteral) : ∀ c ∈ host.text, c ≠ colon ∧ c ≠ nul := by
  cases host with
  | name text clear => exact clear
  | address a b c d decimal =>
    have hpart : ∀ part ∈ [a, b, c, d], ∀ x ∈ part, x ≠ colon ∧ x ≠ nul := by
      intro part hpart x hx
      obtain ⟨n, -, hn⟩ := decimal part hpart
      exact digit_clear (hn.digits x hx)
    have hdot : ∀ x ∈ ascii ".", x ≠ colon ∧ x ≠ nul := by decide +kernel
    intro x hx
    simp only [text, List.mem_append] at hx
    rcases hx with (((((hx | hx) | hx) | hx) | hx) | hx) | hx
    · exact hpart a (by simp) x hx
    · exact hdot x hx
    · exact hpart b (by simp) x hx
    · exact hdot x hx
    · exact hpart c (by simp) x hx
    · exact hdot x hx
    · exact hpart d (by simp) x hx
  | literal text clear colons => exact absurd trivial h

theorem literal_splits (host : Host) (h : host.IsLiteral) :
    ∃ s rest, host.text = s ++ colon :: rest ∧ (∀ c ∈ s, c ≠ colon ∧ c ≠ nul) ∧ nul ∉ rest := by
  cases host with
  | name | address => exact h.elim
  | literal text clear colons =>
    have hmem : colon ∈ ascii "[" ++ text ++ ascii "]" :=
      List.mem_append_left _ (List.mem_append_right _ (List.count_pos_iff.mp (by omega)))
    have hnul : nul ∉ ascii "[" ++ text ++ ascii "]" := by
      simp only [List.mem_append, not_or]
      exact ⟨⟨by decide, clear⟩, by decide⟩
    obtain ⟨s, rest, hsplit, hs⟩ := List.eq_append_cons_of_mem hmem
    rw [hsplit, List.mem_append, List.mem_cons, not_or, not_or] at hnul
    exact ⟨s, rest, hsplit, fun c hc => ⟨fun he => hs (he ▸ hc), fun he => hnul.1 (he ▸ hc)⟩,
      hnul.2.2⟩

end Host

/-- The two accessors are right for every host but a literal in brackets. -/
theorem host_port_iff (r : HostRequest) : r.Answers ↔ ¬ r.authority.host.IsLiteral := by
  have hvalue := r.value
  constructor
  · intro ha hliteral
    obtain ⟨s, rest, htext, hs, hrest⟩ := r.authority.host.literal_splits hliteral
    have hport : ∀ p ∈ r.authority.port, nul ∉ p := fun p hp hn =>
      (digit_clear (r.authority.digits p hp nul hn)).2 rfl
    obtain ⟨tail, htail, htnul⟩ : ∃ tail, r.authority.text = s ++ colon :: tail ∧ nul ∉ tail := by
      refine ⟨rest ++ r.authority.port.elim [] fun p => colon :: p, by simp [Authority.text, htext],
        ?_⟩
      cases hp : r.authority.port with
      | none => simpa using hrest
      | some p =>
        rw [Option.elim_some, List.mem_append, List.mem_cons, not_or, not_or]
        exact ⟨hrest, by decide, hport p hp⟩
    rw [htail] at hvalue
    have hsplit := HttpProcessor.answers_split (q := some tail) hvalue hs
      (by simpa using htnul) [.getHost]
    rw [ha [.getHost]] at hsplit
    have hhost : r.authority.host.text = s := by
      simpa [Authority.answer, HostCall.answer] using hsplit
    have hlen := congrArg List.length (htext.symm.trans hhost)
    simp at hlen
  · intro hplain calls
    exact HttpProcessor.answers_split hvalue (r.authority.host.text_clear hplain)
      (fun p hp hn => (digit_clear (r.authority.digits p hp nul hn)).2 rfl) calls

def loopbackRequest : HostRequest where
  header := .parsed (ascii "GET / HTTP/1.1\r\nHost: [::1]:80\r\n\r\n")
  reached := (HttpHeader.parsed_forward _).reached
  ready := by decide +kernel
  authority :=
    ⟨.literal (ascii "::1") (by decide) (by decide), some (ascii "80"), by decide +kernel⟩
  value := by decide +kernel

/-- Its host is taken to be an opening bracket. -/
theorem loopback_host_cut : ¬ ∀ r : HostRequest, r.Answers := by
  intro h
  have hanswers := h loopbackRequest [.getHost]
  have hcut : (HttpProcessor.ofRequest loopbackRequest.header).answers [.getHost] =
      some [ascii "["] := by
    decide +kernel
  rw [hcut] at hanswers
  exact absurd hanswers (by decide)

end Khorost
