import Khorost.Proofs.Parts

namespace Khorost.HttpHeader

open Scan

variable {h : HttpHeader} {v : View} {key value : ChunkFound}

theorem cookies_append (xs ys : List (List UInt8 × List UInt8)) :
    cookiesOf (xs ++ ys) = cookiesOf xs ++ cookiesOf ys := by
  simp [cookiesOf]

/-- A field and its cookies are added behind those that are shown already. -/
theorem shows_add (hs : Shows h v) (hf : ShowsField h.abHeader.content p f)
    (hc : List.Forall₂ (ShowsPair h.abHeader.content) pairs (cookiesOf [f])) (n : Nat) :
    Shows { h with
      headerValues := h.headerValues ++ [p]
      cookies := h.cookies ++ pairs
      contentLength := n } { v with fields := v.fields ++ [f], contentLength := n } :=
  { hs with
    fields := List.rel_append hs.fields (.cons hf .nil)
    cookies := by
      rw [cookies_append]
      exact List.rel_append hs.cookies hc
    contentLength := rfl }

theorem content_of_buffer (b : AutoBuffer UInt8) (hb : b.buffer = content ++ stale)
    (hr : b.readyPosition = content.length) : b.content = content := by
  rw [AutoBuffer.content, hb, hr, List.take_left]

/-- The value of a `Cookie` is split where it stands in the header buffer, up to
its terminator. -/
theorem cookie_value (hv : Found value target gap text rest stale) (cookies : ListPairs) :
    ∃ b pairs, parseString value.target value.chunkSize value.reference cookies semicolon true =
        some (b, cookies ++ pairs) ∧
      target.content <+: b.content ∧
      StrAt b.content value.reference (cStr (splitText semicolon true (cStr text) [] 0 none).1) ∧
      List.Forall₂ (ShowsPair b.content) pairs (pairsOf semicolon true (cStr text)) := by
  obtain ⟨after, ha⟩ := c_str_split text []
  have hcontent : value.target.content = (target.content ++ gap) ++ cStr text ++ nul :: after := by
    rw [hv.content, List.append_assoc _ text, ha, ← List.append_assoc]
  have hbuffer : value.target.buffer =
      (target.content ++ gap) ++ cStr text ++ nul :: (after ++ value.target.stale) := by
    rw [value.target.buffer_split, hcontent]
    simp
  have hready : value.target.readyPosition =
      (target.content ++ gap ++ cStr text ++ nul :: after).length := by
    rw [← hcontent, AutoBuffer.content_length]
    rfl
  have hsize : (cStr text).length < value.chunkSize := by
    have hle := (List.takeWhile_sublist (fun b : UInt8 => decide (b ≠ nul)) (l := text)).length_le
    rw [hv.size]
    exact Nat.lt_succ_of_le (hle.trans (Nat.le_add_left _ _))
  obtain ⟨b, pairs, he, hb, hr, hp⟩ := parse_string_text semicolon true value.target
    (target.content ++ gap) (cStr text) _ hbuffer (c_str_clear text) value.chunkSize hsize cookies
  have hlen := split_text_length semicolon true (cStr text) [] 0 none
  have hsplit : b.content = target.content ++ gap ++
      (splitText semicolon true (cStr text) [] 0 none).1 ++ nul :: after := by
    have hb : b.buffer = (target.content ++ gap ++
        (splitText semicolon true (cStr text) [] 0 none).1 ++ nul :: after) ++
          value.target.stale := by
      rw [hb]
      simp
    apply content_of_buffer b hb
    rw [hr, hready]
    simp only [List.length_append, hlen, List.length_nil, Nat.zero_add, List.length_cons]
  refine ⟨b, pairs, ?_, ?_, ?_, ?_⟩
  · rw [hv.reference]
    exact he
  · rw [hsplit, List.append_assoc, List.append_assoc]
    exact List.prefix_append _ _
  · have h : StrAt _ value.reference _ := StrAt.of_text
      (target.content ++ gap ++ (splitText semicolon true (cStr text) [] 0 none).1) after
      (by rw [hv.reference]; simp)
    rw [hv.reference, List.drop_left, ← hv.reference] at h
    rwa [hsplit]
  · rw [hsplit]
    exact hp after

/-- What a whole header line adds to the view: both parts up to a NUL in them. -/
theorem add_header_shows (hs : Shows h v) (hk : Found key h.abHeader gap₁ name rest₁ stale₁)
    (hv : Found value key.target gap₂ text rest₂ stale₂) :
    ∃ h', addHeader { h with abHeader := value.target } key.reference value.reference
        value.chunkSize = some h' ∧ Shows h' (v.addField (cStr name, cStr text)) := by
  have hname_at := hk.str_there
  have htext_at := hv.str_there
  have hname_value : StrAt value.target.content key.reference (cStr name) := by
    obtain ⟨more, hmore⟩ := hv.extends
    rw [← hmore]
    exact hname_at.extend more
  have hkey : cStr (value.target.buffer.drop key.reference) = cStr name := str_read _ hname_value
  have hval : cStr (value.target.buffer.drop value.reference) = cStr text := str_read _ htext_at
  -- a field that is not a cookie is stored as it is
  have plain : cStr name ≠ ascii "Cookie" → ∀ n, Shows { h with
      abHeader := value.target
      headerValues := h.headerValues ++ [(key.reference, value.reference)]
      contentLength := n } { v with
      fields := v.fields ++ [(cStr name, cStr text)]
      contentLength := n } := by
    intro hc n
    have hfield : ShowsField value.target.content (key.reference, value.reference)
        (cStr name, cStr text) :=
      ⟨hname_value, by rw [shownValue, if_neg hc]; exact htext_at⟩
    have hnone : List.Forall₂ (ShowsPair value.target.content) []
        (cookiesOf [(cStr name, cStr text)]) := by
      simp [cookiesOf, hc]
    simpa using shows_add (hs.grow value.target (hk.extends.trans hv.extends)) hfield hnone n
  rw [addHeader]
  simp only [headerText, hkey, hval]
  by_cases hcl : h.contentLength = npos ∧ cStr name = ascii "Content-Length"
  · refine ⟨_, if_pos hcl, ?_⟩
    have hc : cStr name ≠ ascii "Cookie" := by
      rw [hcl.2]
      decide
    rw [hs.contentLength] at hcl
    rw [View.addField, if_pos hcl]
    exact plain hc _
  · rw [if_neg hcl]
    have hcl' : ¬ (v.contentLength = npos ∧ (cStr name, cStr text).1 = ascii "Content-Length") := by
      rwa [← hs.contentLength]
    rw [View.addField, if_neg hcl', ← hs.contentLength]
    by_cases hc : cStr name = ascii "Cookie"
    · obtain ⟨b, pairs, he, hgrow, hstr, hpairs⟩ := cookie_value hv h.cookies
      rw [if_pos hc, he]
      refine ⟨_, rfl, ?_⟩
      have hfield : ShowsField b.content (key.reference, value.reference)
          (cStr name, cStr text) := by
        obtain ⟨more, hmore⟩ := hgrow
        refine ⟨?_, by rw [shownValue, if_pos hc]; exact hstr⟩
        rw [← hmore]
        exact hname_at.extend more
      exact shows_add (hs.grow b (hk.extends.trans hgrow)) hfield
        (by simpa [cookiesOf, hc] using hpairs) h.contentLength
    · exact ⟨_, if_neg hc, plain hc _⟩

/-- With fewer than two bytes at the pointer the loop waits. -/
theorem loop_short (h : HttpHeader) (hp : p.length < 2) (stale : List UInt8) (n u fuel : Nat) :
    headerLoop (fuel + 1) h (localsAt p stale n u) = some (h, localsAt p stale n u) := by
  rw [headerLoop, if_neg]
  exact Nat.not_le.mpr hp

theorem loop_blank (hs : Shows h v) (rest stale : List UInt8) (n u fuel : Nat) :
    ∃ h', headerLoop (fuel + 1) h (localsAt (cr :: lf :: rest) stale n u) =
        some (h', localsAt rest stale (n + 2) u) ∧
      Shows h' { v with headerProcess := .successful, bodyProcess := .processingFirst } := by
  refine ⟨{ h with headerProcess := .successful, bodyProcess := .processingFirst }, ?_,
    { hs with headerProcess := rfl, bodyProcess := rfl }⟩
  rw [headerLoop, localsAt, if_pos (by simp)]
  rfl

theorem not_blank (hc : p.head? ≠ some cr) : ¬ [cr, lf] <+: p := by
  rintro ⟨rest, rfl⟩
  exact hc rfl

/-- Where the blank line does not stand, a header line is read. -/
theorem loop_line (h : HttpHeader) (hp : 2 ≤ p.length) (hc : ¬ [cr, lf] <+: p)
    (stale : List UInt8) (n u fuel : Nat) :
    headerLoop (fuel + 1) h (localsAt p stale n u) =
      (headerLine h (localsAt p stale n u)).bind (fun (h, l, whole) =>
        if whole then headerLoop fuel h l else some (h, l)) := by
  match p, hp, hc with
  | c :: d :: p, hp, hc =>
    have hblank : blankLine (c :: d :: p ++ stale) = some false := by
      by_cases hcr : c = cr
      · have hlf : d ≠ lf := by
          rintro rfl
          exact hc ⟨p, by rw [hcr]; rfl⟩
        simp [blankLine, hcr, hlf]
      · exact if_neg hcr
    have hp : 2 ≤ (localsAt (c :: d :: p) stale n u).cursor.bufferSize := hp
    rw [headerLoop, if_pos hp]
    simp only [localsAt, hblank, Option.bind_eq_bind, Option.bind_some, Bool.false_eq_true, if_false]

theorem open_no_colon (ho : Open space [colon] p) : colon ∉ p := by
  obtain ⟨gap, token, rfl, hgap, -, htoken⟩ := ho
  intro hc
  rcases List.mem_append.mp hc with hc | hc
  · exact absurd (hgap colon hc) (by decide)
  · exact htoken colon hc (by simp)

theorem loop_key_open (hs : Shows h v) (hp : 2 ≤ p.length) (hc : ¬ [cr, lf] <+: p)
    (ho : Open space [colon] p) (stale : List UInt8) (n fuel : Nat)
    (hu : h.abHeader.StaysForward p u) :
    ∃ h' l, headerLoop (fuel + 1) h (localsAt p stale n u) = some (h', l) ∧
      l.processByte = n ∧ Shows h' v := by
  refine ⟨{ h with abHeader := h.abHeader.decrementFreeSize u }, localsAt p stale n u, ?_, rfl,
    hs.decrement h.abHeader (hu hp hc (open_no_colon ho)) List.prefix_rfl⟩
  rw [loop_line h hp hc, headerLine, localsAt, get_chunk_open ho]
  rfl

theorem loop_value_open (hs : Shows h v) (hp : 2 ≤ p.length) (hc : ¬ [cr, lf] <+: p)
    (hk : Lexeme space [colon] p gap name stop rest) (ho : Open space [cr, lf] rest)
    (stale : List UInt8) (n u fuel : Nat) :
    ∃ h' l, headerLoop (fuel + 1) h (localsAt p stale n u) = some (h', l) ∧
      l.processByte = n ∧ Shows h' v := by
  obtain ⟨key, hkey, hf⟩ := get_chunk_found hk stale h.abHeader
  refine ⟨{ h with abHeader := key.target.decrementFreeSize key.chunkSize },
    ⟨key.cursor, n, key.chunkSize⟩, ?_, rfl,
    hs.decrement key.target (get_chunk_forward hkey) hf.extends⟩
  rw [loop_line h hp hc, headerLine, localsAt, hkey]
  simp only [Option.bind_eq_bind, Option.bind_some, hf.cursor, get_chunk_open ho,
    Bool.false_eq_true, if_false]

/-- A whole header line is added and the loop goes on behind it. -/
theorem loop_field (hs : Shows h v) (hp : 2 ≤ p.length) (hc : ¬ [cr, lf] <+: p)
    (hk : Lexeme space [colon] p gap₁ name stop₁ rest₁)
    (hv : Lexeme space [cr, lf] rest₁ gap₂ text stop₂ rest₂) (stale : List UInt8)
    (hskip : skipLineEnd ⟨rest₂ ++ stale, rest₂.length⟩ (gap₁.length + name.length + 1) =
      some (⟨left ++ stale, left.length⟩, size)) (n u fuel : Nat) :
    ∃ h', headerLoop (fuel + 1) h (localsAt p stale n u) =
        headerLoop fuel h' (localsAt left stale (n + (size + (gap₂.length + text.length + 1))) size) ∧
      Shows h' (v.addField (cStr name, cStr text)) ∧ h'.abHeader.NoWrap size := by
  obtain ⟨key, hkey, hf⟩ := get_chunk_found hk stale h.abHeader
  obtain ⟨value, hvalue, hg⟩ := get_chunk_found hv stale key.target
  obtain ⟨h', hadd, hs'⟩ := add_header_shows hs hf hg
  have hline : headerLine h (localsAt p stale n u) =
      some (h', localsAt left stale (n + (size + (gap₂.length + text.length + 1))) size, true) := by
    rw [hg.size] at hadd
    rw [headerLine, localsAt, hkey]
    simp only [Option.bind_eq_bind, Option.bind_some, hf.cursor, hvalue, hg.cursor, hf.size, hskip,
      hg.size, hadd, localsAt]
  refine ⟨h', ?_, hs', header_line_forward hline⟩
  rw [loop_line h hp hc, hline]
  rfl

end Khorost.HttpHeader
