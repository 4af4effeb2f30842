import Khorost.Lib.PercentCode
import Khorost.Net.CurlString
import Khorost.Proofs.Capacity
import Khorost.Proofs.ReplaceAll

namespace Khorost

open Blocks PercentCode Replacing RawBuffer

/-- `curl_easy_unescape` of up to `INT_MAX` bytes is the text that they encode. -/
structure Unescapes (unescape : List UInt8 → Int → Option (List UInt8)) : Prop where
  decodes : ∀ (memory : List UInt8) (n : Nat), 0 < n → n ≤ memory.length → n < 2 ^ 31 →
    unescape memory n = some (decode (memory.take n))

variable {realloc : Realloc UInt8} {unescape : List UInt8 → Int → Option (List UInt8)}
  {b b' : RawBuffer UInt8} {xs : List UInt8} {uri : Option (List UInt8)}

/-- The text that an argument stands for; a null pointer stands for the empty one. -/
def uriText (uri : Option (List UInt8)) : List UInt8 := cStr (uri.getD [])

/-- The unescaped bytes, with a plus read as a blank. -/
def unescaped (uri : Option (List UInt8)) : List UInt8 := decode (blanks (uriText uri))

theorem pluses_escaped (text : List UInt8) :
    replaceAll (ascii "+") (ascii "%20") text = escapeBlanks text := by
  induction text with
  | nil => rfl
  | cons c text ih =>
    by_cases hc : c = plus
    · subst hc
      have hhit := replace_all_hit (List.cons_ne_nil plus []) (ascii "%20") text
      rw [escape_blanks_plus, ← ih]
      exact hhit
    · have hmiss : ¬ ascii "+" <+: c :: text := by
        rintro ⟨rest, hrest⟩
        exact hc (List.cons.inj hrest).1.symm
      rw [replace_all_miss hmiss, ih, escape_blanks_other hc]

theorem escape_blanks_length (text : List UInt8) : text.length ≤ (escapeBlanks text).length :=
  pluses_escaped text ▸ replace_all_length_le (by decide) (by decide) text

/-- After the call the text stands in the buffer, with its terminator behind it, and
is what the buffer is filled with. -/
def Encodes (realloc : Realloc UInt8) (unescape : List UInt8 → Int → Option (List UInt8))
    (b : RawBuffer UInt8) (uri : Option (List UInt8)) : Prop :=
  ∃ b', getUriEncode realloc unescape b uri = some b' ∧ b'.content = unescaped uri ∧
    (unescaped uri).length < b'.fullSize ∧ unescaped uri ++ [nul] <+: b'.buffer

/-- `curl_easy_unescape` takes the text, and no terminator is inside of what it gives. -/
def PlainUri (uri : Option (List UInt8)) : Prop :=
  (escapeBlanks (uriText uri)).length < 2 ^ 31 ∧ nul ∉ unescaped uri

instance (uri : Option (List UInt8)) : Decidable (PlainUri uri) :=
  inferInstanceAs (Decidable (_ ∧ _))

/-- An empty argument finds the buffer not filled; what another one stands for is not
as long as the capacity is. -/
def HasRoom (b : RawBuffer UInt8) (uri : Option (List UInt8)) : Prop :=
  if uriText uri = [] then b.readyPosition = 0 else (unescaped uri).length ≠ b.fullSize

instance (b : RawBuffer UInt8) (uri : Option (List UInt8)) : Decidable (HasRoom b uri) :=
  inferInstanceAs (Decidable
    (if uriText uri = [] then b.readyPosition = 0 else (unescaped uri).length ≠ b.fullSize))

theorem encode_empty (h : uriText uri = []) :
    getUriEncode realloc unescape b uri = (b.checkSize realloc 1).memcpy 0 [nul] := by
  cases uri with
  | none => rfl
  | some memory =>
    have hnil : cStr memory = [] := h
    rw [getUriEncode, Option.map_some, hnil]

/-- The buffer of the call's own comes to hold the text with its pluses escaped. -/
theorem escape_holds (hr : Succeeds realloc) (text : List UInt8)
    (hn : (escapeBlanks text).length < 2 ^ 63) :
    ∃ temp temp' found, RawBuffer.empty.append realloc text = some temp ∧
      temp.replace realloc (ascii "+") (ascii "%20") false = some (temp', found) ∧
      temp'.Holds (escapeBlanks text) := by
  have hshort : ([] ++ text).length < 2 ^ 63 :=
    Nat.lt_of_le_of_lt (escape_blanks_length text) hn
  obtain ⟨temp, happend, htemp⟩ := holds_empty.append hr hshort
  rw [List.nil_append] at htemp
  have hall : ReplacesAll realloc temp text (ascii "+") (ascii "%20") :=
    htemp.replace_grows hr (by decide) (by decide) (pluses_escaped text ▸ hn)
  obtain ⟨temp', found, hreplace, htemp', -⟩ := hall
  exact ⟨temp, temp', found, happend, hreplace, pluses_escaped text ▸ htemp'⟩

theorem unescape_held (hu : Unescapes unescape) (h : b.Holds text) (hne : text ≠ [])
    (hn : text.length < 2 ^ 31) :
    unescape b.buffer ((b.readyPosition : Int).bmod (2 ^ 32)) = some (decode text) := by
  have hfill := h.fill
  have hpos : 0 < text.length := List.length_pos_of_ne_nil hne
  have hin : b.readyPosition ≤ b.buffer.length := by
    rw [h.capacity]
    exact h.fits
  have hcontent : b.buffer.take b.readyPosition = text := h.content
  rw [Int.bmod_eq_of_le (by omega) (by omega),
    hu.decodes b.buffer b.readyPosition (by omega) hin (by omega), hcontent]

theorem encode_text (hr : Succeeds realloc) (hu : Unescapes unescape) (h : uriText uri ≠ [])
    (hn : (escapeBlanks (uriText uri)).length < 2 ^ 31) :
    getUriEncode realloc unescape b uri =
      ((b.checkSize realloc (unescaped uri).length).memcpy 0
        (cStr (unescaped uri ++ [nul]) ++ [nul])).bind
        fun b => some (b.flushFreeSize.decrementFreeSize (unescaped uri).length) := by
  cases uri with
  | none => exact absurd rfl h
  | some memory =>
    have hne : escapeBlanks (uriText (some memory)) ≠ [] := by
      intro hnil
      have hlonger := escape_blanks_length (uriText (some memory))
      rw [hnil] at hlonger
      exact h (List.eq_nil_of_length_eq_zero (Nat.le_zero.mp hlonger))
    obtain ⟨temp, temp', found, happend, hreplace, hholds⟩ :=
      escape_holds hr (uriText (some memory)) (by omega)
    have hpt := unescape_held hu hholds hne hn
    rw [decode_escape_blanks] at hpt
    change _ = some (unescaped (some memory)) at hpt
    rw [getUriEncode, Option.map_some]
    split
    · next hnone => cases hnone
    · next hnil => exact absurd (Option.some.inj hnil) h
    · next text _ htext =>
      obtain rfl : uriText (some memory) = text := Option.some.inj htext
      rw [happend, Option.bind_eq_bind, Option.bind_some, hreplace, Option.bind_eq_bind,
        Option.bind_some]
      dsimp only
      rw [hpt]
      rfl

/-- A text and an element behind it are copied to the start, and the text is the fill. -/
theorem refill (h : b.Holds xs) (ys : List UInt8) (hlt : ys.length < b.fullSize)
    (hn : ys.length < 2 ^ 63) :
    ∃ b', (b.memcpy 0 (ys ++ [nul])).bind
        (fun b => some (b.flushFreeSize.decrementFreeSize ys.length)) = some b' ∧
      b'.Holds ys ∧ b'.fullSize = b.fullSize ∧ ys ++ [nul] <+: b'.buffer := by
  have hroom : ([] : List UInt8).length + (ys ++ [nul]).length ≤ b.flushFreeSize.fullSize := by
    rw [List.length_append]
    exact (Nat.zero_add _).trans_le hlt
  obtain ⟨buffer, hcopy, hcap, hstands⟩ := h.flush.copy hroom
  obtain ⟨copied, hwrite, hbuffer⟩ := Option.map_eq_some_iff.mp hcopy
  obtain rfl : copied = buffer := congrArg RawBuffer.buffer hbuffer
  have hready : sizeAdd 0 ys.length = ys.length := by
    rw [size_add_eq (by omega), Nat.zero_add]
  refine ⟨⟨copied, b.fullSize, ys.length⟩, ?_, ⟨hcap, h.small, rfl, hn,
    (List.prefix_append ys [nul]).trans hstands⟩, rfl, hstands⟩
  change write b.buffer 0 (ys ++ [nul]) = some copied at hwrite
  rw [memcpy, hwrite, Option.map_some, Option.bind_some, flushFreeSize, decrementFreeSize]
  dsimp only
  rw [hready, if_pos hlt]

theorem unescaped_ne_nil (h : uriText uri ≠ []) : unescaped uri ≠ [] := by
  refine decode_ne_nil fun hnil => h ?_
  exact List.map_eq_nil_iff.mp hnil

theorem unescaped_length (uri : Option (List UInt8)) :
    (unescaped uri).length ≤ (escapeBlanks (uriText uri)).length :=
  calc (unescaped uri).length ≤ (blanks (uriText uri)).length := decode_length _
    _ = (uriText uri).length := List.length_map _
    _ ≤ (escapeBlanks (uriText uri)).length := escape_blanks_length _

/-- A buffer that is just as long as the text is not made longer for the terminator. -/
theorem encode_text_iff (hr : Succeeds realloc) (hu : Unescapes unescape) (h : b.Holds xs)
    (htext : uriText uri ≠ []) (hp : PlainUri uri) :
    ((unescaped uri).length = b.fullSize ∧ getUriEncode realloc unescape b uri = none) ∨
      ((unescaped uri).length ≠ b.fullSize ∧
        ∃ b', getUriEncode realloc unescape b uri = some b' ∧ b'.Holds (unescaped uri) ∧
          (unescaped uri).length < b'.fullSize ∧ unescaped uri ++ [nul] <+: b'.buffer) := by
  obtain ⟨hshort, hplain⟩ := hp
  have hlen := unescaped_length uri
  have hpos := List.length_pos_of_ne_nil (unescaped_ne_nil htext)
  rw [encode_text hr hu htext hshort, c_str_terminated hplain]
  generalize unescaped uri = text at hlen hpos
  obtain ⟨hgrown, -⟩ := h.check hr (show text.length < 2 ^ 63 by omega)
  have hfull : (b.checkSize realloc text.length).fullSize = grown b.fullSize text.length :=
    check_full hpos.ne' (by omega)
  have hiff := lt_grown_iff b.fullSize text.length
  rw [← hfull] at hiff
  generalize b.checkSize realloc text.length = grown at hgrown hiff
  by_cases hroom : text.length = b.fullSize
  · refine .inl ⟨hroom, ?_⟩
    have hover : ¬ 0 + (text ++ [nul]).length ≤ grown.buffer.length := by
      rw [hgrown.capacity, List.length_append, List.length_singleton]
      omega
    rw [memcpy, write, if_neg hover]
    rfl
  · obtain ⟨b', hb', hholds, hsame, hstands⟩ := refill hgrown text (hiff.mpr hroom) (by omega)
    exact .inr ⟨hroom, b', hb', hholds, hsame ▸ hiff.mpr hroom, hstands⟩

theorem encode_empty_fill (unescape : List UInt8 → Int → Option (List UInt8))
    (hr : Succeeds realloc) (h : b.Holds xs) (hempty : uriText uri = []) :
    ∃ rest, ∃ b' : RawBuffer UInt8, getUriEncode realloc unescape b uri = some b' ∧
      b'.buffer = nul :: rest ∧ b'.buffer.length = b'.fullSize ∧ b'.fullSize ≤ 2 ^ 63 + 2048 ∧
      b'.readyPosition = b.readyPosition := by
  obtain ⟨hgrown, hone⟩ := h.check hr (show 1 < 2 ^ 63 by decide)
  rw [encode_empty hempty]
  have hready : (b.checkSize realloc 1).readyPosition = b.readyPosition :=
    hgrown.fill.trans h.fill.symm
  generalize b.checkSize realloc 1 = grown at hgrown hone hready
  have hcap := hgrown.capacity
  obtain ⟨c, rest, hbuffer⟩ := List.exists_cons_of_length_pos
    (show 0 < grown.buffer.length by omega)
  have hwrite : write grown.buffer 0 [nul] = some (nul :: rest) := by
    have hone : [c].length = [nul].length := rfl
    rw [hbuffer]
    exact write_at [] rest hone
  refine ⟨rest, ⟨nul :: rest, grown.fullSize, grown.readyPosition⟩, ?_, rfl, ?_, hgrown.small,
    hready⟩
  · rw [memcpy, hwrite]
    rfl
  · rw [← hcap, hbuffer]
    rfl

theorem encode_empty_iff (hr : Succeeds realloc) (h : b.Holds xs) (hempty : uriText uri = []) :
    (Encodes realloc unescape b uri ↔ b.readyPosition = 0) ∧
      (b.readyPosition = 0 → ∃ b', getUriEncode realloc unescape b uri = some b' ∧ b'.Holds []) := by
  obtain ⟨rest, b', hb', hbuffer, hcap, hsmall, hready⟩ :=
    encode_empty_fill unescape hr h hempty
  have hnothing : unescaped uri = [] := by
    rw [unescaped, hempty]
    rfl
  have hfilled : b.readyPosition = 0 → b'.Holds [] := fun hzero =>
    ⟨hcap, hsmall, hready.trans hzero, by decide, List.nil_prefix⟩
  refine ⟨⟨?_, fun hzero => ?_⟩, fun hzero => ⟨b', hb', hfilled hzero⟩⟩
  · rintro ⟨b'', hb'', hcontent, -⟩
    obtain rfl := Option.some.inj (hb'.symm.trans hb'')
    rw [hnothing, content, hbuffer, List.take_eq_nil_iff, hready] at hcontent
    exact hcontent.resolve_right (List.cons_ne_nil _ _)
  · have hfull : 0 < b'.fullSize := by
      rw [← hcap, hbuffer]
      exact Nat.succ_pos _
    refine ⟨b', hb', ?_, ?_, ?_⟩
    · rw [(hfilled hzero).content, hnothing]
    · rw [hnothing]
      exact hfull
    · rw [hnothing, hbuffer]
      exact ⟨rest, rfl⟩

/-- A call does what it should where it has the room, and then leaves a sound buffer. -/
theorem encodes_iff (hr : Succeeds realloc) (hu : Unescapes unescape) (h : b.Holds xs)
    (hp : PlainUri uri) :
    (Encodes realloc unescape b uri ↔ HasRoom b uri) ∧
      (HasRoom b uri →
        ∃ b', getUriEncode realloc unescape b uri = some b' ∧ b'.Holds (unescaped uri)) := by
  by_cases htext : uriText uri = []
  · have hnothing : unescaped uri = [] := by
      rw [unescaped, htext]
      rfl
    rw [HasRoom, if_pos htext, hnothing]
    exact encode_empty_iff hr h htext
  · rw [HasRoom, if_neg htext]
    rcases encode_text_iff hr hu h htext hp with ⟨hfull, hnone⟩ | ⟨hroom, b', hb', hholds, hlt, hs⟩
    · refine ⟨iff_of_false ?_ (absurd hfull), fun hroom => absurd hfull hroom⟩
      rintro ⟨b', hb', -⟩
      rw [hnone] at hb'
      cases hb'
    · exact ⟨iff_of_true ⟨b', hb', hholds.content, hlt, hs⟩ hroom, fun _ => ⟨b', hb', hholds⟩⟩

/-- What holds of every call, with the buffer that it finds. -/
def Throughout (realloc : Realloc UInt8) (unescape : List UInt8 → Int → Option (List UInt8))
    (P : RawBuffer UInt8 → Option (List UInt8) → Prop) (b : RawBuffer UInt8) :
    List (Option (List UInt8)) → Prop
  | [] => True
  | uri :: uris =>
    P b uri ∧ ∀ b' ∈ getUriEncode realloc unescape b uri, Throughout realloc unescape P b' uris

instance decideThroughout (realloc : Realloc UInt8)
    (unescape : List UInt8 → Int → Option (List UInt8))
    (P : RawBuffer UInt8 → Option (List UInt8) → Prop) [∀ b uri, Decidable (P b uri)]
    (b : RawBuffer UInt8) : (uris : List (Option (List UInt8))) →
      Decidable (Throughout realloc unescape P b uris)
  | [] => .isTrue trivial
  | uri :: uris =>
    have (b' : RawBuffer UInt8) := decideThroughout realloc unescape P b' uris
    inferInstanceAs (Decidable (P b uri ∧
      ∀ b' ∈ getUriEncode realloc unescape b uri, Throughout realloc unescape P b' uris))

def UriFits (b : RawBuffer UInt8) (uri : Option (List UInt8)) : Prop := PlainUri uri ∧ HasRoom b uri

instance (b : RawBuffer UInt8) (uri : Option (List UInt8)) : Decidable (UriFits b uri) :=
  inferInstanceAs (Decidable (PlainUri uri ∧ HasRoom b uri))

theorem Throughout.encodes (hr : Succeeds realloc) (hu : Unescapes unescape) (h : b.Holds xs)
    (hrun : Throughout realloc unescape UriFits b uris) :
    Throughout realloc unescape (Encodes realloc unescape) b uris := by
  induction uris generalizing b xs with
  | nil => trivial
  | cons uri uris ih =>
    obtain ⟨⟨hplain, hroom⟩, hrest⟩ := hrun
    obtain ⟨hiff, hleaves⟩ := encodes_iff hr hu h hplain
    refine ⟨hiff.mpr hroom, fun b' hb' => ?_⟩
    obtain ⟨b'', hb'', hholds⟩ := hleaves hroom
    obtain rfl := Option.some.inj (hb''.symm.trans hb')
    exact ih hholds (hrest b'' hb')

theorem Throughout.has_room (hr : Succeeds realloc) (hu : Unescapes unescape) (h : b.Holds xs)
    (hplain : ∀ uri ∈ uris, PlainUri uri)
    (hrun : Throughout realloc unescape (Encodes realloc unescape) b uris) :
    Throughout realloc unescape UriFits b uris := by
  induction uris generalizing b xs with
  | nil => trivial
  | cons uri uris ih =>
    obtain ⟨hencodes, hrest⟩ := hrun
    obtain ⟨hhere, hlater⟩ := List.forall_mem_cons.mp hplain
    obtain ⟨hiff, hleaves⟩ := encodes_iff hr hu h hhere
    have hroom := hiff.mp hencodes
    refine ⟨⟨hhere, hroom⟩, fun b' hb' => ?_⟩
    obtain ⟨b'', hb'', hholds⟩ := hleaves hroom
    obtain rfl := Option.some.inj (hb''.symm.trans hb')
    exact ih hholds hlater (hrest b'' hb')

/-- Every call of a run leaves the unescaped text, terminated and within the capacity,
where each comes with a plain text for which there is room; and of plain texts no
other run does. -/
theorem uris_encoded (hr : Succeeds realloc) (hu : Unescapes unescape)
    (uris : List (Option (List UInt8))) :
    (Throughout realloc unescape UriFits .empty uris →
        Throughout realloc unescape (Encodes realloc unescape) .empty uris) ∧
      ((∀ uri ∈ uris, PlainUri uri) →
        Throughout realloc unescape (Encodes realloc unescape) .empty uris →
          Throughout realloc unescape UriFits .empty uris) :=
  ⟨Throughout.encodes hr hu holds_empty, Throughout.has_room hr hu holds_empty⟩

def unescapeAll (memory : List UInt8) (n : Int) : Option (List UInt8) :=
  some (decode (memory.take n.toNat))

theorem unescape_all_unescapes : Unescapes unescapeAll :=
  ⟨fun memory n _ _ _ => by rw [unescapeAll, Int.toNat_natCast]⟩

theorem blanks_encoded :
    Throughout (allocate fun _ => 0) unescapeAll (Encodes (allocate fun _ => 0) unescapeAll)
      .empty [none, some (ascii "a%20b+c"), some (ascii "100%25+%2b")] :=
  (uris_encoded (allocate_succeeds fun _ => 0) unescape_all_unescapes
    [none, some (ascii "a%20b+c"), some (ascii "100%25+%2b")]).1 (by decide +kernel)

/-- What stands behind an escaped NUL is not copied. -/
theorem escaped_nul_cuts :
    ¬ ∀ (realloc : Realloc UInt8) unescape, Succeeds realloc → Unescapes unescape → ∀ uris,
      Throughout realloc unescape (Encodes realloc unescape) .empty uris := by
  intro h
  obtain ⟨⟨b', hb', hcontent, -⟩, -⟩ := h (allocate fun _ => 120) unescapeAll
    (allocate_succeeds fun _ => 120) unescape_all_unescapes [some (ascii "a%00b")]
  have hrun : (getUriEncode (allocate fun _ => 120) unescapeAll .empty
      (some (ascii "a%00b"))).map content = some [97, 0, 120] := by
    decide +kernel
  rw [hb', Option.map_some, hcontent] at hrun
  exact absurd hrun (by decide +kernel)

end Khorost
