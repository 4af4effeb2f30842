import Khorost.Proofs.SubValue

namespace Khorost

open Blocks

variable {b : AutoBuffer UInt8} {front line rest m xs label : List UInt8}

/-- A text whose first byte does not come again in it is found behind a part
that it does not stand in. -/
theorem find_text {c : UInt8} (hc : c ∉ m) (hxs : ¬ c :: m <:+: xs)
    (hcontent : b.content = front ++ (xs ++ c :: m ++ rest)) (hfill : b.fillSize ≤ maxSize) :
    b.find front.length (c :: m) = some (some (front.length + xs.length)) := by
  have hlen : b.fillSize = front.length + (xs.length + (c :: m).length + rest.length) := by
    rw [← AutoBuffer.content_length, hcontent]
    simp only [List.length_append]
  have hdrop : ∀ j, b.content.drop (front.length + j) = (xs ++ c :: m ++ rest).drop j := by
    intro j
    rw [hcontent, List.drop_length_add_append]
  have hhere : c :: m <+: b.content.drop (front.length + xs.length) := by
    rw [hdrop, List.append_assoc, List.drop_left]
    exact List.prefix_append _ _
  rcases b.find_spec front.length (m := c :: m) (by omega) hfill with
    ⟨k, hfound, hge, hat, hfirst⟩ | ⟨-, hnone⟩
  · obtain ⟨j, rfl⟩ := Nat.exists_eq_add_of_le hge
    rcases Nat.lt_trichotomy j xs.length with hlt | rfl | hgt
    · rw [hdrop] at hat
      exact absurd hat (no_overlap hc hxs hlt)
    · exact hfound
    · exact absurd hhere (hfirst _ (by omega) (by omega))
  · exact absurd hhere (hnone _ (by omega) (by omega))

/-- A line's end is the first one behind a text without a carriage return. -/
theorem find_endl (hline : cr ∉ line) (hcontent : b.content = front ++ (line ++ endl ++ rest))
    (hfill : b.fillSize ≤ maxSize) :
    b.find front.length endl = some (some (front.length + line.length)) :=
  find_text (by decide : cr ∉ [lf]) (fun hin => hline (hin.subset List.mem_cons_self))
    hcontent hfill

theorem compare_text (hm : 0 < m.length) (hcontent : b.content = front ++ rest)
    (hfill : b.fillSize ≤ maxSize) (hsize : m.length ≤ maxSize) :
    b.compare front.length m = some (decide (m <+: rest)) := by
  have hfront : front.length ≤ b.fillSize := by
    rw [← AutoBuffer.content_length, hcontent, List.length_append]
    exact Nat.le_add_right ..
  have hfill := lt_of_max_size hfill
  have hsize := lt_of_max_size hsize
  rw [AutoBuffer.compare_prefix b _ hm (by omega), hcontent, List.drop_left]

theorem line_pass_whole (label : List UInt8) (hline : cr ∉ line) (hne : line ≠ [])
    (hcontent : b.content = front ++ (line ++ endl ++ rest)) (hfill : b.fillSize ≤ maxSize)
    {p : MultiPart} (hp : p.currentIterator = front.length) :
    linePass b label p = (do
      let p' ← partLine b line.length p
      .ok { p' with currentIterator := front.length + line.length + endl.length }) := by
  have hlen : b.fillSize = front.length + (line.length + endl.length + rest.length) := by
    rw [← AutoBuffer.content_length, hcontent]
    simp only [List.length_append]
  have hpos := List.length_pos_of_ne_nil hne
  have hmax := lt_of_max_size hfill
  have hnext := size_add_eq (a := front.length + line.length) (b := endl.length) (by omega)
  have hsub := size_sub_add front.length (b := line.length) (by omega)
  have hfind := find_endl hline hcontent hfill
  rw [← hp] at hfind
  rw [line_pass_line hfind rfl (by rw [hp, Option.getD_some]; omega), Option.getD_some, hp, hsub,
    hnext]

/-- The content goes up to the next boundary, and the iterator to its label. -/
theorem line_pass_content (hlabel : cr ∉ label) (hxs : ¬ endl ++ label <:+: xs)
    (hcontent : b.content = front ++ (endl ++ xs ++ endl ++ label ++ rest))
    (hfill : b.fillSize ≤ maxSize) {p : MultiPart} (hp : p.currentIterator = front.length) :
    linePass b label p = .error (.returned true { p with
      bufferContent := some (front.length + endl.length)
      bufferContentSize := xs.length
      currentIterator := front.length + endl.length + xs.length + endl.length }) := by
  have hlen : b.fillSize =
      front.length + (endl.length + xs.length + endl.length + label.length + rest.length) := by
    rw [← AutoBuffer.content_length, hcontent]
    simp only [List.length_append]
  have hblank : b.content = front ++ ([] ++ endl ++ (xs ++ endl ++ label ++ rest)) := by
    rw [hcontent, List.nil_append]
    simp only [List.append_assoc]
  have hend := find_endl List.not_mem_nil hblank hfill
  have hfind : b.find (front.length + endl.length) (endl ++ label) =
      some (some (front.length + endl.length + xs.length)) := by
    have hsplit : b.content = (front ++ endl) ++ (xs ++ cr :: (lf :: label) ++ rest) := by
      rw [hcontent]
      simp [endl]
    rw [← List.length_append]
    exact find_text (by simp [hlabel]; decide) hxs hsplit hfill
  have hmax := lt_of_max_size hfill
  have hnext := size_add_eq (a := front.length) (b := endl.length) (by omega)
  have hbehind := size_add_eq (a := front.length + endl.length + xs.length) (b := endl.length)
    (by omega)
  have hsub := size_sub_add (front.length + endl.length) (b := xs.length) (by omega)
  rw [← hp] at hend
  rw [line_pass_blank hend (by rw [Option.getD_some, List.length_nil, Nat.add_zero]),
    part_content_found (by rw [hp, hnext]) hfind, hsub, hbehind]

theorem line_value_written {source pMatch gap v q : List UInt8} (hq : ∀ c ∈ front, c ≠ quote)
    (hm : pMatch.head? ≠ some quote) (hne : pMatch ≠ []) (hkv : divKV ≠ quote ∧ divKV ≠ space)
    (hgap : ∀ c ∈ gap, c = space) (hv : Written divKV semicolon v q)
    (hsource : source = front ++ pMatch ++ divKV :: (gap ++ (q ++ v ++ q ++ rest)))
    (hfirst : ∀ i < front.length, ¬ pMatch <+: source.drop i)
    (hsize : size = front.length + pMatch.length + 1 + gap.length + (q ++ v ++ q).length)
    (hlen : size ≤ maxSize) : lineValue source size pMatch divKV old = .ok v := by
  have hmax := lt_of_max_size hlen
  have hnpos : size < npos := Nat.lt_trans hmax (by decide)
  have hvlen : ¬ maxSize - 0 < v.length := by
    simp only [List.length_append] at hsize
    omega
  have hread : Blocks.read source (front.length + pMatch.length + 1 + (gap ++ q).length) v.length =
      some v := by
    have hsplit : source = (front ++ pMatch ++ divKV :: (gap ++ q)) ++ v ++ (q ++ rest) := by
      rw [hsource]
      simp
    have hpos : front.length + pMatch.length + 1 + (gap ++ q).length =
        (front ++ pMatch ++ divKV :: (gap ++ q)).length := by
      simp only [List.length_append, List.length_cons]
      omega
    rw [hpos, hsplit]
    exact read_at _ _ _
  rw [lineValue, sub_value_written hq hm hne hkv (by decide) hgap hv hsource hfirst hsize hnpos]
  simp only [orOutside, bind, Except.bind, takeString, if_neg hvlen, hread]

/-- A part of a form: the texts that stand in its header, and what it holds. -/
structure FormPart (boundary : List UInt8) where
  name : List UInt8
  contentType : Option (List UInt8)
  content : List UInt8
  name_clear : ∀ c ∈ name, c ∉ [quote, cr, lf]
  type_clear : ∀ t ∈ contentType, t ≠ [] ∧ (∀ c ∈ t, c ∉ [quote, colon, semicolon, cr, lf]) ∧
    t.head? ≠ some space ∧ t.getLast? ≠ some space
  content_clear : ¬ endl ++ (labelCd ++ boundary) <:+: content

namespace FormPart

variable {boundary : List UInt8} (part : FormPart boundary)

def dispositionLine : List UInt8 :=
  ascii "Content-Disposition: form-data; name=" ++ quote :: part.name ++ [quote]

/-- A line of the header that gives the type of the content. -/
def typeLine (t : List UInt8) : List UInt8 := ascii "Content-Type: " ++ t

def typeLines : List UInt8 :=
  match part.contentType with
  | none => []
  | some t => typeLine t ++ endl

/-- A part from its boundary's line to the blank line. -/
def head : List UInt8 :=
  labelCd ++ boundary ++ endl ++ (part.dispositionLine ++ endl) ++ part.typeLines ++ endl

def text : List UInt8 := part.head ++ part.content ++ endl

/-- What is read of a part. A part without a type has an empty one. -/
def entry : List UInt8 × List UInt8 × List UInt8 :=
  (part.name, part.contentType.getD [], part.content)

end FormPart

theorem buffer_drop (hcontent : b.content = front ++ rest) :
    b.buffer.drop front.length = rest ++ b.stale := by
  rw [b.buffer_split, hcontent, List.append_assoc, List.drop_left]

/-- The name is read from the line that it was written to. -/
theorem disposition_line (part : FormPart boundary)
    (hcontent : b.content = front ++ (part.dispositionLine ++ endl ++ rest))
    (hfill : b.fillSize ≤ maxSize) {p : MultiPart} (hp : p.currentIterator = front.length) :
    partLine b part.dispositionLine.length p = .ok { p with partName := part.name } := by
  have hname : ascii "name" = 110 :: ascii "ame" := by decide
  have hline : part.dispositionLine ++ endl ++ rest ++ b.stale =
      ascii "Content-Disposition: form-data; " ++ ascii "name" ++
        equals :: ([] ++ ([quote] ++ part.name ++ [quote] ++ (endl ++ rest ++ b.stale))) := by
    have hsplit : ascii "Content-Disposition: form-data; name=" =
        ascii "Content-Disposition: form-data; " ++ ascii "name" ++ [equals] := by decide
    rw [FormPart.dispositionLine, hsplit]
    simp only [List.append_assoc, List.cons_append, List.nil_append]
  have hlen : b.fillSize = front.length + (part.dispositionLine ++ endl ++ rest).length := by
    rw [← AutoBuffer.content_length, hcontent, List.length_append]
  have hfirst : ∀ i < (ascii "Content-Disposition: form-data; ").length,
      ¬ ascii "name" <+: (part.dispositionLine ++ endl ++ rest ++ b.stale).drop i := by
    intro i hi
    rw [hline, hname]
    exact no_overlap (by decide) (by decide) hi
  have hvalue : lineValue (part.dispositionLine ++ endl ++ rest ++ b.stale)
      part.dispositionLine.length (ascii "name") equals p.partName = .ok part.name := by
    refine line_value_written (q := [quote])
      (by decide +kernel) (by decide) (by decide) (by decide) (by simp) (.quoted ?_) hline hfirst ?_
        ?_
    · exact fun hin => part.name_clear _ hin (by simp)
    · have h1 : (ascii "Content-Disposition: form-data; name=").length = 37 := by decide
      have h2 : (ascii "Content-Disposition: form-data; ").length = 32 := by decide
      have h3 : (ascii "name").length = 4 := by decide
      simp only [FormPart.dispositionLine, List.length_append, List.length_cons, List.length_nil,
        h1, h2, h3]
      omega
    · simp only [List.length_append] at hlen
      omega
  have hcompare : b.compare front.length (ascii "Content-Disposition") = some true := by
    rw [compare_text (by decide) hcontent hfill (by decide)]
    refine congrArg some (decide_eq_true ?_)
    have hsplit : ascii "Content-Disposition: form-data; name=" =
        ascii "Content-Disposition" ++ ascii ": form-data; name=" := by decide
    rw [FormPart.dispositionLine, hsplit]
    simp only [List.append_assoc, List.prefix_append]
  simp only [partLine, hp, hcompare, buffer_drop hcontent, hvalue, orOutside, bind, Except.bind,
    if_true]

/-- So is the type, as long as the line is not taken for the other one. -/
theorem type_line (part : FormPart boundary) (ht : part.contentType = some t)
    (hcontent : b.content = front ++ (FormPart.typeLine t ++ endl ++ rest))
    (hfill : b.fillSize ≤ maxSize) {p : MultiPart} (hp : p.currentIterator = front.length) :
    partLine b (FormPart.typeLine t).length p = .ok { p with partContentType := t } := by
  obtain ⟨hne, hclear, hhead, hlast⟩ := part.type_clear t ht
  have hsplit : ascii "Content-Type: " = ascii "Content-Type" ++ [colon, space] := by decide
  have hline : FormPart.typeLine t ++ endl ++ rest ++ b.stale =
      [] ++ ascii "Content-Type" ++
        colon :: ([space] ++ ([] ++ t ++ [] ++ (endl ++ rest ++ b.stale))) := by
    rw [FormPart.typeLine, hsplit]
    simp only [List.append_assoc, List.cons_append, List.nil_append]
  have hlen : b.fillSize = front.length + (FormPart.typeLine t ++ endl ++ rest).length := by
    rw [← AutoBuffer.content_length, hcontent, List.length_append]
  have hvalue : lineValue (FormPart.typeLine t ++ endl ++ rest ++ b.stale)
      (FormPart.typeLine t).length (ascii "Content-Type") colon p.partContentType = .ok t := by
    refine line_value_written (q := []) (by simp) (by decide)
      (by decide) (by decide) (by simp) (.bare hne ?_ hhead hlast) hline
      (fun i hi => absurd hi (Nat.not_lt_zero i)) ?_ ?_
    · intro c hc
      have := hclear c hc
      simp only [List.mem_cons, List.not_mem_nil, or_false, not_or] at this
      exact ⟨this.1, this.2.1, this.2.2.1⟩
    · have h1 : (ascii "Content-Type: ").length = 14 := by decide
      have h2 : (ascii "Content-Type").length = 12 := by decide
      simp only [FormPart.typeLine, List.length_append, List.length_cons, List.length_nil, h1, h2]
      omega
    · simp only [List.length_append] at hlen
      omega
  have hother : b.compare front.length (ascii "Content-Disposition") = some false := by
    rw [compare_text (by decide) hcontent hfill (by decide)]
    refine congrArg some (decide_eq_false ?_)
    have h1 : ascii "Content-Disposition" = ascii "Content-" ++ 68 :: ascii "isposition" := by decide
    have h2 : ascii "Content-Type: " = ascii "Content-" ++ 84 :: ascii "ype: " := by decide
    rw [FormPart.typeLine, h1, h2]
    simp only [List.append_assoc, List.prefix_append_right_inj, List.cons_append,
      List.cons_prefix_cons]
    exact fun h => absurd h.1 (by decide)
  have hcompare : b.compare front.length (ascii "Content-Type") = some true := by
    rw [compare_text (by decide) hcontent hfill (by decide)]
    refine congrArg some (decide_eq_true ?_)
    rw [FormPart.typeLine, hsplit]
    simp only [List.append_assoc, List.prefix_append]
  simp only [partLine, hp, hother, hcompare, buffer_drop hcontent, hvalue, orOutside, bind,
    Except.bind, if_true, Bool.false_eq_true, if_false]

theorem compare_label (hne : 0 < label.length) (hcontent : b.content = front ++ (label ++ rest))
    (hfill : b.fillSize ≤ maxSize) : b.compare front.length label = some true ∧
      sizeAdd front.length label.length = (front ++ label).length := by
  have hlen : b.fillSize = front.length + (label.length + rest.length) := by
    rw [← AutoBuffer.content_length, hcontent, List.length_append, List.length_append]
  have hmax := lt_of_max_size hfill
  refine ⟨?_, ?_⟩
  · rw [compare_text hne hcontent hfill (by omega), decide_eq_true (List.prefix_append _ _)]
  · rw [size_add_eq (by omega), List.length_append]

/-- Behind a boundary's line the iterator stands at the first header line. -/
theorem pass_label_line (hne : 0 < label.length)
    (hcontent : b.content = front ++ (label ++ (endl ++ rest))) (hfill : b.fillSize ≤ maxSize)
    {p : MultiPart} (hp : p.currentIterator = front.length) :
    passLabel b label p = .ok { p with currentIterator := (front ++ label ++ endl).length } := by
  have hbehind : b.content = (front ++ label) ++ (endl ++ rest) := by
    rw [hcontent, List.append_assoc]
  obtain ⟨hlabel, hnext⟩ := compare_label hne hcontent hfill
  obtain ⟨hendl, hline⟩ := compare_label (by decide) hbehind hfill
  have hopen : b.compare (front ++ label).length labelCd = some false := by
    rw [compare_text (by decide) hbehind hfill (by decide)]
    exact congrArg some (decide_eq_false fun h => absurd (List.cons_prefix_cons.mp h).1 (by decide))
  simp only [passLabel, hp, hlabel, hnext, hopen, hendl, hline, orOutside, bind, Except.bind,
    if_true, Bool.false_eq_true, if_false]

theorem pass_label_close (hne : 0 < label.length)
    (hcontent : b.content = front ++ (label ++ (labelCd ++ rest))) (hfill : b.fillSize ≤ maxSize)
    {p : MultiPart} (hp : p.currentIterator = front.length) :
    passLabel b label p =
      .error (.returned false { p with currentIterator := (front ++ label).length }) := by
  obtain ⟨hlabel, hnext⟩ := compare_label hne hcontent hfill
  have hbehind : b.content = (front ++ label) ++ (labelCd ++ rest) := by
    rw [hcontent, List.append_assoc]
  obtain ⟨hclose, -⟩ := compare_label (by decide) hbehind hfill
  simp only [passLabel, hp, hlabel, hnext, hclose, orOutside, bind, Except.bind, if_true]

/-- What a boundary must not contain. -/
structure IsBoundary (boundary : List UInt8) : Prop where
  nonempty : boundary ≠ []
  clear : ∀ c ∈ boundary, c ∉ [quote, space, semicolon, equals, cr, lf, nul]

theorem IsBoundary.written (h : IsBoundary boundary) (hq : q = [] ∨ q = [quote]) :
    Written equals semicolon boundary q := by
  have hclear := fun c hc => h.clear c hc
  simp only [List.mem_cons, List.not_mem_nil, or_false, not_or] at hclear
  rcases hq with rfl | rfl
  · refine .bare h.nonempty (fun c hc => ?_) ?_ ?_
    · obtain ⟨h1, -, h3, h4, -⟩ := hclear c hc
      exact ⟨h1, h4, h3⟩
    · exact fun he => (hclear space (List.mem_of_mem_head? he)).2.1 rfl
    · exact fun he => (hclear space (List.mem_of_getLast? he)).2.1 rfl
  · exact .quoted fun hc => (hclear quote hc).1 rfl

/-- The value of a `Content-Type` with the boundary as its only parameter. -/
def formType (gap q boundary : List UInt8) : List UInt8 :=
  ascii "multipart/form-data;" ++ gap ++ ascii "boundary=" ++ q ++ boundary ++ q

theorem find_match_here (hne : pMatch ≠ []) (hm : pMatch.head? ≠ some quote) (rest : List UInt8) :
    findMatch pMatch (pMatch ++ rest) false = some 0 := by
  obtain ⟨c, m, rfl⟩ := List.exists_cons_of_ne_nil hne
  have hc : c ≠ quote := by simpa using hm
  have hlen : ¬ (c :: (m ++ rest)).length < (c :: m).length := by
    simp only [List.length_cons, List.length_append]
    omega
  rw [List.cons_append, findMatch, if_neg hlen, if_neg hc, if_pos ⟨rfl, by simp⟩]

theorem find_label_form (hb : IsBoundary boundary) (hq : q = [] ∨ q = [quote])
    (hgap : ∀ c ∈ gap, c = space) (hlen : (formType gap q boundary).length ≤ maxSize) :
    findLabel (formType gap q boundary) = .ok (some (labelCd ++ boundary)) := by
  have hmatch : (findMatch (ascii "multipart/form-data") (formType gap q boundary) false).isSome := by
    have hsplit : ascii "multipart/form-data;" = ascii "multipart/form-data" ++ [semicolon] := by
      decide
    rw [formType, hsplit]
    simp only [List.append_assoc]
    rw [find_match_here (by decide) (by decide)]
    rfl
  set front := ascii "multipart/form-data;" ++ gap with hfront
  have hbound : ascii "boundary=" = ascii "boundary" ++ [equals] := by decide
  have hsource : formType gap q boundary ++ [nul] =
      front ++ ascii "boundary" ++ equals :: ([] ++ (q ++ boundary ++ q ++ [nul])) := by
    rw [formType, hfront, hbound]
    simp only [List.append_assoc, List.cons_append, List.nil_append]
  have hclear : ∀ c ∈ front, c ≠ quote ∧ c ≠ 98 := by
    intro c hc
    rcases List.mem_append.mp hc with hc | hc
    · exact (by decide +kernel : ∀ c ∈ ascii "multipart/form-data;", c ≠ quote ∧ c ≠ 98) c hc
    · rw [hgap c hc]
      decide
  have hfirst : ∀ i < front.length, ¬ ascii "boundary" <+: (formType gap q boundary ++ [nul]).drop i := by
    intro i hi
    have hhead : ascii "boundary" = 98 :: ascii "oundary" := by decide
    rw [hsource, hhead]
    exact no_overlap (by decide) (fun hin => (hclear 98 (hin.subset List.mem_cons_self)).2 rfl) hi
  have hsize : (formType gap q boundary).length =
      front.length + (ascii "boundary").length + 1 + 0 + (q ++ boundary ++ q).length := by
    rw [formType, hbound]
    simp only [hfront, List.length_append, List.length_cons, List.length_nil]
    omega
  have hvalue := sub_value_written (fun c hc => (hclear c hc).1) (by decide)
    (by decide) (by decide) (by decide) (by simp) (hb.written hq) hsource hfirst hsize
    (Nat.lt_trans (lt_of_max_size hlen) (by decide))
  have hpos : front.length + (ascii "boundary").length + 1 + ([] ++ q).length =
      (front ++ ascii "boundary" ++ equals :: q).length := by
    simp only [List.length_append, List.length_cons, List.nil_append]
    omega
  have hread : Blocks.read (formType gap q boundary ++ [nul])
      (front.length + (ascii "boundary").length + 1 + ([] ++ q).length) boundary.length =
      some boundary := by
    have hsplit : formType gap q boundary ++ [nul] =
        (front ++ ascii "boundary" ++ equals :: q) ++ boundary ++ (q ++ [nul]) := by
      rw [hsource]
      simp
    rw [hpos, hsplit]
    exact read_at _ _ _
  have hroom : ¬ maxSize - labelCd.length < boundary.length := by
    have hcd : labelCd.length = 2 := by decide
    have hname : (ascii "boundary").length = 8 := by decide
    simp only [List.length_append] at hsize
    omega
  simp only [findLabel, hmatch, if_true, hvalue, orOutside, bind, Except.bind, takeString,
    if_neg hroom, hread]

theorem cr_disposition (part : FormPart boundary) : cr ∉ part.dispositionLine := by
  intro hin
  rcases List.mem_append.mp hin with hin | hin
  · rcases List.mem_append.mp hin with hin | hin
    · exact absurd hin (by decide)
    · rcases List.mem_cons.mp hin with hin | hin
      · exact absurd hin (by decide)
      · exact part.name_clear _ hin (by simp)
  · exact absurd hin (by decide)

theorem cr_type (part : FormPart boundary) (ht : part.contentType = some t) :
    cr ∉ FormPart.typeLine t := by
  intro hin
  rcases List.mem_append.mp hin with hin | hin
  · exact absurd hin (by decide)
  · exact (part.type_clear t ht).2.1 _ hin (by simp)

/-- The loop from the line with the type on, or from the blank line. -/
theorem loop_type (fuel : Nat) (part : FormPart boundary) (hb : IsBoundary boundary)
    (hcontent : b.content = front ++
      (part.typeLines ++ endl ++ part.content ++ endl ++ (labelCd ++ boundary) ++ rest))
    (hfill : b.fillSize ≤ maxSize) (hp : p.currentIterator = front.length)
    (htype : p.partContentType = []) :
    lineLoop b (labelCd ++ boundary) (fuel + 2) p = .returned true
      ⟨(front ++ part.typeLines ++ endl ++ part.content ++ endl).length, p.partName,
        part.contentType.getD [], some (front ++ part.typeLines ++ endl).length,
        part.content.length⟩ := by
  have hlabel : cr ∉ labelCd ++ boundary := by
    intro hin
    rcases List.mem_append.mp hin with hin | hin
    · exact absurd hin (by decide)
    · exact hb.clear _ hin (by simp)
  have hendl : endl.length = 2 := rfl
  have hblank : ∀ {front p fuel}, b.content = front ++
      (endl ++ part.content ++ endl ++ (labelCd ++ boundary) ++ rest) →
      p.currentIterator = front.length → lineLoop b (labelCd ++ boundary) (fuel + 1) p =
        .returned true { p with
          bufferContent := some (front.length + endl.length)
          bufferContentSize := part.content.length
          currentIterator := front.length + endl.length + part.content.length + endl.length } := by
    intro front p fuel hcontent hp
    have hlt : p.currentIterator < b.fillSize := by
      rw [hp, ← AutoBuffer.content_length, hcontent]
      simp only [List.length_append]
      omega
    exact line_loop_end hlt (line_pass_content hlabel part.content_clear hcontent hfill hp)
  unfold FormPart.typeLines at hcontent ⊢
  cases ht : part.contentType with
  | none =>
    simp only [ht, List.nil_append, List.append_nil] at hcontent ⊢
    rw [hblank hcontent hp]
    simp only [List.length_append, htype, Option.getD_none]
  | some t =>
    simp only [ht] at hcontent ⊢
    have hline : b.content = front ++ (FormPart.typeLine t ++ endl ++
        (endl ++ part.content ++ endl ++ (labelCd ++ boundary) ++ rest)) := by
      rw [hcontent]
      simp only [List.append_assoc]
    have hlt : p.currentIterator < b.fillSize := by
      rw [hp, ← AutoBuffer.content_length, hcontent]
      simp only [List.length_append]
      omega
    have hpass := line_pass_whole (labelCd ++ boundary) (cr_type part ht)
      (by simp [FormPart.typeLine, ascii]) hline hfill hp
    rw [type_line part ht hline hfill hp] at hpass
    have hnext : b.content = (front ++ FormPart.typeLine t ++ endl) ++
        (endl ++ part.content ++ endl ++ (labelCd ++ boundary) ++ rest) := by
      rw [hline]
      simp only [List.append_assoc]
    rw [line_loop_pass hlt hpass, hblank hnext (by simp only [List.length_append])]
    simp only [List.length_append, Option.getD_some, Nat.add_assoc]

/-- A whole form. What stands behind the closing boundary is not looked at. -/
def formData (parts : List (FormPart boundary)) (epilogue : List UInt8) : List UInt8 :=
  parts.flatMap FormPart.text ++ (labelCd ++ boundary ++ (labelCd ++ epilogue))

theorem form_data_label (parts : List (FormPart boundary)) (epilogue : List UInt8) :
    ∃ rest, formData parts epilogue = labelCd ++ boundary ++ rest := by
  cases parts with
  | nil => exact ⟨_, rfl⟩
  | cons part parts =>
    exact ⟨_, by simp only [formData, List.flatMap_cons, FormPart.text, FormPart.head,
      List.append_assoc]; rfl⟩

namespace HttpHeader

/-- The parts that repeated calls return, each of them with empty strings to
begin with: their names, types and contents. -/
def formParts (h : HttpHeader) (fuel : Nat) :
    Nat → MultiPart → Option (List (List UInt8 × List UInt8 × List UInt8))
  | 0, _ => none
  | calls + 1, m =>
    match h.getMultiPart fuel { m with partName := [], partContentType := [] } with
    | .returned true m => do
      let content ← Blocks.read h.abBody.buffer (← m.bufferContent) m.bufferContentSize
      let others ← h.formParts fuel calls m
      some ((m.partName, m.partContentType, content) :: others)
    | .returned false _ => some []
    | _ => none

/-- A request with a form: its type gives the boundary, and there is no larger
allocation than there can be. -/
structure HasForm (h : HttpHeader) (boundary : List UInt8) : Prop where
  isBoundary : IsBoundary boundary
  contentType : ∃ gap q, (∀ c ∈ gap, c = space) ∧ (q = [] ∨ q = [quote]) ∧
    h.getHeaderParameter (ascii "Content-Type") none = some (formType gap q boundary)
  header_le : h.abHeader.fullSize ≤ maxSize
  body_le : h.abBody.fullSize ≤ maxSize

variable {h : HttpHeader}

theorem HasForm.start (hf : HasForm h boundary) (m : MultiPart) :
    h.multiPartStart m = (do
      let m ← passLabel h.abBody (labelCd ++ boundary) m
      .ok (labelCd ++ boundary, m)) := by
  obtain ⟨gap, q, hgap, hq, htype⟩ := hf.contentType
  have hlen : (formType gap q boundary).length ≤ maxSize :=
    (header_parameter_length htype).trans hf.header_le
  rw [multiPartStart, htype]
  simp only [find_label_form hf.isBoundary hq hgap hlen, bind, Except.bind]

/-- A call with an empty type at a part's boundary returns the part, and leaves
the iterator at the next one. -/
theorem HasForm.get_part (fuel : Nat) (hf : HasForm h boundary) (part : FormPart boundary)
    (hbody : h.getBody = front ++ (part.text ++ (labelCd ++ boundary ++ rest)))
    {m : MultiPart} (hm : m.currentIterator = front.length) (htype : m.partContentType = []) :
    h.getMultiPart (fuel + 3) m = .returned true
      ⟨(front ++ part.text).length, part.name, part.contentType.getD [],
        some (front ++ part.head).length, part.content.length⟩ := by
  have hfill : h.abBody.fillSize ≤ maxSize := h.abBody.ready_le.trans hf.body_le
  have hlabel : 0 < (labelCd ++ boundary).length := by
    rw [List.length_append]
    exact Nat.lt_of_lt_of_le (by decide : 0 < labelCd.length) (Nat.le_add_right ..)
  have hfirst : h.abBody.content = front ++ (labelCd ++ boundary ++ (endl ++
      (part.dispositionLine ++ endl ++ (part.typeLines ++ endl ++ part.content ++ endl ++
        (labelCd ++ boundary) ++ rest)))) := by
    refine hbody.trans ?_
    simp only [FormPart.text, FormPart.head, List.append_assoc]
  have hline : h.abBody.content = (front ++ (labelCd ++ boundary) ++ endl) ++
      (part.dispositionLine ++ endl ++ (part.typeLines ++ endl ++ part.content ++ endl ++
        (labelCd ++ boundary) ++ rest)) := by
    rw [hfirst]
    simp only [List.append_assoc]
  have hnext : h.abBody.content =
      (front ++ (labelCd ++ boundary) ++ endl ++ part.dispositionLine ++ endl) ++
        (part.typeLines ++ endl ++ part.content ++ endl ++ (labelCd ++ boundary) ++ rest) := by
    rw [hline]
    simp only [List.append_assoc]
  have hlt : (front ++ (labelCd ++ boundary) ++ endl).length < h.abBody.fillSize := by
    have hpos : 0 < endl.length := by decide
    rw [← AutoBuffer.content_length, hline]
    simp only [List.length_append]
    omega
  have hpass := line_pass_whole (labelCd ++ boundary) (cr_disposition part)
    (by simp [FormPart.dispositionLine]) hline hfill
    (p := { m with currentIterator := (front ++ (labelCd ++ boundary) ++ endl).length }) rfl
  rw [disposition_line part hline hfill rfl] at hpass
  have hloop := loop_type fuel part hf.isBoundary hnext hfill
    (p := ⟨(front ++ (labelCd ++ boundary) ++ endl).length + part.dispositionLine.length +
      endl.length, part.name, m.partContentType, m.bufferContent, m.bufferContentSize⟩)
    (by simp only [List.length_append]) htype
  rw [getMultiPart, hf.start, pass_label_line hlabel hfirst hfill hm]
  simp only [bind, Except.bind]
  refine (line_loop_pass hlt hpass).trans (hloop.trans ?_)
  simp only [FormPart.text, FormPart.head, List.append_assoc]

theorem HasForm.get_end (fuel : Nat) (hf : HasForm h boundary)
    (hbody : h.getBody = front ++ (labelCd ++ boundary ++ (labelCd ++ rest))) {m : MultiPart}
    (hm : m.currentIterator = front.length) : h.getMultiPart fuel m =
      .returned false { m with currentIterator := (front ++ (labelCd ++ boundary)).length } := by
  have hfill : h.abBody.fillSize ≤ maxSize := h.abBody.ready_le.trans hf.body_le
  have hlabel : 0 < (labelCd ++ boundary).length := by
    rw [List.length_append]
    exact Nat.lt_of_lt_of_le (by decide : 0 < labelCd.length) (Nat.le_add_right ..)
  rw [getMultiPart, hf.start, pass_label_close hlabel hbody hfill hm]
  simp only [bind, Except.bind]

theorem HasForm.parts_from (hf : HasForm h boundary) (parts : List (FormPart boundary))
    (hbody : h.getBody = front ++ formData parts epilogue) {m : MultiPart}
    (hm : m.currentIterator = front.length) (hcalls : parts.length < calls) :
    h.formParts (fuel + 3) calls m = some (parts.map FormPart.entry) := by
  induction parts generalizing front m calls with
  | nil =>
    obtain ⟨calls, rfl⟩ := Nat.exists_eq_add_of_lt hcalls
    have hcall := hf.get_end (fuel + 3) hbody
      (m := { m with partName := [], partContentType := [] }) hm
    rw [formParts, hcall]
    rfl
  | cons part parts ih =>
    obtain ⟨calls, rfl⟩ := Nat.exists_eq_add_of_lt hcalls
    obtain ⟨rest, hrest⟩ := form_data_label parts epilogue
    have hsplit : formData (part :: parts) epilogue = part.text ++ formData parts epilogue := by
      simp only [formData, List.flatMap_cons, List.append_assoc]
    have hpart : h.getBody = front ++ (part.text ++ (labelCd ++ boundary ++ rest)) := by
      rw [hbody, hsplit, hrest]
    have hcontent : Blocks.read h.abBody.buffer (front ++ part.head).length part.content.length =
        some part.content := by
      have hbuffer : h.abBody.buffer = (front ++ part.head) ++ part.content ++
          (endl ++ (labelCd ++ boundary ++ rest) ++ h.abBody.stale) := by
        refine h.abBody.buffer_split.trans ?_
        change h.getBody ++ _ = _
        rw [hpart, FormPart.text]
        simp only [List.append_assoc]
      rw [hbuffer]
      exact read_at _ _ _
    have hbehind : h.getBody = (front ++ part.text) ++ formData parts epilogue := by
      rw [hbody, hsplit, List.append_assoc]
    have hothers : h.formParts (fuel + 3) ((part :: parts).length + calls)
        ⟨(front ++ part.text).length, part.name, part.contentType.getD [],
          some (front ++ part.head).length, part.content.length⟩ =
          some (parts.map FormPart.entry) :=
      ih hbehind rfl (by rw [List.length_cons]; omega)
    have hcall := hf.get_part fuel part hpart
      (m := { m with partName := [], partContentType := [] }) hm rfl
    rw [formParts, hcall]
    simp only [Option.bind_eq_bind, Option.bind_some, hcontent, List.map_cons]
    rw [hothers]
    rfl

/-- A form that was written is read back part by part, and then comes the end. -/
theorem form_round_trip (hf : HasForm h boundary) (parts : List (FormPart boundary))
    (epilogue : List UInt8) (hbody : h.getBody = formData parts epilogue) (m : MultiPart)
    (hm : m.currentIterator = 0) (hfuel : 3 ≤ fuel) (hcalls : parts.length < calls) :
    h.formParts fuel calls m = some (parts.map FormPart.entry) := by
  obtain ⟨fuel, rfl⟩ := Nat.exists_eq_add_of_le' hfuel
  have hstart : h.getBody = [] ++ formData parts epilogue := hbody
  exact hf.parts_from parts hstart hm hcalls

/-- A request with nothing but a type and a body. -/
def ofForm (contentType body : List UInt8) : HttpHeader :=
  { HttpHeader.new fun _ => nul with
    abHeader :=
      ⟨ascii "Content-Type" ++ nul :: contentType ++ [nul], 0, fun _ => nul, Nat.zero_le _⟩
    abBody := ⟨body, body.length, fun _ => nul, Nat.le_refl _⟩
    headerValues := [(0, 13)] }

/-- The first content begins like the boundary behind it. -/
def imageParts : List (FormPart (ascii "xyz")) :=
  [⟨ascii "a b;c=d", some (ascii "image/png"), cr :: lf :: ascii "--xy", by decide +kernel,
    by decide +kernel, by decide +kernel⟩,
    ⟨[], none, [], nofun, by decide +kernel, by decide +kernel⟩]

theorem form_round_trip_image :
    (ofForm (formType [space] [] (ascii "xyz")) (formData imageParts endl)).formParts 3 3
        ⟨0, [], [], none, 0⟩ =
      some [(ascii "a b;c=d", ascii "image/png", cr :: lf :: ascii "--xy"), ([], [], [])] :=
  form_round_trip
    { isBoundary := ⟨by decide, by decide +kernel⟩
      contentType := ⟨[space], [], by decide +kernel, .inl rfl, by decide +kernel⟩
      header_le := by decide +kernel
      body_le := by decide +kernel }
    imageParts endl (by decide +kernel) _ rfl (by decide) (by decide)

end HttpHeader

end Khorost
