import Khorost.Proofs.NameCase

namespace Khorost

open Scan

namespace Field

/-- The letter case of the name makes no difference to the parser. -/
def AnyCase (f : Field) : Prop :=
  strcaseEq (ascii "Cookie") f.key = false ∧
    (strcaseEq (ascii "Content-Length") f.key = true → atoi f.text = -1)

instance (f : Field) : Decidable f.AnyCase := inferInstanceAs (Decidable (_ ∧ _))

/-- The same field with its name in other letter cases. -/
structure Recased (f f' : Field) : Prop where
  key : strcaseEq f.key f'.key = true
  value : f.value = f'.value

variable {f f' : Field}

theorem Recased.refl (f : Field) : f.Recased f := ⟨by simp [strcaseEq], rfl⟩

theorem Recased.text (h : f.Recased f') : f.text = f'.text := by
  rw [Field.text, Field.text, h.value]

theorem Recased.any_case (h : f.Recased f') (hf : f.AnyCase) : f'.AnyCase := by
  unfold AnyCase
  rw [← strcase_same h.key, ← strcase_same h.key, ← h.text]
  exact hf

theorem Recased.key_length (h : f.Recased f') : f.key.length = f'.key.length := by
  have hkey := h.key
  rw [strcase_clear f.key_no_nul f'.key_no_nul] at hkey
  simpa using congrArg List.length (beq_iff_eq.mp hkey)

theorem Recased.line_length (h : f.Recased f') : f.line.length = f'.line.length := by
  simp only [line, List.length_append, List.length_cons, h.key_length, h.value]

theorem lines_length (h : List.Forall₂ Recased left left') :
    (left.flatMap line).length = (left'.flatMap line).length := by
  induction h with
  | nil => rfl
  | cons hf _ ih =>
    rw [List.flatMap_cons, List.flatMap_cons, List.length_append, List.length_append, ih,
      hf.line_length]

theorem AnyCase.not_cookie (hf : f.AnyCase) (pending : Bool) :
    (storedField (pending, f)).1 ≠ ascii "Cookie" := by
  intro h
  cases pending with
  | false =>
    have hkey : f.key = ascii "Cookie" := h
    have hcase := hf.1
    rw [hkey] at hcase
    exact absurd hcase (by decide)
  | true =>
    have hhead : (ascii "Cookie").head? = some lf := by
      rw [← h]
      rfl
    exact absurd hhead (by decide)

theorem AnyCase.same_length (hf : f.AnyCase) (pending : Bool) (v : View) :
    (v.addField (storedField (pending, f))).contentLength = v.contentLength := by
  rw [View.addField]
  dsimp only
  split
  · rename_i h
    obtain ⟨hnone, hname⟩ := h
    have hkey : f.key = ascii "Content-Length" := (Request.stored_length hname).2
    have hvalue : atoi f.text = -1 := hf.2 (by rw [hkey]; decide)
    have htext : (storedField (pending, f)).2 = f.text := rfl
    rw [htext, hvalue, hnone]
    rfl
  · rfl

theorem Recased.stored (h : f.Recased f') (hf : f.AnyCase) (pending : Bool) :
    SameField (storedField (pending, f)) (storedField (pending, f')) := by
  refine ⟨?_, h.text, ?_⟩
  · have hkey := h.key
    simp only [strcaseEq, beq_iff_eq] at hkey ⊢
    cases pending with
    | false => exact hkey
    | true => exact congrArg (toLower lf :: ·) hkey
  · exact iff_of_false (hf.not_cookie pending) ((h.any_case hf).not_cookie pending)

end Field

namespace View

/-- A line feed whose carriage return has been taken stands in front of the name. -/
def stray (pending : Bool) : List UInt8 := if pending then [lf] else []

variable {v v' : View} {f f' : Field} {p p' more more' tail : List UInt8}

theorem stray_line (pending : Bool) (f : Field) : stray pending ++ f.line =
    (storedField (pending, f)).1 ++ colon :: (f.value ++ [cr, lf]) := by
  cases pending <;> rfl

theorem lines_part (v : View) (hp : p <+: (storedField s).1 ++ colon :: s.2.value) :
    v.readLines p = (v, p) := by
  rcases Nat.lt_or_ge p.length 2 with hshort | hlong
  · exact lines_short v hshort
  · have hhead : p.head? ≠ some cr := by
      obtain ⟨after, hafter⟩ := hp
      have := Request.name_head s s.2.value
      rw [← hafter] at this
      cases p with
      | nil => simp
      | cons c p => exact this
    refine lines_waits v hlong (HttpHeader.not_blank hhead) ?_
    rcases prefix_split hp with hkey | ⟨q, rfl, hq⟩
    · exact .inl (open_in_part space hkey (Request.name_no_colon s))
    · exact .inr ⟨_, _, _, _, Request.name_token s q,
        open_in_part space hq (Request.value_no_end s.2)⟩

theorem lines_stored (v : View) (s : Bool × Field) (q : List UInt8) :
    v.readLines ((storedField s).1 ++ colon :: (s.2.value ++ cr :: q)) =
      (v.addField (storedField s)).readLines (afterLineEnd q) := by
  obtain ⟨gap, -, hvalue⟩ := Request.value_token s.2 q
  have hname : nul ∉ (storedField s).1 := fun hc => Request.stored_name_clear s _ hc (by simp)
  have hlong : 2 ≤ ((storedField s).1 ++ colon :: (s.2.value ++ cr :: q)).length := by
    simp only [List.length_append, List.length_cons]
    omega
  rw [lines_field v hlong (HttpHeader.not_blank (Request.name_head s _)) (Request.name_token s _)
    hvalue, c_str_self hname, c_str_self (Request.text_no_nul s.2)]
  rfl

/-- What the loop finds of a line: a part of it, or all but perhaps its line feed. -/
theorem line_read (v : View) (f : Field)
    (hp : p ++ more = stray pending ++ (f.line ++ tail)) :
    (p.length ≤ (stray pending).length + f.key.length + 1 + f.value.length ∧
      v.readLines p = (v, p)) ∨
    ∃ pending' q, (stray pending).length + f.key.length + 1 + f.value.length < p.length ∧
      v.readLines p = (v.addField (storedField (pending, f))).readLines q ∧
      q ++ more = stray pending' ++ tail ∧
      pending' = decide (p.length = (stray pending).length + f.key.length + 2 + f.value.length) ∧
      q.length = p.length - ((stray pending).length + f.key.length + 3 + f.value.length) := by
  have hname : (storedField (pending, f)).1.length = (stray pending).length + f.key.length := by
    cases pending
    · exact (Nat.zero_add _).symm
    · exact Nat.add_comm _ _
  have hsplit : p ++ more =
      ((storedField (pending, f)).1 ++ colon :: f.value) ++ cr :: (lf :: tail) := by
    rw [hp, ← List.append_assoc, stray_line]
    simp
  rcases append_split hsplit with hpart | ⟨q, rfl, hrest⟩
  · refine .inl ⟨?_, lines_part (s := (pending, f)) v hpart⟩
    have hle := hpart.length_le
    rw [List.length_append, List.length_cons, hname] at hle
    omega
  · have hjoin : (storedField (pending, f)).1 ++ colon :: f.value ++ cr :: q =
        (storedField (pending, f)).1 ++ colon :: (f.value ++ cr :: q) := by simp
    have hread := lines_stored v (pending, f) q
    rw [hjoin]
    have hlen : ((storedField (pending, f)).1 ++ colon :: (f.value ++ cr :: q)).length =
        (stray pending).length + f.key.length + 2 + f.value.length + q.length := by
      simp only [List.length_append, List.length_cons, hname]
      omega
    generalize (storedField (pending, f)).1 ++ colon :: (f.value ++ cr :: q) = p at hlen hread ⊢
    right
    cases q with
    | nil =>
      rw [List.length_nil, Nat.add_zero] at hlen
      exact ⟨true, [], by omega, hread, hrest, by rw [hlen]; simp, by rw [hlen]; simp⟩
    | cons c q =>
      obtain ⟨rfl, hq⟩ := List.cons.inj hrest
      rw [List.length_cons] at hlen
      exact ⟨false, q, by omega, hread, hq, by rw [hlen]; simp, by omega⟩

/-- What is still to come to the two: header lines with their names in different
letter cases, as long as these make no difference, and the same behind them. -/
inductive Ahead (phase : Phase) (s s' : List UInt8) : Prop
  | lines (pending : Bool) (left left' : List Field) (tail : List UInt8)
      (hleft : List.Forall₂ Field.Recased left left') (hcase : ∀ f ∈ left, f.AnyCase)
      (hphase : phase = .processingNext)
      (hs : s = stray pending ++ (left.flatMap Field.line ++ tail))
      (hs' : s' = stray pending ++ (left'.flatMap Field.line ++ tail))
  | same (hphase : phase ≠ .processingFirst) (h : s = s')

/-- Two outcomes with as much taken of each of the two texts. -/
structure RecasedRead (more more' : List UInt8) (r r' : View × List UInt8) : Prop where
  view : r.1.Like r'.1
  length : r.2.length = r'.2.length
  ahead : Ahead r.1.headerProcess (r.2 ++ more) (r'.2 ++ more')

theorem LikeRead.recased {r r' : View × List UInt8} (h : LikeRead r r')
    (hphase : r.1.headerProcess ≠ .processingFirst) : RecasedRead more more r r' :=
  ⟨h.view, congrArg List.length h.rest, .same hphase (by rw [h.rest])⟩

theorem lines_phase (hv : v.headerProcess ≠ .processingFirst) (p : List UInt8) :
    (v.readLines p).1.headerProcess ≠ .processingFirst :=
  lines_keep (I := fun v _ => v.headerProcess ≠ .processingFirst)
    (fun _ _ _ => Phase.noConfusion) (fun _ _ _ _ _ _ _ _ _ _ h _ _ => h) p v hv

/-- The lines that have arrived, by induction on those still to come. -/
theorem lines_recased (hleft : List.Forall₂ Field.Recased left left')
    (hcase : ∀ f ∈ left, f.AnyCase) (hlike : v.Like v') (hphase : v.headerProcess = .processingNext)
    (hlen : p.length = p'.length)
    (hp : p ++ more = stray pending ++ (left.flatMap Field.line ++ tail))
    (hp' : p' ++ more' = stray pending ++ (left'.flatMap Field.line ++ tail)) :
    RecasedRead more more' (v.readLines p) (v'.readLines p') := by
  induction hleft generalizing v v' p p' pending with
  | nil =>
    obtain ⟨rfl, rfl⟩ := List.append_inj (hp.trans hp'.symm) hlen
    exact (hlike.read_lines p).recased (lines_phase (by rw [hphase]; decide) p)
  | @cons f f' left left' hf hleft ih =>
    have hwhole := hp
    have hwhole' := hp'
    rw [List.flatMap_cons, List.append_assoc] at hp hp'
    have hkey := hf.key_length
    rcases line_read v f hp with ⟨hshort, hread⟩ | ⟨pending₁, q, hlong, hread, hq, hflag, hsize⟩
    · rcases line_read v' f' hp' with ⟨-, hread'⟩ | ⟨_, _, hlong', -⟩
      · rw [hread, hread']
        exact ⟨hlike, hlen, .lines pending (f :: left) (f' :: left') tail (.cons hf hleft) hcase
          hphase hwhole hwhole'⟩
      · rw [← hf.value] at hlong'
        omega
    · rcases line_read v' f' hp' with ⟨hshort', -⟩ | ⟨pending₁', q', -, hread', hq', hflag', hsize'⟩
      · rw [← hf.value] at hshort'
        omega
      · rw [← hf.value, ← hkey, ← hlen] at hflag' hsize'
        obtain rfl := hflag.trans hflag'.symm
        have hany := hcase f List.mem_cons_self
        have hadd := hlike.add_field (hf.stored hany pending) (by
          rw [hany.same_length, (hf.any_case hany).same_length, hlike.contentLength])
        rw [hread, hread']
        exact ih (fun g hg => hcase g (List.mem_cons_of_mem f hg)) hadd hphase
          (hsize.trans hsize'.symm) hq hq'

theorem body_keeps_phase (v : View) (p : List UInt8) :
    (v.readBody p).1.headerProcess = v.headerProcess := by
  unfold readBody
  dsimp only
  repeat' split
  all_goals rfl

/-- A call that has come to the body reads the same text in both. -/
theorem RecasedRead.read_body {r r' : View × List UInt8} (h : RecasedRead more more' r r')
    (hr : r.1.Sound) :
    RecasedRead more more' (r.1.readBody r.2) (r'.1.readBody r'.2) := by
  by_cases hbody : r.1.bodyProcess = .processingFirst
  · have hdone := hr.header_done hbody
    cases h.ahead with
    | lines _ _ _ _ _ _ hphase =>
      rw [hdone] at hphase
      cases hphase
    | same hphase hsame =>
      obtain ⟨hrest, rfl⟩ := List.append_inj hsame h.length
      rw [← hrest]
      exact (h.view.read_body r.2).recased (by rw [body_keeps_phase]; exact hphase)
  · have hbody' : r'.1.bodyProcess ≠ .processingFirst := by rwa [← h.view.bodyProcess]
    rw [readBody, if_neg hbody, readBody, if_neg hbody']
    exact h

theorem read_recased (hlike : v.Like v') (hv : v.Sound)
    (hlen : p.length = p'.length) (ha : Ahead v.headerProcess (p ++ more) (p' ++ more')) :
    RecasedRead more more' (v.read p) (v'.read p') := by
  cases ha with
  | lines pending left left' tail hleft hcase hphase hs hs' =>
    have hphase' : v'.headerProcess = .processingNext := hlike.headerProcess ▸ hphase
    have hlines := lines_recased hleft hcase hlike hphase hlen hs hs'
    have hb : v.bodyProcess ≠ .successful := by
      rw [hv.body (by rw [hphase]; decide)]
      decide
    rw [View.read, hphase, View.read, hphase']
    exact hlines.read_body (lines_sound hv hb p)
  | same hphase hsame =>
    obtain ⟨rfl, rfl⟩ := List.append_inj hsame hlen
    refine (hlike.read hphase p).recased ?_
    unfold View.read
    split
    · rename_i hfirst
      exact absurd hfirst hphase
    · rw [readNext, body_keeps_phase]
      exact lines_phase hphase p
    · rw [body_keeps_phase]
      exact hphase

end View

end Khorost
