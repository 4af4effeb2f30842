import Khorost.Proofs.Heads
import Khorost.Proofs.RoundTrip

namespace Khorost

open Scan

/-- The same field, but for the letter case of its name. Both are a `Cookie` or
neither is. -/
structure SameField (f f' : List UInt8 × List UInt8) : Prop where
  key : strcaseEq f.1 f'.1 = true
  value : f.2 = f'.2
  cookie : f.1 = ascii "Cookie" ↔ f'.1 = ascii "Cookie"

theorem SameField.refl (f : List UInt8 × List UInt8) : SameField f f :=
  ⟨by simp [strcaseEq], rfl, Iff.rfl⟩

theorem strcase_same (h : strcaseEq a b = true) (key : List UInt8) :
    strcaseEq key a = strcaseEq key b := by
  simp only [strcaseEq, beq_iff_eq] at h
  rw [strcaseEq, strcaseEq, h]

theorem strcase_symm (h : strcaseEq a b = true) : strcaseEq b a = true := by
  simp only [strcaseEq, beq_iff_eq] at h ⊢
  exact h.symm

theorem SameField.shown (h : SameField f f') : shownValue f = shownValue f' := by
  unfold shownValue
  by_cases hc : f.1 = ascii "Cookie"
  · rw [if_pos hc, if_pos (h.cookie.mp hc), h.value]
  · rw [if_neg hc, if_neg (mt h.cookie.mpr hc), h.value]

theorem same_lookup (h : List.Forall₂ SameField fields fields') (param : List UInt8)
    (defaultValue : Option (List UInt8)) :
    lookupField fields param defaultValue = lookupField fields' param defaultValue := by
  have hfind := find_related (p := fun f => strcaseEq param f.1)
    (q := fun f => strcaseEq param f.1) h fun f f' hf => strcase_same hf.key param
  rw [lookupField, lookupField]
  generalize fields.find? _ = found at hfind
  generalize fields'.find? _ = found' at hfind
  cases hfind with
  | some hf => exact congrArg some hf.shown
  | none => rfl

theorem same_cookies (h : List.Forall₂ SameField fields fields') :
    cookiesOf fields = cookiesOf fields' := by
  induction h with
  | nil => rfl
  | @cons f f' fields fields' hf _ ih =>
    have hhead : (if f.1 = ascii "Cookie" then pairsOf semicolon true f.2 else []) =
        if f'.1 = ascii "Cookie" then pairsOf semicolon true f'.2 else [] := by
      rw [hf.value]
      exact if_congr hf.cookie rfl rfl
    rw [cookiesOf, List.flatMap_cons, hhead]
    exact congrArg _ ih

theorem same_form (h : List.Forall₂ SameField fields fields') :
    isFormFields fields = isFormFields fields' := by
  rw [isFormFields, same_lookup h, isFormFields]

namespace View

/-- The two views show the same, but for the letter case of the field names. -/
structure Like (v v' : View) : Prop where
  others : v' = { v with fields := v'.fields }
  fields : List.Forall₂ SameField v.fields v'.fields

theorem Like.refl (v : View) : v.Like v :=
  ⟨rfl, List.forall₂_same.mpr fun f _ => SameField.refl f⟩

variable {v v' : View}

theorem Like.headerProcess (h : v.Like v') : v.headerProcess = v'.headerProcess := by
  rw [h.others]

theorem Like.bodyProcess (h : v.Like v') : v.bodyProcess = v'.bodyProcess := by
  rw [h.others]

theorem Like.contentLength (h : v.Like v') : v.contentLength = v'.contentLength := by
  rw [h.others]

theorem Like.pairs (h : v.Like v') : v.pairs = v'.pairs := by
  rw [h.others]

theorem Like.body (h : v.Like v') : v.body = v'.body := by
  rw [h.others]

/-- A field behind each of them keeps them alike if it means the same length to both. -/
theorem Like.add_field (h : v.Like v') (hf : SameField f f')
    (hlength : (v.addField f).contentLength = (v'.addField f').contentLength) :
    (v.addField f).Like (v'.addField f') := by
  refine ⟨?_, List.rel_append h.fields (.cons hf .nil)⟩
  have hothers : v'.addField f' = { v with
      fields := v'.fields ++ [f']
      contentLength := (v'.addField f').contentLength } := by
    rw [h.others]
    rfl
  rw [hothers, ← hlength]
  rfl

theorem Like.add_same (h : v.Like v') (f : List UInt8 × List UInt8) :
    (v.addField f).Like (v'.addField f) := by
  refine h.add_field (.refl f) ?_
  simp only [addField, h.contentLength]

theorem Like.blank (h : v.Like v') :
    Like { v with headerProcess := .successful, bodyProcess := .processingFirst }
      { v' with headerProcess := .successful, bodyProcess := .processingFirst } := by
  refine ⟨?_, h.fields⟩
  conv_lhs => rw [h.others]

/-- The outcome of a call is the same for both. -/
structure LikeRead (r r' : View × List UInt8) : Prop where
  view : r.1.Like r'.1
  rest : r.2 = r'.2

theorem Like.read_lines (h : v.Like v') (p : List UInt8) :
    LikeRead (v.readLines p) (v'.readLines p) := by
  induction hlen : p.length using Nat.strongRecOn generalizing p v v' with
  | _ len ih =>
    subst hlen
    rcases line_pass p with hp | ⟨rest, rfl⟩ | ⟨hp, hc, ho⟩ | ⟨hp, hc, _, _, _, _, _, rest, _, _, hk, hv⟩
    · rw [lines_short v hp, lines_short v' hp]
      exact ⟨h, rfl⟩
    · rw [lines_blank, lines_blank]
      exact ⟨h.blank, rfl⟩
    · rw [lines_waits v hp hc ho, lines_waits v' hp hc ho]
      exact ⟨h, rfl⟩
    · rw [lines_field v hp hc hk hv, lines_field v' hp hc hk hv]
      have hk' := hk.length
      have hv' := hv.length
      have hend := after_line_end_length rest
      exact ih _ (by omega) (h.add_same _) _ rfl

theorem Like.read_body (h : v.Like v') (p : List UInt8) :
    LikeRead (v.readBody p) (v'.readBody p) := by
  have hform := same_form h.fields
  obtain ⟨hothers, hfields⟩ := h
  generalize v'.fields = fields' at hothers hfields hform
  subst hothers
  have hlength : ∀ n, finishedLength v.query fields' n = finishedLength v.query v.fields n := by
    intro n
    simp only [finishedLength, hform]
  have htext : ∀ b, queryText v.query fields' b = queryText v.query v.fields b := by
    intro b
    simp only [queryText, hform]
  unfold readBody
  change LikeRead (if v.bodyProcess = .processingFirst then _ else _)
    (if v.bodyProcess = .processingFirst then _ else _)
  split
  · change LikeRead (if v.contentLength = npos ∨ p = [] ∧ v.contentLength = 0 then _ else _)
      (if v.contentLength = npos ∨ p = [] ∧ v.contentLength = 0 then _ else _)
    split
    · exact ⟨⟨rfl, hfields⟩, rfl⟩
    · change LikeRead (if p.take v.contentLength = [] then _ else _)
        (if p.take v.contentLength = [] then _ else _)
      split
      · exact ⟨⟨rfl, hfields⟩, rfl⟩
      · dsimp only
        split
        · refine ⟨⟨?_, hfields⟩, rfl⟩
          change finish _ (finishedLength v.query fields' _) (queryText v.query fields' _) = _
          rw [hlength, htext]
          rfl
        · exact ⟨⟨rfl, hfields⟩, rfl⟩
  · exact ⟨⟨rfl, hfields⟩, rfl⟩

theorem Like.read_next (h : v.Like v') (p : List UInt8) :
    LikeRead (v.readNext p) (v'.readNext p) := by
  have hlines := h.read_lines p
  rw [readNext, readNext, ← hlines.rest]
  exact hlines.view.read_body _

/-- Behind the first line what both read of one text is the same. -/
theorem Like.read (h : v.Like v') (hv : v.headerProcess ≠ .processingFirst) (p : List UInt8) :
    LikeRead (v.read p) (v'.read p) := by
  unfold View.read
  rw [← h.headerProcess]
  split
  · rename_i hp
    exact absurd hp hv
  · exact h.read_next p
  · exact h.read_body p

end View

end Khorost
