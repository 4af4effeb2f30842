import Khorost.Lib.SqlLiteral
import Khorost.Proofs.QueryText

namespace Khorost

open Blocks

variable {realloc : Realloc UInt8} {q : Query} {front back psTag target rsValue : List UInt8}

theorem Query.replace_tag_at (hr : Succeeds realloc) (h : q.abQuery.Holds (front ++ psTag ++ back))
    (hfirst : ∀ i < front.length, ¬ psTag <+: (front ++ psTag ++ back).drop i)
    (hn : (front ++ target ++ back).length < 2 ^ 63) :
    ∃ q', q.replaceTag realloc psTag target = some q' ∧ q'.abQuery.Holds (front ++ target ++ back) := by
  have hreplaced : replaceFirst psTag target (front ++ psTag ++ back) =
      some (front ++ target ++ back) := by
    cases hfound : replaceFirst psTag target (front ++ psTag ++ back) with
    | none => exact absurd rfl (replace_first_none hfound front back)
    | some ys =>
      obtain ⟨front', back', hsplit, rfl, hbefore⟩ := replace_first_some hfound
      have hlen : front'.length = front.length := by
        refine Nat.le_antisymm (hbefore front back rfl) (Nat.le_of_not_lt fun hlt => ?_)
        refine hfirst front'.length hlt ?_
        rw [hsplit, List.append_assoc, List.drop_left]
        exact List.prefix_append _ _
      rw [List.append_assoc, List.append_assoc] at hsplit
      obtain ⟨rfl, hrest⟩ := List.append_inj hsplit hlen.symm
      obtain rfl := List.append_cancel_left hrest
      rfl
  have hsmall : ((replaceFirst psTag target (front ++ psTag ++ back)).getD
      (front ++ psTag ++ back)).length < 2 ^ 63 := by
    rw [hreplaced]
    exact hn
  obtain ⟨b, hb, hholds⟩ := h.replace hr hsmall
  rw [hreplaced] at hholds
  exact ⟨⟨q.connection, b⟩, by rw [replaceTag, hb]; rfl, hholds⟩

/-- The query holds a text with one literal for the value in the place of the tag. -/
def PutsLiteral (front back value : List UInt8) (q : Option Query) : Prop :=
  ∃ q' literal, q = some q' ∧ q'.abQuery.content = front ++ literal ++ back ∧
    SqlLiteral.read literal = some (value, [])

/-- What `BindValue` puts in the place of a tag is one literal with the value that
is bound exactly when that has no quote in it and backslashes only in front of
`%` and `_`. -/
theorem bind_value_literal_iff (hr : Succeeds realloc)
    (h : q.abQuery.Holds (front ++ psTag ++ back))
    (hfirst : ∀ i < front.length, ¬ psTag <+: (front ++ psTag ++ back).drop i)
    (hn : (front ++ (apostrophe :: rsValue ++ [apostrophe]) ++ back).length < 2 ^ 63) :
    PutsLiteral front back rsValue (q.bindValue realloc psTag rsValue) ↔
      SqlLiteral.Plain rsValue := by
  obtain ⟨q', hq', hholds⟩ := Query.replace_tag_at hr h hfirst hn
  rw [← SqlLiteral.read_self_iff]
  constructor
  · rintro ⟨q'', literal, hq'', hcontent, hliteral⟩
    obtain rfl := Option.some.inj (hq'.symm.trans hq'')
    rw [hholds.content] at hcontent
    obtain rfl := List.append_cancel_left (List.append_cancel_right hcontent)
    exact hliteral
  · exact fun hliteral => ⟨q', _, hq', hholds.content, hliteral⟩

def oneTag : Query := ⟨true, ⟨ascii "v=:v:", 5, 5⟩⟩

theorem one_tag_holds : oneTag.abQuery.Holds (ascii "v=" ++ ascii ":v:" ++ []) :=
  ⟨rfl, by decide, rfl, by decide, by decide⟩

theorem half_bound :
    PutsLiteral (ascii "v=") [] (ascii "50\\%")
      (oneTag.bindValue (RawBuffer.allocate fun _ => 0) (ascii ":v:") (ascii "50\\%")) :=
  (bind_value_literal_iff (RawBuffer.allocate_succeeds fun _ => 0) one_tag_holds (by decide)
    (by decide)).mpr (by decide)

/-- A quote in the value ends the literal. -/
theorem quote_ends_literal :
    ¬ ∀ (realloc : Realloc UInt8), Succeeds realloc → ∀ (q : Query) front psTag back rsValue,
      q.abQuery.Holds (front ++ psTag ++ back) →
      (∀ i < front.length, ¬ psTag <+: (front ++ psTag ++ back).drop i) →
      (front ++ (apostrophe :: rsValue ++ [apostrophe]) ++ back).length < 2 ^ 63 →
      PutsLiteral front back rsValue (q.bindValue realloc psTag rsValue) := by
  intro h
  have hr := RawBuffer.allocate_succeeds fun _ => (0 : UInt8)
  have hfirst : ∀ i < (ascii "v=").length,
      ¬ ascii ":v:" <+: (ascii "v=" ++ ascii ":v:" ++ []).drop i := by decide
  obtain ⟨q', literal, hq', hcontent, hliteral⟩ :=
    h _ hr oneTag (ascii "v=") (ascii ":v:") [] (ascii "a' OR '1'='1") one_tag_holds hfirst
      (by decide)
  have hsmall : (ascii "v=" ++ ascii "'a' OR '1'='1'" ++ []).length < 2 ^ 63 := by decide
  obtain ⟨q'', hq'', hholds⟩ := Query.replace_tag_at hr one_tag_holds hfirst hsmall
  obtain rfl := Option.some.inj (hq''.symm.trans hq')
  rw [hholds.content] at hcontent
  obtain rfl := List.append_cancel_left (List.append_cancel_right hcontent)
  exact absurd hliteral (by decide +kernel)

theorem bind_blob_literal (hr : Succeeds realloc)
    (h : q.abQuery.Holds (front ++ psTag ++ back))
    (hfirst : ∀ i < front.length, ¬ psTag <+: (front ++ psTag ++ back).drop i)
    (hn : (front ++ (apostrophe :: SqlLiteral.escapeText blob ++ [apostrophe]) ++ back).length <
      2 ^ 63) (hb : blob.length < 2 ^ 30) :
    PutsLiteral front back blob (q.bindValueBLOB realloc SqlLiteral.escapeText psTag blob) := by
  have hlen := SqlLiteral.escape_text_length blob
  have hread : SqlLiteral.read (apostrophe :: SqlLiteral.escapeText blob ++ [apostrophe]) =
      some (blob, []) := SqlLiteral.read_escape_text blob
  obtain ⟨escaped, he⟩ : ∃ escaped, SqlLiteral.escapeText blob = escaped := ⟨_, rfl⟩
  rw [he] at hlen hn hread
  -- room for the escaped text, its terminator and the quotes
  have hdemand : sizeAdd (sizeMul blob.length 2) 3 = 2 * blob.length + 3 := by
    simp only [sizeAdd, sizeMul]
    omega
  obtain ⟨htemp, hroom⟩ := RawBuffer.holds_empty.check hr (n := 2 * blob.length + 3) (by omega)
  unfold Query.bindValueBLOB
  simp only [hdemand, he]
  generalize RawBuffer.empty.checkSize realloc (2 * blob.length + 3) = temp at htemp hroom
  have hcap := htemp.capacity
  have hsmall := htemp.small
  obtain ⟨x, old, rest, hold, hbuffer⟩ : ∃ x old rest,
      old.length = (escaped ++ [nul]).length ∧ temp.buffer = [x] ++ old ++ rest := by
    cases hbuffer : temp.buffer with
    | nil =>
      rw [hbuffer, List.length_nil] at hcap
      omega
    | cons x tail =>
      rw [hbuffer, List.length_cons] at hcap
      refine ⟨x, tail.take (escaped ++ [nul]).length, tail.drop (escaped ++ [nul]).length, ?_, ?_⟩
      · simp only [List.length_take, List.length_append, List.length_singleton]
        omega
      · simp
  have hescaped : temp.memcpy 1 (escaped ++ [nul]) =
      some { temp with buffer := [x] ++ (escaped ++ [nul]) ++ rest } := by
    rw [RawBuffer.memcpy, hbuffer]
    exact congrArg _ (write_at [x] rest hold)
  have hsize : escaped.length % 2 ^ 32 = escaped.length := Nat.mod_eq_of_lt (by omega)
  have hfill : (escaped.length + 2) % 2 ^ 32 = escaped.length + 2 := Nat.mod_eq_of_lt (by omega)
  have hlast : (escaped.length + 1) % 2 ^ 32 = escaped.length + 1 := Nat.mod_eq_of_lt (by omega)
  have hready : temp.readyPosition = 0 := htemp.fill
  let filled : RawBuffer UInt8 :=
    ⟨[x] ++ (escaped ++ [nul]) ++ rest, temp.fullSize, escaped.length + 2⟩
  have hdecrement : RawBuffer.decrementFreeSize
      { temp with buffer := [x] ++ (escaped ++ [nul]) ++ rest } (escaped.length + 2) = filled := by
    simp only [RawBuffer.decrementFreeSize, hready, sizeAdd, filled]
    rw [if_pos (by omega), Nat.zero_add, Nat.mod_eq_of_lt (by omega)]
  have hopen : filled.memcpy 0 [apostrophe] =
      some { filled with buffer := [apostrophe] ++ (escaped ++ [nul]) ++ rest } := by
    have hone : [x].length = [apostrophe].length := rfl
    have hwrite := write_at [] (escaped ++ [nul] ++ rest) hone
    simp only [RawBuffer.memcpy, filled, List.append_assoc]
    simp only [List.nil_append, List.append_assoc] at hwrite
    exact congrArg _ hwrite
  have hclose : RawBuffer.memcpy { filled with buffer := [apostrophe] ++ (escaped ++ [nul]) ++ rest }
      (escaped.length + 1) [apostrophe] =
      some { filled with buffer := [apostrophe] ++ escaped ++ [apostrophe] ++ rest } := by
    have hone : [nul].length = [apostrophe].length := rfl
    have hwrite := write_at ([apostrophe] ++ escaped) rest hone
    rw [List.length_append, List.length_singleton, Nat.add_comm 1] at hwrite
    simp only [RawBuffer.memcpy]
    rw [← List.append_assoc [apostrophe] escaped, hwrite]
    rfl
  have hcontent : RawBuffer.content
      { filled with buffer := [apostrophe] ++ escaped ++ [apostrophe] ++ rest } =
      apostrophe :: escaped ++ [apostrophe] := by
    simp only [RawBuffer.content, filled]
    exact List.take_left' (by simp)
  obtain ⟨q', hq', hholds⟩ := Query.replace_tag_at hr h hfirst hn
  refine ⟨q', _, ?_, hholds.content, hread⟩
  simp only [hescaped, hsize, hfill, hlast, hdecrement, hopen, hclose, hcontent,
    Option.bind_eq_bind, Option.bind_some, hq']

end Khorost
