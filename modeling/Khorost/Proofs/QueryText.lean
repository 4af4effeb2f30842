import Khorost.Db.MySql
import Khorost.Proofs.Capacity

namespace Khorost

open Blocks

/-- What a call does to the text: it is put behind it, or in the place of the first
occurrence of a tag. -/
inductive Edit
  | append (text : List UInt8)
  | bind (tag target : List UInt8)

def QueryCall.edit : QueryCall → Edit
  | .appendQuery rsQuery => .append rsQuery
  | .expandValue psTag rsValue => .bind psTag rsValue
  | .bindValue psTag rsValue => .bind psTag (apostrophe :: rsValue ++ [apostrophe])
  | .bindValueBool psTag bValue => .bind psTag (if bValue then ascii "1" else ascii "0")
  | .bindValueNumber psTag nValue => .bind psTag (decimalText nValue.toNat)
  | .bindValue64 psTag nValue => .bind psTag (decimalText nValue.toNat)

def Edit.apply (text : List UInt8) : Edit → List UInt8
  | .append more => text ++ more
  | .bind tag target => (replaceFirst tag target text).getD text

namespace Query

def text (text : List UInt8) (calls : List QueryCall) : List UInt8 :=
  calls.foldl (fun text call => call.edit.apply text) text

def Small (text : List UInt8) : List QueryCall → Prop
  | [] => True
  | call :: calls => (call.edit.apply text).length < 2 ^ 63 ∧ Small (call.edit.apply text) calls

instance decideSmall (text : List UInt8) : (calls : List QueryCall) → Decidable (Small text calls)
  | [] => .isTrue trivial
  | call :: calls =>
    have := decideSmall (call.edit.apply text) calls
    inferInstanceAs (Decidable (_ ∧ _))

def editWith (realloc : Realloc UInt8) (q : Query) : Edit → Option Query
  | .append more => q.appendQuery realloc more
  | .bind tag target => q.replaceTag realloc tag target

theorem perform_edit (realloc : Realloc UInt8) (q : Query) (call : QueryCall) :
    q.perform realloc call = q.editWith realloc call.edit := by
  cases call <;> rfl

variable {realloc : Realloc UInt8} {q q' : Query} {s : List UInt8} {calls : List QueryCall}

/-- A call does to the buffer what it does to the text, and the capacity goes by
the length that the text has come to. -/
theorem perform_holds (hr : Succeeds realloc) (h : q.abQuery.Holds s) (call : QueryCall)
    (hn : (call.edit.apply s).length < 2 ^ 63) :
    ∃ q', q.perform realloc call = some q' ∧ q'.abQuery.Holds (call.edit.apply s) ∧
      q'.abQuery.fullSize = RawBuffer.grown q.abQuery.fullSize (call.edit.apply s).length := by
  rw [perform_edit]
  cases hedit : call.edit with
  | append more =>
    rw [hedit] at hn
    obtain ⟨b, hb, hholds⟩ := h.append hr hn
    exact ⟨⟨q.connection, b⟩, by rw [editWith, appendQuery, hb]; rfl, hholds,
      RawBuffer.append_full h hn hb⟩
  | bind tag target =>
    rw [hedit] at hn
    obtain ⟨b, hb, hholds⟩ := h.replace hr hn
    refine ⟨⟨q.connection, b⟩, by rw [editWith, replaceTag, hb]; rfl, hholds, ?_⟩
    have hfull := RawBuffer.replace_full hr h hn hb
    rwa [hholds.fill] at hfull

theorem perform_all_holds (hr : Succeeds realloc) (h : q.abQuery.Holds s) (calls : List QueryCall)
    (hs : Small s calls) :
    ∃ q', q.performAll realloc calls = some q' ∧ q'.abQuery.Holds (text s calls) := by
  induction calls generalizing q s with
  | nil => exact ⟨q, rfl, h⟩
  | cons call calls ih =>
    obtain ⟨q₁, hcall, h₁, -⟩ := perform_holds hr h call hs.1
    obtain ⟨q', hrest, h'⟩ := ih h₁ hs.2
    exact ⟨q', by rw [performAll, hcall]; exact hrest, h'⟩

theorem perform_all_append (realloc : Realloc UInt8) (q : Query) (calls more : List QueryCall) :
    q.performAll realloc (calls ++ more) =
      (q.performAll realloc calls).bind fun q => q.performAll realloc more := by
  induction calls generalizing q with
  | nil => rfl
  | cons call calls ih =>
    rw [List.cons_append, performAll, performAll]
    cases q.perform realloc call with
    | none => rfl
    | some q => exact ih q

theorem small_append (s : List UInt8) (calls more : List QueryCall) :
    Small s (calls ++ more) ↔ Small s calls ∧ Small (text s calls) more := by
  induction calls generalizing s with
  | nil => exact ⟨fun h => ⟨trivial, h⟩, fun h => h.2⟩
  | cons call calls ih =>
    rw [List.cons_append, Small, Small, ih, and_assoc]
    rfl

/-- Where the terminator of `Execute` goes is a place of the buffer. -/
structure Terminated (q : Query) : Prop where
  below : q.abQuery.readyPosition < q.abQuery.fullSize
  written : q.terminate.isSome

theorem terminated_iff (h : q.abQuery.Holds s) :
    q.Terminated ↔ q.abQuery.readyPosition < q.abQuery.fullSize := by
  refine ⟨fun ht => ht.below, fun hlt => ⟨hlt, ?_⟩⟩
  have hroom : q.abQuery.readyPosition + [nul].length ≤ q.abQuery.buffer.length := by
    rw [h.capacity]
    exact hlt
  simp only [terminate, RawBuffer.memcpy, write, if_pos hroom]
  rfl

end Query

open Query

/-- After any calls on a new query the terminator has a place exactly when there
has been a call, and the last one has not left a text as long as the capacity was
before it. -/
theorem terminator_inside_iff (hr : Succeeds realloc) (connection : Bool)
    (calls : List QueryCall) (hs : Small [] calls) :
    (∃ q, (Query.new connection).performAll realloc calls = some q ∧ q.Terminated) ↔
      ∃ before last q, calls = before ++ [last] ∧
        (Query.new connection).performAll realloc before = some q ∧
        (text [] calls).length ≠ q.abQuery.fullSize := by
  have hnew : (Query.new connection).abQuery.Holds [] := RawBuffer.holds_empty
  rcases List.eq_nil_or_concat' calls with rfl | ⟨before, last, rfl⟩
  · refine iff_of_false ?_ ?_
    · rintro ⟨q, hq, ht⟩
      cases hq
      exact absurd ht.below (Nat.lt_irrefl 0)
    · rintro ⟨before, last, q, hsplit, -⟩
      exact List.append_ne_nil_of_right_ne_nil before (List.cons_ne_nil last []) hsplit.symm
  · obtain ⟨hbefore, hlast, -⟩ := (small_append [] before [last]).mp hs
    obtain ⟨q, hq, hholds⟩ := perform_all_holds hr hnew before hbefore
    obtain ⟨q', hq', hholds', hfull⟩ := perform_holds hr hholds last hlast
    have htext : text [] (before ++ [last]) = last.edit.apply (text [] before) := by
      simp [text, List.foldl_append]
    have hall : (Query.new connection).performAll realloc (before ++ [last]) = some q' := by
      rw [perform_all_append, hq, Option.bind_some, performAll, hq']
      rfl
    have hinside : q'.Terminated ↔ (text [] (before ++ [last])).length ≠ q.abQuery.fullSize := by
      rw [terminated_iff hholds', hholds'.fill, hfull, RawBuffer.lt_grown_iff, htext]
    constructor
    · rintro ⟨q'', hq'', ht⟩
      obtain rfl := Option.some.inj (hall.symm.trans hq'')
      exact ⟨before, last, q, rfl, hq, hinside.mp ht⟩
    · rintro ⟨before', last', q'', hsplit, hq'', hne⟩
      obtain ⟨rfl, -⟩ := List.append_inj' hsplit rfl
      obtain rfl := Option.some.inj (hq.symm.trans hq'')
      exact ⟨q', hall, hinside.mpr hne⟩

theorem begin_terminated :
    ∃ q, (Query.new true).performAll (RawBuffer.allocate fun _ => 0)
      [.appendQuery (ascii "BEGIN")] = some q ∧ q.Terminated :=
  (terminator_inside_iff (RawBuffer.allocate_succeeds fun _ => 0) true
    [.appendQuery (ascii "BEGIN")] (by decide)).mpr
    ⟨[], .appendQuery (ascii "BEGIN"), Query.new true, rfl, rfl, by decide⟩

/-- Two texts that fill the first allocation to its end. -/
theorem exact_fill_overrun :
    ¬ ∀ (realloc : Realloc UInt8), Succeeds realloc → ∀ connection calls, Small [] calls →
      ∃ q, (Query.new connection).performAll realloc calls = some q ∧ q.Terminated := by
  intro h
  have hr := RawBuffer.allocate_succeeds fun _ => (0 : UInt8)
  let first : List UInt8 := List.replicate 1000 120
  let second : List UInt8 := List.replicate 24 120
  have hfirst : first.length = 1000 := List.length_replicate
  have hboth : (first ++ second).length = 1024 := by
    rw [List.length_append, hfirst, List.length_replicate]
  have hsmall : Small [] [.appendQuery first, .appendQuery second] := by
    refine ⟨?_, ?_, trivial⟩
    · change first.length < 2 ^ 63
      rw [hfirst]
      decide
    · change (first ++ second).length < 2 ^ 63
      rw [hboth]
      decide
  obtain ⟨q, hq, ht⟩ := h _ hr true _ hsmall
  have hnew : (Query.new true).abQuery.Holds [] := RawBuffer.holds_empty
  obtain ⟨q₁, hq₁, h₁, hfull₁⟩ := perform_holds hr hnew (.appendQuery first) hsmall.1
  obtain ⟨q₂, hq₂, h₂, hfull₂⟩ := perform_holds hr h₁ (.appendQuery second) hsmall.2.1
  have hrun : q₂ = q := by
    rw [performAll, hq₁, Option.bind_some, performAll, hq₂] at hq
    exact Option.some.inj hq
  have hfill : q₂.abQuery.readyPosition = 1024 := h₂.fill.trans hboth
  have hfull : q₂.abQuery.fullSize = 1024 := by
    rw [hfull₂, hfull₁]
    change RawBuffer.grown (RawBuffer.grown 0 first.length) (first ++ second).length = 1024
    rw [hfirst, hboth]
    decide
  have hbelow := ht.below
  rw [← hrun, hfill, hfull] at hbelow
  exact absurd hbelow (by decide)

end Khorost
