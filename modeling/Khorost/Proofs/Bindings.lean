import Khorost.Lib.Substitution
import Khorost.Proofs.QueryText

namespace Khorost

open Blocks Substitution Query

/-- The tag of a call and what it puts there, for all calls but `AppendQuery`. -/
def QueryCall.binding (call : QueryCall) : Option (List UInt8 × List UInt8) :=
  match call.edit with
  | .append _ => none
  | .bind tag target => some (tag, target)

variable {realloc : Realloc UInt8} {q : Query} {template : List UInt8} {calls : List QueryCall}

theorem text_bindings (text : List UInt8) (h : ∀ call ∈ calls, call.binding.isSome) :
    Query.text text calls = (calls.filterMap QueryCall.binding).foldl bindTag text := by
  induction calls generalizing text with
  | nil => rfl
  | cons call calls ih =>
    obtain ⟨b, hb⟩ := Option.isSome_iff_exists.mp (h call (List.mem_cons_self ..))
    have hedit : call.edit.apply text = bindTag text b := by
      unfold QueryCall.binding at hb
      cases he : call.edit with
      | append more =>
        rw [he] at hb
        cases hb
      | bind tag target =>
        rw [he] at hb
        cases hb
        rfl
    rw [List.filterMap_cons_some hb, List.foldl_cons, ← hedit]
    exact ih _ fun call hcall => h call (List.mem_cons_of_mem _ hcall)

/-- In every order in which each tag is found at its own place the calls come to
the simultaneous substitution. -/
theorem bindings_any_order (hr : Succeeds realloc) (h : q.abQuery.Holds template)
    (hcalls : ∀ call ∈ calls, call.binding.isSome)
    (htemplate : Template template ((calls.filterMap QueryCall.binding).map Prod.fst))
    (order : List QueryCall) (hperm : order.Perm calls)
    (hu : Undisturbed template [] (order.filterMap QueryCall.binding))
    (hs : Small template order) :
    ∃ q', q.performAll realloc order = some q' ∧
      q'.abQuery.content = substitute (calls.filterMap QueryCall.binding) 0 template := by
  obtain ⟨q', hq', hholds⟩ := perform_all_holds hr h order hs
  refine ⟨q', hq', ?_⟩
  rw [hholds.content, text_bindings template fun call hcall => hcalls call (hperm.subset hcall)]
  exact htemplate.any_order (hperm.filterMap _) hu

/-- A query `:a: :b:`, in a buffer that it fills. -/
def twoTags : Query := ⟨true, ⟨ascii ":a: :b:", 7, 7⟩⟩

theorem two_tags_hold : twoTags.abQuery.Holds (ascii ":a: :b:") :=
  ⟨rfl, by decide, rfl, by decide, by decide⟩

theorem second_tag_first :
    ∃ q', twoTags.performAll (RawBuffer.allocate fun _ => 0)
        [.bindValue (ascii ":b:") (ascii "x"), .bindValueNumber (ascii ":a:") 10] = some q' ∧
      q'.abQuery.content = ascii "10 'x'" := by
  have hcalls : ∀ call ∈ [QueryCall.bindValueNumber (ascii ":a:") 10,
      .bindValue (ascii ":b:") (ascii "x")], call.binding.isSome := by decide
  obtain ⟨q', hq', hcontent⟩ := bindings_any_order (RawBuffer.allocate_succeeds fun _ => 0)
    two_tags_hold hcalls (by decide +kernel)
    [.bindValue (ascii ":b:") (ascii "x"), .bindValueNumber (ascii ":a:") 10]
    (List.Perm.swap _ _ _) (by decide +kernel) (by decide +kernel)
  exact ⟨q', hq', hcontent.trans (by decide +kernel)⟩

/-- A value that is the other tag is taken for it. -/
theorem value_taken_for_tag :
    ¬ ∀ (realloc : Realloc UInt8), Succeeds realloc → ∀ (q : Query) template calls,
      q.abQuery.Holds template → (∀ call ∈ calls, call.binding.isSome) →
      Template template ((calls.filterMap QueryCall.binding).map Prod.fst) →
      ∀ order : List QueryCall, order.Perm calls → Small template order →
        ∃ q', q.performAll realloc order = some q' ∧
          q'.abQuery.content = substitute (calls.filterMap QueryCall.binding) 0 template := by
  intro h
  have hr := RawBuffer.allocate_succeeds fun _ => (0 : UInt8)
  let calls : List QueryCall :=
    [.bindValue (ascii ":a:") (ascii ":b:"), .bindValue (ascii ":b:") (ascii "x")]
  have hsmall : Small (ascii ":a: :b:") calls := by decide +kernel
  obtain ⟨q', hq', hcontent⟩ := h _ hr twoTags (ascii ":a: :b:") calls two_tags_hold (by decide)
    (by decide +kernel) calls (List.Perm.refl _) hsmall
  obtain ⟨q'', hq'', hholds⟩ := perform_all_holds hr two_tags_hold calls hsmall
  obtain rfl := Option.some.inj (hq''.symm.trans hq')
  rw [hholds.content] at hcontent
  exact absurd hcontent (by decide +kernel)

end Khorost
