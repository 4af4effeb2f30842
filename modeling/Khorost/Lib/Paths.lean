import Mathlib.Data.List.Basic

namespace Paths

variable {α : Type} {sep : α}

/-- The text of an absolute path: every name behind a separator. -/
def text (sep : α) (names : List (List α)) : List α := names.flatMap (sep :: ·)

@[simp] theorem text_nil : text sep [] = [] := rfl

@[simp] theorem text_cons (name : List α) (names : List (List α)) :
    text sep (name :: names) = sep :: (name ++ text sep names) := rfl

/-- Where a path goes on behind a text without a separator, the text has ended
inside one of its names. -/
theorem cut_inside {names : List (List α)} {root rest : List α} {c : α}
    (h : text sep names = root ++ c :: rest) (hc : c ≠ sep) :
    ∃ front name cut, (∀ n ∈ front, n ∈ names) ∧ name ∈ names ∧ cut <+: name ∧
      root = text sep front ++ sep :: cut := by
  induction names generalizing root with
  | nil => simp at h
  | cons name names ih =>
    rw [text_cons] at h
    cases root with
    | nil => exact absurd (List.cons.inj h).1.symm hc
    | cons d root =>
      obtain ⟨rfl, htail⟩ := List.cons.inj h
      rcases List.append_eq_append_iff.mp htail with ⟨later, rfl, hlater⟩ | ⟨cut, hname, hcut⟩
      · obtain ⟨front, n, cut, hfront, hn, hprefix, rfl⟩ := ih hlater
        refine ⟨name :: front, n, cut, fun m hm => ?_, List.mem_cons_of_mem _ hn, hprefix, ?_⟩
        · rcases List.mem_cons.mp hm with rfl | hm
          · exact List.mem_cons_self
          · exact List.mem_cons_of_mem _ (hfront m hm)
        · simp
      · exact ⟨[], name, root, nofun, List.mem_cons_self, ⟨cut, hname.symm⟩, rfl⟩

variable [DecidableEq α]

/-- A path is the root, or stands below it: the root, a separator and the rest. A
root that ends with a separator brings its own. -/
def Below (sep : α) (root path : List α) : Prop :=
  path = root ∨
    ∃ rest, path = (if root.getLast? = some sep then root else root ++ [sep]) ++ rest

/-- A text that a path begins with is one that the path stands below, unless the
path goes on in the middle of a name. -/
theorem below_iff (root rest : List α) :
    Below sep root (root ++ rest) ↔
      root.getLast? = some sep ∨ ∀ c ∈ rest.head?, c = sep := by
  by_cases hlast : root.getLast? = some sep
  · exact iff_of_true (.inr ⟨rest, by rw [if_pos hlast]⟩) (.inl hlast)
  · rw [Below, if_neg hlast, or_iff_right hlast]
    constructor
    · rintro (hroot | ⟨tail, htail⟩) c hc
      · obtain rfl : rest = [] := by simpa using hroot
        cases hc
      · obtain rfl : rest = sep :: tail := by simpa using htail
        exact (Option.some.inj hc).symm
    · intro h
      cases rest with
      | nil => exact .inl (List.append_nil _)
      | cons c rest =>
        obtain rfl := h c rfl
        exact .inr ⟨rest, by simp⟩

theorem split_text (h : ∀ name ∈ names, sep ∉ name) :
    (text sep names).splitOn sep = [] :: names := by
  induction names with
  | nil => rfl
  | cons name names ih =>
    have hname := h name List.mem_cons_self
    have hrest := ih (fun n hn => h n (List.mem_cons_of_mem _ hn))
    have hfirst : (text sep (name :: names)).splitOn sep =
        [] :: (name ++ text sep names).splitOn sep :=
      List.splitOn_append_cons_self_of_not_mem List.not_mem_nil _
    rw [hfirst]
    cases names with
    | nil => rw [text_nil, List.append_nil, List.splitOn_eq_singleton hname]
    | cons next names =>
      have htail : (text sep (next :: names)).splitOn sep =
          [] :: (next ++ text sep names).splitOn sep :=
        List.splitOn_append_cons_self_of_not_mem List.not_mem_nil _
      rw [htail, List.cons.injEq] at hrest
      rw [text_cons, List.splitOn_append_cons_self_of_not_mem hname, hrest.2]

end Paths
