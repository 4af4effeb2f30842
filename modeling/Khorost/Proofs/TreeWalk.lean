import Khorost.Net.SendFile

namespace Khorost

def Walk.path : Walk → List (List UInt8)
  | .arrived path => path
  | .link path _ => path
  | .fails => []

def Walk.goOn (t : Tree) (todo : List (List UInt8)) : Walk → Walk
  | .arrived path => t.walk path todo
  | .link path rest => .link path (rest ++ todo)
  | .fails => .fails

namespace Tree

variable {t : Tree} {P : List (List UInt8) → Prop}

/-- Kept by a step up, by a step to an entry that is not a link, and at the root,
where the links with an absolute target go on. -/
structure Keeps (t : Tree) (P : List (List UInt8) → Prop) : Prop where
  root : P []
  back : P path → P path.dropLast
  next : P path → t.isDirectory path = true → t.entry (path ++ [name]) = some e →
    (∀ target, e ≠ .link target) → P (path ++ [name])

theorem Keeps.walk (hk : t.Keeps P) (h : P path) (todo : List (List UInt8)) :
    P (t.walk path todo).path := by
  induction todo generalizing path with
  | nil => exact h
  | cons name todo ih =>
    rw [Tree.walk]
    split
    · exact hk.root
    · rename_i hdirectory
      have hdirectory : t.isDirectory path = true := eq_true_of_ne_false hdirectory
      split
      · exact ih h
      · split
        · exact ih (hk.back h)
        · cases he : t.entry (path ++ [name]) with
          | none => exact hk.root
          | some e =>
            cases e with
            | link target =>
              dsimp only
              split
              · exact hk.root
              · exact h
            | file content timeUpdate => exact ih (hk.next h hdirectory he nofun)
            | directory size timeUpdate => exact ih (hk.next h hdirectory he nofun)

theorem resolve_some : t.resolve links path todo = some found ↔
    t.walk path todo = .arrived found ∨
      ∃ linked rest left, left < links ∧ links = left + 1 ∧
        t.walk path todo = .link linked rest ∧ t.resolve left linked rest = some found := by
  cases links with
  | zero =>
    rw [Tree.resolve]
    cases t.walk path todo with
    | arrived path => simp
    | link linked rest => simp
    | fails => simp
  | succ links =>
    rw [Tree.resolve]
    cases t.walk path todo with
    | arrived path => simp
    | link linked rest => simp
    | fails => simp

theorem Keeps.resolve (hk : t.Keeps P) (h : P path) (hr : t.resolve links path todo = some found) :
    P found := by
  induction links using Nat.strongRecOn generalizing path todo with
  | ind links ih =>
    have hw := hk.walk h todo
    rcases resolve_some.mp hr with harrived | ⟨linked, rest, left, hleft, -, hlink, hr⟩
    · rwa [harrived] at hw
    · rw [hlink] at hw
      exact ih left hleft hw hr

theorem keeps_named (t : Tree) : t.Keeps fun path => ∀ name ∈ path, IsName name where
  root := nofun
  back h n hn := h n ((List.dropLast_sublist _).subset hn)
  next _ _ he _ := t.named _ _ he

/-- A path of directories, the last of which may be a file, without a link. -/
inductive Real (t : Tree) : List (List UInt8) → Prop
  | root : Real t []
  | next (hr : Real t path) (hdirectory : t.isDirectory path = true)
      (he : t.entry (path ++ [name]) = some e) (hlink : ∀ target, e ≠ .link target) :
      Real t (path ++ [name])

theorem keeps_real (t : Tree) : t.Keeps t.Real where
  root := .root
  back h := by
    cases h with
    | root => exact .root
    | next hr => rwa [List.dropLast_concat]
  next := .next

theorem Real.walk (hr : t.Real path) (todo : List (List UInt8)) :
    t.walk [] (path ++ todo) = t.walk path todo := by
  induction hr generalizing todo with
  | root => rfl
  | @next path name e hr hdirectory he hlink ih =>
    have hname := t.named _ e he name (List.mem_append_right _ (List.mem_singleton_self name))
    rw [List.append_assoc, List.singleton_append, ih, Tree.walk, if_neg (by simp [hdirectory]),
      if_neg (not_or.mpr ⟨hname.nonempty, hname.not_dot⟩), if_neg hname.not_dots, he]
    cases e with
    | link target => exact absurd rfl (hlink target)
    | file content timeUpdate => rfl
    | directory size timeUpdate => rfl

theorem Real.named (hr : t.Real path) : ∀ name ∈ path, IsName name := by
  induction hr with
  | root => exact nofun
  | next _ _ he _ => exact t.named _ _ he

theorem Real.lookup (hr : t.Real path) (hne : path ≠ [])
    (hlen : (Paths.text slash path).length < maxPath) :
    t.lookup (Paths.text slash path) = some path := by
  obtain ⟨name, rest, rfl⟩ := List.exists_cons_of_ne_nil hne
  have hsplit := Paths.split_text (fun n hn => (hr.named n hn).no_slash)
  have hwalk : t.walk [] ([] :: name :: rest) = .arrived (name :: rest) := by
    rw [Tree.walk, if_neg (by simp [isDirectory]), if_pos (.inl rfl)]
    have hend := hr.walk []
    rw [List.append_nil] at hend
    rw [hend, Tree.walk]
  rw [Tree.lookup, if_neg (not_or.mpr ⟨by simp, by omega⟩), hsplit, Paths.text_cons,
    List.head?_cons, if_pos rfl, Tree.resolve, hwalk]

theorem walk_append (t : Tree) (path front todo : List (List UInt8)) :
    t.walk path (front ++ todo) = (t.walk path front).goOn t todo := by
  induction front generalizing path with
  | nil => rfl
  | cons name front ih =>
    rw [List.cons_append, Tree.walk, Tree.walk]
    split
    · rfl
    · split
      · exact ih path
      · split
        · exact ih path.dropLast
        · cases t.entry (path ++ [name]) with
          | none => rfl
          | some e =>
            cases e with
            | link target =>
              dsimp only
              split
              · simp only [Walk.goOn, List.append_assoc]
              · simp only [Walk.goOn, List.append_assoc]
            | file content timeUpdate => exact ih _
            | directory size timeUpdate => exact ih _

theorem resolve_append (h : t.resolve links path front = some arrived)
    (hwalk : t.walk arrived todo = .arrived found) :
    t.resolve links path (front ++ todo) = some found := by
  induction links using Nat.strongRecOn generalizing path front with
  | ind links ih =>
    rw [resolve_some, walk_append]
    rcases resolve_some.mp h with harrived | ⟨linked, rest, left, hleft, hlinks, hlink, h⟩
    · rw [harrived]
      exact .inl hwalk
    · rw [hlink]
      exact .inr ⟨linked, rest ++ todo, left, hleft, hlinks, rfl, ih left hleft h⟩

theorem walk_slash (t : Tree) (path : List (List UInt8)) :
    t.walk path [[]] = if t.isDirectory path = false then .fails else .arrived path := by
  rw [Tree.walk, if_pos (Or.inl rfl), Tree.walk]

/-- What a text with a slash at its end leads to is a directory, and the text
without the slash leads there too. -/
theorem resolve_slash (h : t.resolve links path (front ++ [[]]) = some found) :
    t.resolve links path front = some found ∧ t.isDirectory found = true := by
  induction links using Nat.strongRecOn generalizing path front with
  | ind links ih =>
    rw [resolve_some, walk_append] at h
    rw [resolve_some]
    cases hw : t.walk path front with
    | arrived p =>
      rw [hw, Walk.goOn, walk_slash] at h
      split at h
      · simp at h
      · rename_i hdirectory
        obtain rfl : p = found := by simpa using h
        exact ⟨.inl rfl, eq_true_of_ne_false hdirectory⟩
    | link p rest =>
      rw [hw] at h
      obtain ⟨linked, rest', left, hleft, hlinks, hlink, h⟩ := h.resolve_left nofun
      obtain ⟨rfl, rfl⟩ := Walk.link.inj hlink
      obtain ⟨h, hdirectory⟩ := ih left hleft h
      exact ⟨.inr ⟨p, rest, left, hleft, hlinks, rfl, h⟩, hdirectory⟩
    | fails =>
      rw [hw] at h
      simp [Walk.goOn] at h

end Tree

end Khorost
