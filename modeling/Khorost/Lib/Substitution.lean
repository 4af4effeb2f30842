import Khorost.Lib.Blocks
import Mathlib.Data.List.Find
import Mathlib.Data.List.Nodup

namespace Substitution

open Blocks

variable {α : Type} [DecidableEq α] {bs bs' done todo : List (List α × List α)}
  {t x y g v front back : List α}

/-- From left to right, the values of the bindings in the place of their tags. Of a
tag that has been replaced `skip` elements are still to come. -/
def substitute (bs : List (List α × List α)) : Nat → List α → List α
  | _, [] => []
  | skip + 1, _ :: text => substitute bs skip text
  | 0, x :: text =>
    match bs.find? (fun b => b.1 <+: x :: text) with
    | some b => b.2 ++ substitute bs (b.1.length - 1) text
    | none => x :: substitute bs 0 text

theorem substitute_skip (x y : List α) :
    substitute bs x.length (x ++ y) = substitute bs 0 y := by
  induction x with
  | nil => rfl
  | cons c x ih => exact ih

theorem substitute_hit (hfind : bs.find? (fun b => b.1 <+: g ++ y) = some (g, v)) (hg : g ≠ []) :
    substitute bs 0 (g ++ y) = v ++ substitute bs 0 y := by
  obtain ⟨c, g, rfl⟩ := List.exists_cons_of_ne_nil hg
  rw [List.cons_append] at hfind ⊢
  rw [substitute, hfind]
  exact congrArg (v ++ ·) (substitute_skip g y)

theorem substitute_congr (x : List α) (skip : Nat)
    (h : ∀ i < x.length, bs.find? (fun b => b.1 <+: x.drop i) =
      bs'.find? (fun b => b.1 <+: x.drop i)) :
    substitute bs skip x = substitute bs' skip x := by
  induction x generalizing skip with
  | nil => cases skip <;> rfl
  | cons c x ih =>
    have hrest : ∀ i < x.length, bs.find? (fun b => b.1 <+: x.drop i) =
        bs'.find? (fun b => b.1 <+: x.drop i) := fun i hi => h (i + 1) (Nat.succ_lt_succ hi)
    cases skip with
    | succ skip => exact ih skip hrest
    | zero =>
      have hhere := h 0 (Nat.zero_lt_succ _)
      rw [List.drop_zero] at hhere
      rw [substitute, substitute, hhere]
      cases bs'.find? (fun b => b.1 <+: c :: x) with
      | none => exact congrArg (c :: ·) (ih 0 hrest)
      | some b => exact congrArg (b.2 ++ ·) (ih _ hrest)

theorem substitute_clear (x : List α) (h : ∀ i < x.length, ∀ b ∈ bs, ¬ b.1 <+: x.drop i) :
    substitute bs 0 x = x := by
  induction x with
  | nil => rfl
  | cons c x ih =>
    have hnone : bs.find? (fun b => b.1 <+: c :: x) = none := by
      rw [List.find?_eq_none]
      intro b hb hp
      exact h 0 (Nat.zero_lt_succ _) b hb (by simpa using hp)
    rw [substitute, hnone]
    exact congrArg (c :: ·) (ih fun i hi => h (i + 1) (Nat.succ_lt_succ hi))

/-- Two texts are dealt with apart if no tag goes from the one into the other. -/
theorem substitute_append (x y : List α) (skip : Nat) (hskip : skip ≤ x.length)
    (h : ∀ i < x.length, ∀ b ∈ bs, b.1 <+: (x ++ y).drop i → i + b.1.length ≤ x.length) :
    substitute bs skip (x ++ y) = substitute bs skip x ++ substitute bs 0 y := by
  induction x generalizing skip with
  | nil =>
    obtain rfl : skip = 0 := Nat.le_zero.mp hskip
    rfl
  | cons c x ih =>
    have hrest : ∀ i < x.length, ∀ b ∈ bs, b.1 <+: (x ++ y).drop i →
        i + b.1.length ≤ x.length := by
      intro i hi b hb hp
      have := h (i + 1) (Nat.succ_lt_succ hi) b hb hp
      rw [List.length_cons] at this
      omega
    cases skip with
    | succ skip => exact ih skip (Nat.le_of_succ_le_succ hskip) hrest
    | zero =>
      -- the same tags begin here with and without what follows
      have hsame : bs.find? (fun b => b.1 <+: c :: (x ++ y)) =
          bs.find? (fun b => b.1 <+: c :: x) := by
        refine List.find?_congr fun b hb => ?_
        have hiff : b.1 <+: c :: (x ++ y) ↔ b.1 <+: c :: x := by
          constructor
          · intro hp
            have hlen := h 0 (Nat.zero_lt_succ _) b hb hp
            rw [Nat.zero_add] at hlen
            exact List.prefix_of_prefix_length_le hp (List.prefix_append (c :: x) y) hlen
          · exact fun hp => hp.trans (List.prefix_append (c :: x) y)
        simp only [hiff]
      rw [List.cons_append, substitute, substitute, hsame]
      cases hfind : bs.find? (fun b => b.1 <+: c :: x) with
      | none => exact congrArg (c :: ·) (ih 0 (Nat.zero_le _) hrest)
      | some b =>
        have hp : b.1 <+: c :: x := by simpa using List.find?_some hfind
        have hlen := hp.length_le
        rw [List.length_cons] at hlen
        dsimp only
        rw [ih (b.1.length - 1) (by omega) hrest, List.append_assoc]

/-- A tag that stands between two texts, and the bindings of other tags, which
stand apart from it. -/
structure Beside (done : List (List α × List α)) (t front g back : List α) : Prop where
  split : t = front ++ g ++ back
  nonempty : ∀ c ∈ done, c.1 ≠ []
  apart : ∀ c ∈ done, ∀ i, c.1 <+: t.drop i →
    i + c.1.length ≤ front.length ∨ front.length + g.length ≤ i

theorem Beside.others (h : Beside done t front g back) :
    substitute done 0 t = substitute done 0 front ++ g ++ substitute done 0 back := by
  obtain ⟨rfl, hne, hapart⟩ := h
  rw [List.append_assoc] at hapart ⊢
  have hfront : ∀ i < front.length, ∀ c ∈ done, c.1 <+: (front ++ (g ++ back)).drop i →
      i + c.1.length ≤ front.length := by
    intro i hi c hc hp
    rcases hapart c hc i hp with hle | hle
    · exact hle
    · omega
  have hg : ∀ i < g.length, ∀ c ∈ done, ¬ c.1 <+: (g ++ back).drop i := by
    intro i hi c hc hp
    have hpos := List.length_pos_of_ne_nil (hne c hc)
    have hp' : c.1 <+: (front ++ (g ++ back)).drop (front.length + i) := by
      rwa [List.drop_length_add_append]
    rcases hapart c hc _ hp' with hle | hle <;> omega
  have hclear : substitute done 0 g = g := by
    refine substitute_clear g fun i hi c hc hp => hg i hi c hc ?_
    rw [List.drop_append_of_le_length (Nat.le_of_lt hi)]
    exact hp.trans (List.prefix_append _ _)
  rw [substitute_append front _ 0 (Nat.zero_le _) hfront,
    substitute_append g back 0 (Nat.zero_le _) (fun i hi c hc hp => absurd hp (hg i hi c hc)),
    hclear, List.append_assoc]

/-- With its own binding its value comes into its place. -/
theorem Beside.own (h : Beside done t front g back) (hg : g ≠ [])
    (honly : ∀ i, g <+: t.drop i → i = front.length) :
    substitute ((g, v) :: done) 0 t =
      substitute done 0 front ++ v ++ substitute done 0 back := by
  obtain ⟨rfl, -, hapart⟩ := h
  have hpos := List.length_pos_of_ne_nil hg
  rw [List.append_assoc] at hapart honly ⊢
  have hfront : ∀ i < front.length, ∀ c ∈ (g, v) :: done,
      c.1 <+: (front ++ (g ++ back)).drop i → i + c.1.length ≤ front.length := by
    intro i hi c hc hp
    rcases List.mem_cons.mp hc with rfl | hc
    · have := honly i hp
      omega
    · rcases hapart c hc i hp with hle | hle
      · exact hle
      · omega
  -- in front of the tag and behind it its binding changes nothing
  have hskip : ∀ x : List α, (∀ i < x.length, ¬ g <+: x.drop i) →
      substitute ((g, v) :: done) 0 x = substitute done 0 x := by
    intro x hx
    refine substitute_congr x 0 fun i hi => ?_
    rw [List.find?_cons_of_neg (by simpa using hx i hi)]
  have hbefore : ∀ i < front.length, ¬ g <+: front.drop i := by
    intro i hi hp
    have := honly i (by
      rw [List.drop_append_of_le_length (Nat.le_of_lt hi)]
      exact hp.trans (List.prefix_append _ _))
    omega
  have hafter : ∀ i < back.length, ¬ g <+: back.drop i := by
    intro i hi hp
    have := honly (front.length + (g.length + i)) (by
      rwa [List.drop_length_add_append, List.drop_length_add_append])
    omega
  have hfind : ((g, v) :: done).find? (fun b => b.1 <+: g ++ back) = some (g, v) := by
    rw [List.find?_cons_of_pos (by simp)]
  rw [substitute_append front _ 0 (Nat.zero_le _) hfront, substitute_hit hfind hg,
    hskip front hbefore, hskip back hafter, List.append_assoc]

/-- Where a tag begins in a text. -/
def places (g t : List α) : List Nat := (List.range (t.length + 1)).filter fun i => g <+: t.drop i

theorem mem_places (g t : List α) (hg : g ≠ []) : i ∈ places g t ↔ g <+: t.drop i := by
  rw [places, List.mem_filter, List.mem_range, decide_eq_true_eq]
  refine ⟨fun h => h.2, fun h => ⟨?_, h⟩⟩
  by_contra hlong
  rw [List.drop_eq_nil_of_le (by omega)] at h
  exact hg (List.prefix_nil.mp h)

/-- A text with tags in it: they are different, none contains another, each stands
there once, and no two of them overlap. -/
structure Template (t : List α) (tags : List (List α)) : Prop where
  nonempty : ∀ g ∈ tags, g ≠ []
  distinct : tags.Nodup
  free : ∀ g ∈ tags, ∀ h ∈ tags, g <:+: h → g = h
  once : ∀ g ∈ tags, (places g t).length = 1
  apart : ∀ g ∈ tags, ∀ h ∈ tags, g ≠ h → ∀ i ∈ places g t, ∀ j ∈ places h t,
    i + g.length ≤ j ∨ j + h.length ≤ i

instance (t : List α) (tags : List (List α)) : Decidable (Template t tags) :=
  decidable_of_iff
    ((∀ g ∈ tags, g ≠ []) ∧ tags.Nodup ∧ (∀ g ∈ tags, ∀ h ∈ tags, g <:+: h → g = h) ∧
      (∀ g ∈ tags, (places g t).length = 1) ∧
      ∀ g ∈ tags, ∀ h ∈ tags, g ≠ h → ∀ i ∈ places g t, ∀ j ∈ places h t,
        i + g.length ≤ j ∨ j + h.length ≤ i)
    ⟨fun h => ⟨h.1, h.2.1, h.2.2.1, h.2.2.2.1, h.2.2.2.2⟩,
      fun h => ⟨h.nonempty, h.distinct, h.free, h.once, h.apart⟩⟩

/-- Where a tag begins first. -/
def place (g t : List α) : Nat := (places g t).headD 0

/-- The value of a binding in the place of the first occurrence of its tag. -/
def bindTag (t : List α) (b : List α × List α) : List α := (replaceFirst b.1 b.2 t).getD t

/-- With the bindings `done` made, a tag does not begin before its own place. -/
def OwnFirst (t : List α) (done : List (List α × List α)) (g : List α) : Prop :=
  ∀ i < (substitute done 0 (t.take (place g t))).length, ¬ g <+: (substitute done 0 t).drop i

instance (t : List α) (done : List (List α × List α)) (g : List α) : Decidable (OwnFirst t done g) :=
  inferInstanceAs (Decidable (∀ i < _, _))

/-- Making the bindings in this order, each finds its tag at its own place. -/
def Undisturbed (t : List α) : List (List α × List α) → List (List α × List α) → Prop
  | _, [] => True
  | done, b :: todo => OwnFirst t done b.1 ∧ Undisturbed t (b :: done) todo

instance decideUndisturbed (t : List α) :
    (done todo : List (List α × List α)) → Decidable (Undisturbed t done todo)
  | _, [] => .isTrue trivial
  | done, b :: todo =>
    have := decideUndisturbed t (b :: done) todo
    inferInstanceAs (Decidable (_ ∧ _))

theorem Template.only (h : Template t tags) (hg : g ∈ tags) : g <+: t.drop i ↔ i = place g t := by
  rw [← mem_places g t (h.nonempty g hg), place]
  obtain ⟨j, hj⟩ := List.length_eq_one_iff.mp (h.once g hg)
  rw [hj, List.mem_singleton]
  rfl

theorem Template.place_length (h : Template t tags) (hg : g ∈ tags) :
    (t.take (place g t)).length = place g t := by
  have hlen := ((h.only hg).mpr rfl).length_le
  have hpos := List.length_pos_of_ne_nil (h.nonempty g hg)
  rw [List.length_drop] at hlen
  rw [List.length_take]
  omega

theorem Template.beside (h : Template t tags) (hg : g ∈ tags)
    (hdone : ∀ c ∈ done, c.1 ∈ tags ∧ c.1 ≠ g) :
    Beside done t (t.take (place g t)) g (t.drop (place g t + g.length)) := by
  have hat : g <+: t.drop (place g t) := (h.only hg).mpr rfl
  refine ⟨?_, fun c hc => h.nonempty c.1 (hdone c hc).1, fun c hc i hi => ?_⟩
  · obtain ⟨rest, hrest⟩ := hat
    rw [← List.drop_drop, ← hrest, List.drop_left, List.append_assoc, hrest,
      List.take_append_drop]
  · rw [h.place_length hg]
    obtain ⟨hmem, hne⟩ := hdone c hc
    refine h.apart c.1 hmem g hg hne i ?_ _ ((mem_places g t (h.nonempty g hg)).mpr hat)
    exact (mem_places c.1 t (h.nonempty c.1 hmem)).mpr hi

/-- The binding of a tag that stands first at its own place. -/
theorem Template.bind_own (h : Template t tags) (hg : g ∈ tags)
    (hdone : ∀ c ∈ done, c.1 ∈ tags ∧ c.1 ≠ g) (hfirst : OwnFirst t done g) (v : List α) :
    bindTag (substitute done 0 t) (g, v) = substitute ((g, v) :: done) 0 t := by
  have hbeside := h.beside hg hdone
  have hhas := hbeside.others
  have hown := hbeside.own (v := v) (h.nonempty g hg) fun i hi => by
    rw [h.place_length hg]
    exact (h.only hg).mp hi
  rw [hown, bindTag]
  cases hfound : replaceFirst g v (substitute done 0 t) with
  | none => exact absurd hhas (replace_first_none hfound _ _)
  | some ys =>
    obtain ⟨front, back, hsplit, rfl, hbefore⟩ := replace_first_some hfound
    have hle := hbefore _ _ hhas
    have heq : front.length = (substitute done 0 (t.take (place g t))).length := by
      refine Nat.le_antisymm hle (Nat.le_of_not_lt fun hlt => hfirst front.length hlt ?_)
      rw [hsplit, List.append_assoc, List.drop_left]
      exact List.prefix_append _ _
    rw [hhas, List.append_assoc, List.append_assoc] at hsplit
    obtain ⟨rfl, hrest⟩ := List.append_inj hsplit heq.symm
    rw [List.append_cancel_left hrest]
    rfl

/-- At one place begins one tag, so the order of the bindings does not count. -/
theorem Template.substitute_perm (h : Template t (bs.map Prod.fst)) (hperm : done.Perm bs) :
    substitute done 0 t = substitute bs 0 t := by
  refine substitute_congr t 0 fun i _ => ?_
  refine List.find?_eq_find?_of_perm hperm ?_
  rintro b ⟨hb, hbat⟩ c ⟨hc, hcat⟩
  have hb' : b.1 ∈ bs.map Prod.fst := List.mem_map_of_mem (hperm.subset hb)
  have hc' : c.1 ∈ bs.map Prod.fst := List.mem_map_of_mem (hperm.subset hc)
  have hbp : b.1 <+: t.drop i := by simpa using hbat
  have hcp : c.1 <+: t.drop i := by simpa using hcat
  refine List.inj_on_of_nodup_map h.distinct (hperm.subset hb) (hperm.subset hc) ?_
  by_contra hne
  have hbpos := List.length_pos_of_ne_nil (h.nonempty _ hb')
  have hcpos := List.length_pos_of_ne_nil (h.nonempty _ hc')
  rcases h.apart _ hb' _ hc' hne i ((mem_places _ t (h.nonempty _ hb')).mpr hbp) i
    ((mem_places _ t (h.nonempty _ hc')).mpr hcp) with hle | hle <;> omega

theorem Template.bind_all (h : Template t (bs.map Prod.fst)) (todo done : List (List α × List α))
    (hperm : (done ++ todo).Perm bs) (hu : Undisturbed t done todo) :
    todo.foldl bindTag (substitute done 0 t) = substitute bs 0 t := by
  induction todo generalizing done with
  | nil => exact h.substitute_perm (by rwa [List.append_nil] at hperm)
  | cons b todo ih =>
    have hmem : ∀ c ∈ done ++ b :: todo, c.1 ∈ bs.map Prod.fst := fun c hc =>
      List.mem_map_of_mem (hperm.subset hc)
    have hdistinct : ((done ++ b :: todo).map Prod.fst).Nodup :=
      (hperm.map Prod.fst).nodup_iff.mpr h.distinct
    have hdone : ∀ c ∈ done, c.1 ∈ bs.map Prod.fst ∧ c.1 ≠ b.1 := by
      intro c hc
      refine ⟨hmem c (List.mem_append_left _ hc), fun he => ?_⟩
      rw [List.map_append, List.map_cons, List.nodup_append] at hdistinct
      exact hdistinct.2.2 c.1 (List.mem_map_of_mem hc) b.1 (List.mem_cons_self ..) he
    have hb := h.bind_own (hmem b (by simp)) hdone hu.1 b.2
    rw [List.foldl_cons, hb]
    exact ih (b :: done) (List.perm_middle.symm.trans hperm) hu.2

/-- In an order in which none disturbs another the bindings come to the
simultaneous substitution. -/
theorem Template.any_order (h : Template t (bs.map Prod.fst)) (hperm : todo.Perm bs)
    (hu : Undisturbed t [] todo) : todo.foldl bindTag t = substitute bs 0 t := by
  have hnone : substitute [] 0 t = t := substitute_clear t fun i _ b hb => by cases hb
  have hall := h.bind_all todo [] hperm hu
  rwa [hnone] at hall

end Substitution
