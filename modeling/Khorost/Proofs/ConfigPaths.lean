import Khorost.App.Config
import Mathlib.Data.List.Basic

namespace Khorost.Config

/-- The components of a path, for a divider of one character. -/
structure ConfigPath (div : UInt8) where
  components : List (List UInt8)
  nonempty : components ≠ []
  sound : ∀ component ∈ components, component ≠ [] ∧ div ∉ component

/-- The components with the divider between them. -/
def join (div : UInt8) : List (List UInt8) → List UInt8
  | [] => []
  | [component] => component
  | component :: next :: components => component ++ div :: join div (next :: components)

/-- The value below another one, looked up by one component after another; null
where there is none. -/
def reach : JsonValue → List (List UInt8) → JsonValue
  | value, [] => value
  | .object members, component :: components =>
    match members.lookup component with
    | some value => reach value components
    | none => .null
  | _, _ :: _ => .null

/-- A value in which a component can be looked up. -/
def IsContainer : JsonValue → Prop
  | .null | .object _ => True
  | _ => False

/-- Each component is looked up in an object or a null. -/
def Passable (value : JsonValue) (components : List (List UInt8)) : Prop :=
  ∀ before component after, components = before ++ component :: after →
    IsContainer (reach value before)

/-- A configuration answers for a path: with the value that is reached, or with
the default of the caller. -/
structure Answers (container : JsonValue) (path : ConfigPath div) : Prop where
  item : findItem [div] container (join div path.components) =
    some (reach container path.components)
  defaults : reach container path.components = .null → ∀ flag number text,
    isValue container (join div path.components) flag [div] = some flag ∧
    getInt container (join div path.components) number [div] = some number ∧
    getString container (join div path.components) text [div] = some text

theorem reach_null (components : List (List UInt8)) : reach .null components = .null := by
  cases components <;> rfl

theorem reach_cons (value : JsonValue) (component : List UInt8) (components : List (List UInt8)) :
    reach value (component :: components) = reach (reach value [component]) components := by
  cases value with
  | object members =>
    rw [reach, reach]
    cases members.lookup component with
    | none => exact (reach_null components).symm
    | some value => rfl
  | _ => exact (reach_null components).symm

theorem member_container (h : IsContainer value) (component : List UInt8) :
    value.member component = some (reach value [component]) := by
  cases value with
  | object members =>
    rw [reach, JsonValue.member, JsonValue.find, Option.map_some]
    cases members.lookup component <;> rfl
  | null => rfl
  | _ => exact h.elim

theorem member_other (h : ¬ IsContainer value) (component : List UInt8) :
    value.member component = none := by
  cases value with
  | object members => exact (h trivial).elim
  | null => exact (h trivial).elim
  | _ => rfl

theorem passable_nil (value : JsonValue) : Passable value [] := by
  intro before component after h
  exact absurd h.symm (List.append_ne_nil_of_right_ne_nil _ (List.cons_ne_nil _ _))

theorem passable_cons : Passable value (component :: components) ↔
    IsContainer value ∧ Passable (reach value [component]) components := by
  constructor
  · intro h
    refine ⟨h [] component components rfl, fun before c after hsplit => ?_⟩
    rw [← reach_cons]
    exact h (component :: before) c after (by rw [hsplit, List.cons_append])
  · rintro ⟨hvalue, h⟩ before c after hsplit
    cases before with
    | nil => exact hvalue
    | cons d before =>
      obtain ⟨rfl, hrest⟩ := List.cons.inj hsplit
      rw [reach_cons]
      exact h before c after hrest

theorem passable_null (components : List (List UInt8)) : Passable .null components := by
  intro before component after _
  rw [reach_null]
  trivial

theorem find_div {component : List UInt8} (h : div ∉ component) (rest : List UInt8) :
    findText [div] (component ++ div :: rest) = some component.length := by
  induction component with
  | nil => simp [findText]
  | cons c component ih =>
    obtain ⟨hc, hrest⟩ := List.ne_and_not_mem_of_not_mem_cons h
    have hprefix : ¬ [div] <+: c :: (component ++ div :: rest) := by
      rw [List.cons_prefix_cons]
      exact fun hp => hc hp.1
    rw [List.cons_append, findText, if_neg hprefix, ih hrest]
    rfl

theorem find_no_div {component : List UInt8} (h : div ∉ component) :
    findText [div] component = none := by
  induction component with
  | nil => rfl
  | cons c component ih =>
    obtain ⟨hc, hrest⟩ := List.ne_and_not_mem_of_not_mem_cons h
    have hprefix : ¬ [div] <+: c :: component := by
      rw [List.cons_prefix_cons]
      exact fun hp => hc hp.1
    rw [findText, if_neg hprefix, ih hrest]
    rfl

theorem find_item_last {component : List UInt8} (h : div ∉ component) (item : JsonValue) :
    findItem [div] item component = item.member component := by
  unfold findItem
  rw [find_no_div h]

theorem find_item_below {component : List UInt8} (h : div ∉ component) (item : JsonValue)
    (hrest : rest ≠ []) :
    findItem [div] item (component ++ div :: rest) =
      (item.member component).bind fun it2 =>
        if it2.isNull then some .null else findItem [div] it2 rest := by
  have hdrop : (component ++ div :: rest).drop (component.length + [div].length) = rest := by
    rw [← List.drop_drop, List.drop_left]
    rfl
  rw [findItem, find_div h]
  dsimp only
  rw [hdrop, List.take_left]
  cases item.member component with
  | none => rfl
  | some it2 =>
    dsimp only
    rw [if_neg hrest]
    rfl

theorem null_of_is_null {value : JsonValue} (h : value.isNull = true) : value = .null := by
  cases value with
  | null => rfl
  | _ => cases h

theorem join_nonempty (hne : components ≠ [])
    (hsound : ∀ component ∈ components, component ≠ [] ∧ div ∉ component) :
    join div components ≠ [] := by
  match components with
  | [] => exact (hne rfl).elim
  | [component] => exact (hsound component (List.mem_singleton_self _)).1
  | component :: _ :: _ =>
    rw [join]
    exact List.append_ne_nil_of_right_ne_nil _ (List.cons_ne_nil _ _)

theorem find_item_join (components : List (List UInt8)) (hne : components ≠ [])
    (hsound : ∀ component ∈ components, component ≠ [] ∧ div ∉ component) (item : JsonValue) :
    (Passable item components →
      findItem [div] item (join div components) = some (reach item components)) ∧
    (¬ Passable item components → findItem [div] item (join div components) = none) := by
  induction components generalizing item with
  | nil => exact (hne rfl).elim
  | cons component components ih =>
    have hclear := (hsound component (List.mem_cons_self ..)).2
    by_cases hitem : IsContainer item
    · have hmember := member_container hitem component
      rw [passable_cons, and_iff_right hitem]
      cases components with
      | nil =>
        rw [join, find_item_last hclear, hmember]
        exact ⟨fun _ => rfl, fun h => (h (passable_nil _)).elim⟩
      | cons next components =>
        have hrest := fun c hc => hsound c (List.mem_cons_of_mem _ hc)
        have hloop := find_item_below hclear item
          (join_nonempty (List.cons_ne_nil next components) hrest)
        rw [hmember, Option.bind_some] at hloop
        rw [join, hloop, reach_cons item component (next :: components)]
        cases hnull : (reach item [component]).isNull with
        | false => exact ih (List.cons_ne_nil _ _) hrest _
        | true =>
          rw [null_of_is_null hnull, reach_null]
          exact ⟨fun _ => rfl, fun h => (h (passable_null _)).elim⟩
    · have hmember := member_other hitem component
      refine ⟨fun h => absurd (passable_cons.mp h).1 hitem, fun _ => ?_⟩
      cases components with
      | nil => rw [join, find_item_last hclear, hmember]
      | cons next components =>
        have hrest := fun c hc => hsound c (List.mem_cons_of_mem _ hc)
        rw [join, find_item_below hclear item
          (join_nonempty (List.cons_ne_nil next components) hrest), hmember, Option.bind_none]

/-- A configuration answers for a path exactly if no component of it is looked up
in a value that is neither an object nor null. -/
theorem find_item_answers_iff (container : JsonValue) (path : ConfigPath div) :
    Answers container path ↔ Passable container path.components := by
  have hjoin := find_item_join path.components path.nonempty path.sound container
  constructor
  · intro h
    by_contra hpass
    have hitem := h.item
    rw [hjoin.2 hpass] at hitem
    cases hitem
  · intro hpass
    refine ⟨hjoin.1 hpass, fun hnull flag number text => ?_⟩
    rw [isValue, getInt, getString, hjoin.1 hpass, hnull]
    exact ⟨rfl, rfl, rfl⟩

def pathAB : ConfigPath colon where
  components := [ascii "a", ascii "b"]
  nonempty := by decide
  sound := by decide

/-- There is a number at `a`. -/
theorem number_on_the_way :
    ¬ ∀ (container : JsonValue) (div : UInt8) (path : ConfigPath div), Answers container path := by
  intro h
  have hitem := (h (.object [(ascii "a", .int 1)]) colon pathAB).item
  rw [(find_item_join pathAB.components pathAB.nonempty pathAB.sound _).2 ?_] at hitem
  · cases hitem
  · exact fun hpass => hpass [ascii "a"] (ascii "b") [] rfl

end Khorost.Config
