import Mathlib.Logic.Basic

namespace Throwing

variable {ε σ α β : Type} {P P' : σ → Prop} {Q Q' : α → σ → Prop} {R : β → σ → Prop}
  {E E' : σ → Prop}

/-- Begun in a state with `P` the code ends with `Q`, or throws in a state with `E`. -/
def Triple (P : σ → Prop) (x : EStateM ε σ α) (Q : α → σ → Prop) (E : σ → Prop) : Prop :=
  ∀ s, P s → match x s with
    | .ok a s' => Q a s'
    | .error _ s' => E s'

/-- The state in which code has ended or thrown. -/
def after : EStateM.Result ε σ α → σ
  | .ok _ s => s
  | .error _ s => s

/-- What code has returned, unless it has thrown. -/
def returned : EStateM.Result ε σ α → Option α
  | .ok a _ => some a
  | .error _ _ => none

theorem of_returned {r : EStateM.Result ε σ α} (h : returned r = some a) : r = .ok a (after r) := by
  cases r with
  | ok a' s =>
    cases h
    rfl
  | error e s => cases h

theorem bind_ok {x : EStateM ε σ α} {f : α → EStateM ε σ β} (h : x s = .ok a s') :
    (x >>= f) s = f a s' := by
  change EStateM.bind x f s = _
  rw [EStateM.bind, h]

theorem bind_error {x : EStateM ε σ α} {f : α → EStateM ε σ β} (h : x s = .error e s') :
    (x >>= f) s = .error e s' := by
  change EStateM.bind x f s = _
  rw [EStateM.bind, h]

theorem get_bind (f : σ → EStateM ε σ β) (s : σ) : (getThe σ >>= f) s = f s s := rfl

theorem bind_ended {x : EStateM ε σ α} {f : α → EStateM ε σ β} (h : (x >>= f) s = .ok b s') :
    ∃ a s₁, x s = .ok a s₁ ∧ f a s₁ = .ok b s' := by
  cases hx : x s with
  | ok a s₁ =>
    rw [bind_ok hx] at h
    exact ⟨a, s₁, rfl, h⟩
  | error e s₁ =>
    rw [bind_error hx] at h
    cases h

theorem Triple.ok {x : EStateM ε σ α} (h : Triple P x Q E) (hp : P s) (he : x s = .ok a s') :
    Q a s' := by
  have hs := h s hp
  rw [he] at hs
  exact hs

theorem Triple.weaken {x : EStateM ε σ α} (h : Triple P x Q E) (hp : ∀ s, P' s → P s)
    (hq : ∀ a s, Q a s → Q' a s) (he : ∀ s, E s → E' s) : Triple P' x Q' E' := by
  intro s hs
  have hx := h s (hp s hs)
  cases hr : x s with
  | ok a s' =>
    rw [hr] at hx
    exact hq a s' hx
  | error e s' =>
    rw [hr] at hx
    exact he s' hx

theorem Triple.pure (a : α) (h : ∀ s, P s → Q a s) :
    Triple (ε := ε) P (Pure.pure a) Q E := fun s hs => h s hs

theorem Triple.bind {x : EStateM ε σ α} {f : α → EStateM ε σ β} (hx : Triple P x Q E)
    (hf : ∀ a, Triple (Q a) (f a) R E) : Triple P (x >>= f) R E := by
  intro s hs
  have h := hx s hs
  change match EStateM.bind x f s with
    | .ok a s' => R a s'
    | .error _ s' => E s'
  unfold EStateM.bind
  cases hr : x s with
  | ok a s' =>
    rw [hr] at h
    exact hf a s' h
  | error e s' =>
    rw [hr] at h
    exact h

/-- What holds of the state that has been read may be used behind the read. -/
theorem Triple.get {f : σ → EStateM ε σ β} (hf : ∀ s, P s → Triple P (f s) R E) :
    Triple P (getThe σ >>= f) R E := fun s hs => hf s hs s hs

/-- A property that the code keeps however it ends may be weakened for a throw. -/
theorem Triple.of_after {x : EStateM ε σ α} (h : ∀ s, P s → P (after (x s)))
    (he : ∀ s, P s → E s) : Triple P x (fun _ => P) E := by
  intro s hs
  have hx := h s hs
  cases hr : x s with
  | ok a s' =>
    rw [hr] at hx
    exact hx
  | error e s' =>
    rw [hr] at hx
    exact he s' hx

/-- A property that code keeps however it ends. -/
def Keeps (P : σ → Prop) (x : EStateM ε σ α) : Prop := Triple P x (fun _ => P) P

theorem Keeps.pure (a : α) : Keeps (ε := ε) P (Pure.pure a) := Triple.pure a fun _ h => h

theorem Keeps.bind {x : EStateM ε σ α} {f : α → EStateM ε σ β} (hx : Keeps P x)
    (hf : ∀ a, Keeps P (f a)) : Keeps P (x >>= f) := Triple.bind hx hf

theorem Keeps.get {f : σ → EStateM ε σ β} (hf : ∀ a, Keeps P (f a)) :
    Keeps P (getThe σ >>= f) := Triple.get fun a _ => hf a

theorem Keeps.after {x : EStateM ε σ α} (h : Keeps P x) (hp : P s) : P (after (x s)) := by
  have hs := h s hp
  cases hr : x s with
  | ok a s' =>
    rw [hr] at hs
    exact hs
  | error e s' =>
    rw [hr] at hs
    exact hs

end Throwing
