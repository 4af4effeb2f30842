import Khorost.Db.Postgres
import Khorost.Lib.Custody

namespace Khorost.DbPool

variable {κ : Type} [DecidableEq κ] {s s' : DbPool κ} {k : κ}

/-- What a client has done to the queue where its calls have come so far. -/
def Done : DbConnection → List PoolEvent → Prop
  | .absent, events => events = []
  | .waiting, events => events = []
  | .popped conn, events => events = [.taken conn]
  | .alive (some conn), events => events = [.taken conn]
  | .releasing conn _, events => events = [.taken conn]
  | .pushed conn _, events => events = [.taken conn, .released conn]
  | .alive none, events => ∃ conn, events = [.taken conn, .released conn]
  | .destroyed, events => ∃ conn, events = [.taken conn, .released conn]

/-- Each connection is in the queue or a client's, and each client has done what
its place in its calls says. -/
structure Inv (n : Nat) (s : DbPool κ) : Prop where
  custody : Custody {conn | conn < n} s.freePool fun k => (s.client k).held
  done : ∀ k, Done (s.client k) (s.eventsOf k)

theorem goes_self (s : DbPool κ) (k : κ) (c : DbConnection) : (s.goes k c).client k = c :=
  Function.update_self ..

theorem goes_other (s : DbPool κ) (c : DbConnection) (h : j ≠ k) :
    (s.goes k c).client j = s.client j := Function.update_of_ne h ..

theorem events_logged_self (s : DbPool κ) (k : κ) (e : PoolEvent) :
    (s.logged k e).eventsOf k = s.eventsOf k ++ [e] := by
  simp [eventsOf, logged, List.filterMap_append]

theorem events_logged_other (s : DbPool κ) (e : PoolEvent) (h : j ≠ k) :
    (s.logged k e).eventsOf j = s.eventsOf j := by
  simp [eventsOf, logged, List.filterMap_append, h.symm]

/-- A step inside of a client, which keeps what it holds. -/
theorem Inv.inside (h : Inv n s) (hheld : c.held = (s.client k).held)
    (hdone : Done c (s.eventsOf k)) : Inv n (s.goes k c) where
  custody := by
    have hsame : (fun j => ((s.goes k c).client j).held) = fun j => (s.client j).held := by
      funext j
      by_cases hj : j = k
      · subst hj
        rw [goes_self, hheld]
      · rw [goes_other s c hj]
    rw [hsame]
    exact h.custody
  done := fun j => by
    by_cases hj : j = k
    · subst hj
      rw [goes_self]
      exact hdone
    · rw [goes_other s c hj]
      exact h.done j

/-- All that a step can do: nothing, something inside of a client, or one of the
two things done to the queue. -/
inductive Effect (s : DbPool κ) (k : κ) : DbPool κ → Prop
  | same : Effect s k s
  | inside (c : DbConnection) (hheld : c.held = (s.client k).held)
    (hdone : ∀ events, Done (s.client k) events → Done c events) : Effect s k (s.goes k c)
  | take (conn : Nat) (rest : List Nat) (hc : s.client k = .waiting)
    (hfree : s.freePool = conn :: rest) : Effect s k
      (({ s with freePool := rest }.goes k (.popped conn)).logged k (.taken conn))
  | push (conn : Nat) (last : Bool) (hc : s.client k = .releasing conn last) : Effect s k
      (({ s with freePool := s.freePool ++ [conn] }.goes k (.pushed conn last)).logged k
        (.released conn))

theorem Effect.within {c₀ c : DbConnection} (hc : s.client k = c₀) (hheld : c.held = c₀.held)
    (hdone : ∀ events, Done c₀ events → Done c events) : Effect s k (s.goes k c) :=
  .inside c (by rw [hc, hheld]) (by rwa [hc])

theorem step_effect {action : PoolAction} (hstep : s.step k action = some s') :
    Effect s k s' := by
  cases action with
  | construct =>
    simp only [DbPool.step] at hstep
    split at hstep <;> cases hstep
    next hc => exact .within hc rfl fun _ h => h
  | take =>
    simp only [DbPool.step] at hstep
    split at hstep <;> cases hstep
    · exact .same
    · next conn rest hc hfree => exact .take conn rest hc hfree
  | store =>
    simp only [DbPool.step] at hstep
    split at hstep <;> cases hstep
    next hc => exact .within hc rfl fun _ h => h
  | release =>
    simp only [DbPool.step] at hstep
    split at hstep <;> cases hstep
    · next hc => exact .within hc rfl fun _ h => h
    · exact .same
  | destroy =>
    simp only [DbPool.step] at hstep
    split at hstep <;> cases hstep
    · next hc => exact .within hc rfl fun _ h => h
    · next hc => exact .within hc rfl fun _ h => h
  | push =>
    simp only [DbPool.step] at hstep
    split at hstep <;> cases hstep
    next conn last hc => exact .push conn last hc
  | reset =>
    simp only [DbPool.step] at hstep
    split at hstep <;> cases hstep
    next conn last hc =>
      cases last with
      | false => exact .within hc rfl fun _ h => ⟨conn, h⟩
      | true => exact .within hc rfl fun _ h => ⟨conn, h⟩

/-- One thing done to the queue is entered for the client that does it. -/
theorem done_logged (h : ∀ j, Done (s.client j) (s.eventsOf j)) {c : DbConnection} {e : PoolEvent}
    (hk : Done c (s.eventsOf k ++ [e])) (j : κ) :
    Done (((s.goes k c).logged k e).client j) (((s.goes k c).logged k e).eventsOf j) := by
  have hclient : ((s.goes k c).logged k e).client j = (s.goes k c).client j := rfl
  have hevents : (s.goes k c).eventsOf j = s.eventsOf j := rfl
  rw [hclient]
  by_cases hj : j = k
  · subst hj
    rw [goes_self, events_logged_self, hevents]
    exact hk
  · rw [goes_other s c hj, events_logged_other _ e hj, hevents]
    exact h j

theorem Inv.step (h : Inv n s) (heffect : Effect s k s') : Inv n s' := by
  have hk := h.done k
  cases heffect with
  | same => exact h
  | inside c hheld hdone => exact h.inside hheld (hdone _ hk)
  | take conn rest hc hfree =>
    have hcustody := h.custody
    rw [hfree] at hcustody
    rw [hc] at hk
    have hevents : s.eventsOf k = [] := hk
    refine ⟨hcustody.take (k := k) (congrArg DbConnection.held hc)
      (congrArg DbConnection.held (goes_self _ k _))
      fun j hj => congrArg DbConnection.held (goes_other _ _ hj), ?_⟩
    exact done_logged (s := { s with freePool := rest }) h.done (congrArg (· ++ [_]) hevents)
  | push conn last hc =>
    rw [hc] at hk
    have hevents : s.eventsOf k = [.taken conn] := hk
    refine ⟨h.custody.give (k := k) (congrArg DbConnection.held hc)
      (congrArg DbConnection.held (goes_self _ k _))
      fun j hj => congrArg DbConnection.held (goes_other _ _ hj), ?_⟩
    exact done_logged (s := { s with freePool := s.freePool ++ [conn] }) h.done
      (congrArg (· ++ [_]) hevents)

theorem prepared_inv (n : Nat) : Inv n ((empty : DbPool κ).prepare n) where
  custody := by
    have hset : {conn | conn < n} = {conn | conn ∈ ((empty : DbPool κ).prepare n).freePool} := by
      ext conn
      simp [prepare, empty]
    rw [hset]
    exact .start (by simp [prepare, empty, List.nodup_range'])
  done := fun _ => rfl

theorem Inv.run (h : Inv n s) (hrun : s.run steps = some s') : Inv n s' := by
  induction steps generalizing s with
  | nil =>
    cases hrun
    exact h
  | cons step steps ih =>
    obtain ⟨s₁, hstep, hrest⟩ := Option.bind_eq_some_iff.mp hrun
    exact ih (h.step (step_effect hstep)) hrest

theorem done_prefix {c : DbConnection} {events : List PoolEvent} (h : Done c events) :
    ∃ conn, events <+: [.taken conn, .released conn] := by
  have hnone : events = [] → ∃ conn, events <+: [.taken conn, .released conn] := by
    rintro rfl
    exact ⟨0, List.nil_prefix⟩
  have htaken : ∀ conn, events = [.taken conn] →
      ∃ conn, events <+: [.taken conn, .released conn] := by
    rintro conn rfl
    exact ⟨conn, [.released conn], rfl⟩
  have hboth : ∀ conn, events = [.taken conn, .released conn] →
      ∃ conn, events <+: [.taken conn, .released conn] := by
    rintro conn rfl
    exact ⟨conn, List.prefix_rfl⟩
  cases c with
  | absent => exact hnone h
  | waiting => exact hnone h
  | popped conn => exact htaken conn h
  | alive member =>
    cases member with
    | none => exact h.elim hboth
    | some conn => exact htaken conn h
  | releasing conn last => exact htaken conn h
  | pushed conn last => exact hboth conn h
  | destroyed => exact h.elim hboth

/-- What holds of a pool of `n` connections at every moment. A client's events
begin with the one acquisition in its constructor, and a release is the last. -/
structure Safe (n : Nat) (s : DbPool κ) : Prop where
  once : ∀ conn < n, (s.freePool.count conn = 1 ∧ ∀ k, (s.client k).held ≠ some conn) ∨
    (conn ∉ s.freePool ∧ ∃! k, (s.client k).held = some conn)
  only : ∀ conn, conn ∈ s.freePool ∨ (∃ k, (s.client k).held = some conn) → conn < n
  waits : ∀ k s', s.freePool = [] → s.step k .take = some s' → s' = s
  released_once : ∀ k, ∃ conn, s.eventsOf k <+: [.taken conn, .released conn]

/-- In every state that any order of the clients' steps leads to. -/
theorem pool_safe (n : Nat) (steps : List (κ × PoolAction)) (s : DbPool κ)
    (hrun : (empty.prepare n).run steps = some s) : Safe n s := by
  have h := (prepared_inv n).run hrun
  refine ⟨fun conn hconn => h.custody.exactly_once hconn, fun conn => (h.custody.all conn).mpr,
    fun k s' hempty hstep => ?_, fun k => ?_⟩
  · simp only [DbPool.step, hempty] at hstep
    split at hstep <;> cases hstep
    · rfl
    · next hfree => cases hfree
  · exact done_prefix (h.done k)

/-- Two clients and one connection: it is released by hand, goes to the client
that has waited, and both are destroyed. -/
def handover : List (Bool × PoolAction) :=
  [(false, .construct), (true, .construct), (false, .take), (true, .take), (false, .store),
    (false, .release), (false, .push), (true, .take), (false, .reset), (true, .store),
    (false, .destroy), (true, .destroy), (true, .push), (true, .reset)]

theorem pool_safe_handover : ∃ s, (empty.prepare 1).run handover = some s ∧ Safe 1 s :=
  ⟨_, rfl, pool_safe 1 handover _ rfl⟩

end Khorost.DbPool
