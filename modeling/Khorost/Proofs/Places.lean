import Khorost.App.HttpController

namespace Khorost

namespace HttpController

variable {processHttp : ProcessHttp σ} {elsewhere : τ → σ → σ} {u : Nat → Uninitialised}
  {k : Nat} {s : HttpController σ} {I I' : Connection (Conversation σ) → Prop} {none none' : Prop}

/-- `I` holds of the connection at the place `k`, and `none` as long as there is none. -/
structure Place (k : Nat) (I : Connection (Conversation σ) → Prop) (none : Prop)
    (s : HttpController σ) : Prop where
  there : ∀ c, s.connections[k]? = some c → I c
  empty : s.connections[k]? = Option.none → none

theorem Place.add (h : Place k I none s)
    (hnew : none → ∀ fresh server, I (Connection.idle fresh ⟨HttpConnection.start, .opened server⟩))
    (fresh : Nat → UInt8) : Place k I none (s.addConnection fresh) := by
  constructor
  · intro c hc
    rcases Nat.lt_trichotomy k s.connections.length with hlt | heq | hgt
    · apply h.there c
      rwa [addConnection, List.getElem?_append_left hlt] at hc
    · subst heq
      simp only [addConnection, List.getElem?_concat_length, Option.some.injEq] at hc
      subst hc
      exact hnew (h.empty (by simp)) fresh s.server
    · simp [addConnection, List.getElem?_append_right (Nat.le_of_lt hgt),
        Nat.sub_ne_zero_of_lt hgt] at hc
  · intro hnone
    apply h.empty
    simp only [addConnection, List.getElem?_eq_none_iff, List.length_append] at hnone ⊢
    omega

theorem Place.own (h : Place k I none s) (hc : s.connections[k]? = some c)
    (happening : Conversation.Happening)
    (hstep : I c → I' (Conversation.step (u k) processHttp (c.withServer s.server) happening)) :
    Place k I' none' (s.happen u processHttp k happening) := by
  have hlt : k < s.connections.length := (List.getElem?_eq_some_iff.mp hc).1
  rw [HttpController.happen, hc]
  constructor
  · intro d hd
    obtain rfl : Conversation.step (u k) processHttp (c.withServer s.server) happening = d := by
      simpa [List.getElem?_set_self hlt] using hd
    exact hstep (h.there c hc)
  · intro hnone
    simp [hlt] at hnone

/-- What happens at another place does not concern this one. -/
theorem Place.other (h : Place k I none s) (hk : index ≠ k) (happening : Conversation.Happening) :
    Place k I none (s.happen u processHttp index happening) := by
  unfold HttpController.happen
  split
  · exact h
  · constructor
    · intro d hd
      rw [List.getElem?_set_ne hk] at hd
      exact h.there d hd
    · intro hnone
      rw [List.getElem?_set_ne hk] at hnone
      exact h.empty hnone

theorem Place.imp (h : Place k I none s) (hthere : ∀ c, I c → I' c) (hempty : none → none') :
    Place k I' none' s :=
  ⟨fun c hc => hthere c (h.there c hc), fun hnone => hempty (h.empty hnone)⟩

/-- Nothing happens on the connection at the place. -/
def Quiet (k : Nat) (s : HttpController σ) (event : Event τ) : Prop :=
  ∀ happening, event = .happened k happening → s.connections.length ≤ k

/-- One event, by what it does to the connection at the place, if anything. -/
theorem Place.step (h : Place k I none s) (event : Event τ)
    (hnew : none → ∀ fresh server, I (Connection.idle fresh ⟨HttpConnection.start, .opened server⟩))
    (hown : ∀ happening c, event = .happened k happening → s.connections[k]? = some c → I c →
      I' (Conversation.step (u k) processHttp (c.withServer s.server) happening))
    (hquiet : Quiet k s event → (∀ c, I c → I' c) ∧ (none → none')) :
    Place k I' none' (s.step u processHttp elsewhere event) := by
  cases event with
  | accepted fresh =>
    obtain ⟨hthere, hempty⟩ := hquiet nofun
    exact (h.add hnew fresh).imp hthere hempty
  | happened index happening =>
    by_cases hk : index = k
    · subst hk
      cases hfound : s.connections[index]? with
      | none =>
        obtain ⟨hthere, hempty⟩ := hquiet fun _ _ => List.getElem?_eq_none_iff.mp hfound
        have hsame : s.step u processHttp elsewhere (.happened index happening) = s := by
          rw [HttpController.step, HttpController.happen, hfound]
        rw [hsame]
        exact h.imp hthere hempty
      | some c => exact h.own hfound happening (hown happening c rfl hfound)
    · obtain ⟨hthere, hempty⟩ := hquiet fun _ he => by
        cases he
        exact absurd rfl hk
      exact (h.other hk happening).imp hthere hempty
  | elsewhere event =>
    obtain ⟨hthere, hempty⟩ := hquiet nofun
    exact ⟨fun c hc => hthere c (h.there c hc), fun hnone => hempty (h.empty hnone)⟩

end HttpController

end Khorost
