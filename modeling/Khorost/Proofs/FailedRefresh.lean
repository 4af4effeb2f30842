import Khorost.Proofs.Revocation

namespace Khorost.Server

open Throwing

/-- A call of the client throws on the way from one state to the other. -/
def ClientThrows (env : Surroundings) (s s' : Server) : Prop :=
  ∃ n, s.calls < n ∧ n ≤ s'.calls ∧ env.throws n = true

/-- The tokens and their map are as they were before the request, and it is
answered with an internal error. -/
structure LeftAsItWas (s : Server) (answer : Reply × Server) : Prop where
  heap : ∀ token < s.next, answer.2.heap token = s.heap token
  tokens : answer.2.tokens = s.tokens
  status : ∃ reason, answer.1 = .status 500 reason

/-- The token has the new strings, and the map is still the old one. -/
structure Rewritten (token : Nat) (a r : List UInt8) (s s' : Server) : Prop where
  issued : Issued (s'.heap token) a r
  tokens : s'.tokens = s.tokens

/-- No call of the client behind the first `calls` has thrown. -/
def Quiet (env : Surroundings) (calls : Nat) (s : Server) : Prop :=
  ∀ n, calls < n → n ≤ s.calls → env.throws n = false

variable {env : Surroundings} {s s₁ : Server} {a r : List UInt8} {token calls : Nat}

theorem Quiet.start (env : Surroundings) (s : Server) : Quiet env s.calls s := by
  intro n hn hle
  omega

theorem Quiet.not_thrown (h : Quiet env s.calls s₁) : ¬ ClientThrows env s s₁ := by
  intro ⟨n, hn, hle, hthrow⟩
  rw [h n hn hle] at hthrow
  cases hthrow

theorem Quiet.same (h : Quiet env calls s) (hs₁ : s₁.calls = s.calls) : Quiet env calls s₁ := by
  intro n hlt hle
  exact h n hlt (hs₁ ▸ hle)

theorem Quiet.call (h : Quiet env calls s) (hn : env.throws (s.calls + 1) = false)
    (hs₁ : s₁.calls = s.calls + 1) : Quiet env calls s₁ := by
  intro n hlt hle
  rcases Nat.lt_or_eq_of_le (hs₁ ▸ hle) with hle | rfl
  · exact h n hlt (by omega)
  · exact hn

theorem quiet_redis {f : Server → α × Server} (hf : ∀ s, (f s).2.calls = s.calls) :
    Triple (Quiet env calls) (redis env f) (fun _ => Quiet env calls) fun _ => True :=
  triple_redis (fun _ _ _ => trivial) fun _ hs h => hs.call h (hf _)

/-- Code that calls nobody, and leaves what `E` asks for when it throws. -/
theorem quiet_local {x : Act α} {E : Server → Prop} (h : ∀ s, (after (x s)).calls = s.calls)
    (he : ∀ s, Quiet env calls s → E s) :
    Triple (Quiet env calls) x (fun _ => Quiet env calls) E :=
  .of_after (fun s hs => hs.same (h s)) he

theorem throw_calls (o : Option α) (s : Server) :
    (after ((orThrow o : Act α) s)).calls = s.calls := by
  rw [throw_after]

theorem remove_id_calls (id : List UInt8) (s : Server) :
    (after (removeTokenId id s)).calls = s.calls := by
  unfold removeTokenId
  split <;> rfl

theorem quiet_find (isAccessToken : Bool) (id : List UInt8) :
    Triple (Quiet env calls) (findToken env isAccessToken id) (fun _ => Quiet env calls)
      fun _ => True := by
  unfold findToken
  split
  · exact .pure none fun _ h => h
  refine .get fun s _ => ?_
  split
  · exact .pure _ fun _ h => h
  refine .bind (quiet_redis fun _ => rfl) fun found => ?_
  refine .bind (quiet_redis fun _ => rfl) fun _ => ?_
  split
  · refine .bind (quiet_redis fun _ => rfl) fun value => ?_
    refine .bind (quiet_redis fun _ => rfl) fun _ => ?_
    split
    · refine .bind (quiet_local (throw_calls _) fun _ _ => trivial) fun t => ?_
      refine .bind (quiet_local (fun _ => rfl) fun _ _ => trivial) fun token => ?_
      exact .bind (quiet_local (fun _ => rfl) fun _ _ => trivial) fun _ => .pure _ fun _ h => h
    · exact .pure none fun _ h => h
  · exact .bind (quiet_local (remove_id_calls _) fun _ _ => trivial) fun _ =>
      .pure none fun _ h => h

theorem quiet_parse (http : HttpHeader) (isAccessToken : Bool) (check : Option Int) :
    Triple (Quiet env calls) (parseToken env http isAccessToken check) (fun _ => Quiet env calls)
      fun _ => True := by
  unfold parseToken
  split
  · exact .pure none fun _ h => h
  refine .bind (quiet_find isAccessToken _) fun found => ?_
  split
  · refine .get fun s _ => ?_
    dsimp only
    split
    · exact .bind (quiet_local (fun _ => rfl) fun _ _ => trivial) fun _ => .pure none fun _ h => h
    · exact .pure _ fun _ h => h
  · exact .pure none fun _ h => h

/-- The map is that of `s`, and no call has thrown. -/
structure Begun (env : Surroundings) (calls : Nat) (s s' : Server) : Prop where
  tokens : s'.tokens = s.tokens
  quiet : Quiet env calls s'

/-- Between the rewriting of the token and the update of the map. -/
structure Halfway (env : Surroundings) (calls token : Nat) (a r : List UInt8) (s s' : Server) :
    Prop extends Begun env calls s s' where
  issued : Issued (s'.heap token) a r

theorem begun_throw (o : Option α) :
    Triple (Begun env calls s₁) (orThrow o : Act α) (fun _ => Begun env calls s₁)
      fun s' => Rewritten token a r s₁ s' ∨ Quiet env calls s' :=
  (keeps_throw o).weaken (fun _ h => h) (fun _ _ h => h) fun _ h => .inr h.quiet

theorem begun_modify (token : Nat) (f : Token → Token) (P : Token → Prop) :
    Triple (fun s => Begun env calls s₁ s ∧ P (s.heap token)) (modifyToken token f)
      (fun _ s => Begun env calls s₁ s ∧ Assigned f P (s.heap token)) E :=
  fun s ⟨hs, hp⟩ => ⟨⟨hs.tokens, hs.quiet.same rfl⟩, s.heap token, hp, if_pos rfl⟩

theorem halfway_redis {f : Server → α × Server} (hmem : ∀ s, SameMemory s (f s).2)
    (hcalls : ∀ s, (f s).2.calls = s.calls) :
    Triple (Halfway env calls token a r s₁) (redis env f)
      (fun _ => Halfway env calls token a r s₁)
      fun s' => Rewritten token a r s₁ s' ∨ Quiet env calls s' := by
  refine triple_redis (fun s hs _ => .inl ⟨hs.issued, hs.tokens⟩) fun s hs h => ?_
  have hm := hmem { s with calls := s.calls + 1 }
  refine ⟨⟨hm.tokens.trans hs.tokens, hs.quiet.call h (hcalls _)⟩, ?_⟩
  rw [hm.heap]
  exact hs.issued

theorem halfway_setex (key : List UInt8) (n : Int) (p : Payload) :
    Triple (Halfway env calls token a r s₁) (setex env key n p)
      (fun _ => Halfway env calls token a r s₁)
      fun s' => Rewritten token a r s₁ s' ∨ Quiet env calls s' := by
  refine halfway_redis (fun s => ?_) fun s => ?_
  · dsimp only
    split <;> exact ⟨rfl, rfl, rfl⟩
  · dsimp only
    split <;> rfl

/-- The token that the request has found is rewritten before the first call that
may throw. -/
theorem refresh_thrown (hparse : parseToken env http false (some now) s = .ok (some token) s₁)
    (hquiet : Quiet env calls s₁) :
    Triple (· = s) (refreshToken env http now a r) (fun _ => Quiet env calls)
      fun s' => Rewritten token a r s₁ s' ∨ Quiet env calls s' := by
  rintro _ rfl
  unfold refreshToken
  rw [bind_ok hparse]
  dsimp only
  refine Triple.get (P := Begun env calls s₁) (fun s _ => ?_) s₁ ⟨rfl, hquiet⟩
  refine .bind (begun_throw _) fun refreshDuration => ?_
  refine .bind (begun_throw _) fun accessDuration => ?_
  refine Triple.bind ((begun_modify token _ fun _ => True).weaken (fun _ h => ⟨h, trivial⟩)
    (fun _ _ h => h) fun _ h => h) fun _ => ?_
  refine Triple.bind (begun_modify token _ _) fun _ => ?_
  refine Triple.weaken (P := Halfway env calls token a r s₁) (.get fun s _ => ?_) (fun s hs => ?_)
    (fun _ _ h => h) fun _ h => h
  · refine .bind ((keeps_throw _).weaken (fun _ h => h) (fun _ _ h => h) fun _ h => .inr h.quiet)
      fun cacheSetValue => ?_
    refine .bind (halfway_redis (fun _ => ⟨rfl, rfl, rfl⟩) fun _ => rfl) fun _ => ?_
    refine .bind (halfway_redis (fun _ => ⟨rfl, rfl, rfl⟩) fun _ => rfl) fun _ => ?_
    refine .bind (halfway_setex _ _ _) fun _ => ?_
    refine .bind (halfway_setex _ _ _) fun _ => ?_
    refine .bind (halfway_redis (fun _ => ⟨rfl, rfl, rfl⟩) fun _ => rfl) fun _ => ?_
    refine .bind (halfway_redis (fun _ => ⟨rfl, rfl, rfl⟩) fun _ => rfl) fun _ => ?_
    refine .bind (Q := fun _ => Quiet env calls) (fun s hs => hs.quiet.same rfl) fun _ => ?_
    -- the map is updated now, and nothing below calls the client
    refine .get fun s _ => ?_
    refine .bind (quiet_local (throw_calls _) fun _ h => .inr h) fun _ => ?_
    exact .bind (quiet_local (throw_calls _) fun _ h => .inr h) fun _ => .pure _ fun _ h => h
  · obtain ⟨hs, t₁, ⟨t₀, -, rfl⟩, ht⟩ := hs
    refine ⟨hs, ?_⟩
    rw [ht]
    exact issued_by_setters t₀ a r _ _ _ _

/-- A request that the client has failed is told that it is not authorized. -/
theorem failed_refresh_answer
    (h : ClientThrows env s (actionRefreshToken env http now a r s).2) :
    (actionRefreshToken env http now a r s).1 = .status 401 (ascii "Unauthorized") := by
  rw [action_state] at h
  unfold actionRefreshToken
  cases hrun : refreshToken env http now a r s with
  | error e s' => rfl
  | ok json s' =>
    exfalso
    rw [hrun] at h
    have hquiet : Quiet env s.calls s' := by
      cases hparse : parseToken env http false (some now) s with
      | error e s₁ =>
        unfold refreshToken at hrun
        rw [bind_error hparse] at hrun
        cases hrun
      | ok found s₁ =>
        have hs₁ := (quiet_parse http false (some now)).ok (.start env s) hparse
        cases found with
        | none =>
          unfold refreshToken at hrun
          rw [bind_ok hparse] at hrun
          cases hrun
          exact hs₁
        | some token => exact (refresh_thrown hparse hs₁).ok rfl hrun
    exact hquiet.not_thrown h

/-- If it has found its token before, that token has got the new strings, under
which the map does not know it. -/
theorem failed_refresh_rewrites
    (hparse : parseToken env http false (some now) s = .ok (some token) s₁)
    (h : ClientThrows env s (actionRefreshToken env http now a r s).2) :
    Rewritten token a r s₁ (actionRefreshToken env http now a r s).2 := by
  rw [action_state] at h ⊢
  have hs₁ := (quiet_parse http false (some now)).ok (.start env s) hparse
  have hrun := refresh_thrown (a := a) (r := r) hparse hs₁ s rfl
  cases hr : refreshToken env http now a r s with
  | ok json s' =>
    rw [hr] at h hrun
    exact absurd h hrun.not_thrown
  | error e s' =>
    rw [hr] at h hrun
    exact hrun.resolve_right fun hquiet => hquiet.not_thrown h

/-- Wherever the client throws, the request does not leave what it should. -/
theorem failed_refresh_not_kept
    (h : ClientThrows env s (actionRefreshToken env http now a r s).2) :
    ¬ LeftAsItWas s (actionRefreshToken env http now a r s) := by
  rintro ⟨-, -, reason, hstatus⟩
  rw [failed_refresh_answer h] at hstatus
  cases hstatus

/-- Surroundings in which the first call of the client throws. -/
def firstCallThrows : Surroundings := { firstHour with throws := fun n => n = 1 }

theorem first_call_throws : ClientThrows firstCallThrows heldOne
    (actionRefreshToken firstCallThrows refreshRequest 0 (ascii "A2") (ascii "R2") heldOne).2 :=
  ⟨1, by decide, by decide +kernel, rfl⟩

theorem held_not_kept : ¬ LeftAsItWas heldOne
    (actionRefreshToken firstCallThrows refreshRequest 0 (ascii "A2") (ascii "R2") heldOne) :=
  failed_refresh_not_kept first_call_throws

/-- The held token has the strings of the refresh that has failed. -/
theorem failed_refresh_renames : ¬ ∀ (env : Surroundings) (http : HttpHeader) (now : Int)
    (a r : List UInt8) (s : Server), ClientThrows env s (actionRefreshToken env http now a r s).2 →
    LeftAsItWas s (actionRefreshToken env http now a r s) := by
  intro h
  have hkept := (h _ _ _ _ _ _ first_call_throws).heap 0 (by decide)
  have hstring : ((actionRefreshToken firstCallThrows refreshRequest 0 (ascii "A2") (ascii "R2")
      heldOne).2.heap 0).accessToken = ascii "A2" := by decide +kernel
  rw [hkept] at hstring
  exact absurd hstring (by decide)

end Khorost.Server
