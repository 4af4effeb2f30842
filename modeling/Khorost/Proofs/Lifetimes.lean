import Khorost.Proofs.Revocation

namespace Khorost.Server

open Throwing

/-- The two durations that a refresh works with: those of the request, or else
those that the token has. -/
structure Asked (http : HttpHeader) (t : Token) (timeAccess timeRefresh : Int) : Prop where
  access : ∃ own, t.getAccessDuration = some own ∧
    timeAccess = getIntParameter http (ascii "time_access") own
  refresh : ∃ own, t.getRefreshDuration = some own ∧
    timeRefresh = getIntParameter http (ascii "time_refresh") own

/-- A duration leads to a lifetime: the sum is a number of type `int`, a time to
live that is positive, and an expiry later than now. -/
structure Lives (now duration : Int) (expire : Int) : Prop where
  fits : addInt duration khlTokenAppendTime = duration + khlTokenAppendTime
  positive : 0 < addInt duration khlTokenAppendTime
  later : now < expire

/-- How a refresh should have ended, or thrown. If it has ended, no `setex` has
been refused. -/
structure LivesOn (env : Surroundings) (now : Int) (a r : List UInt8) (token : Nat)
    (timeAccess timeRefresh : Int) (result : EStateM.Result Unit Server (Option TokenJson)) :
    Prop where
  access : Lives now timeAccess ((after result).heap token).accessExpire
  refresh : Lives now timeRefresh ((after result).heap token).refreshExpire
  stored : (returned result).isSome → ∀ key ∈ [env.tokenContext true a, env.tokenContext false r],
    (after result).cache key = some ((after result).heap token).payload

/-- That for the durations that a request asks for. -/
def RefreshLives (env : Surroundings) (http : HttpHeader) (now : Int) (a r : List UInt8)
    (token : Nat) (t : Token) (result : EStateM.Result Unit Server (Option TokenJson)) : Prop :=
  ∀ timeAccess timeRefresh, Asked http t timeAccess timeRefresh →
    LivesOn env now a r token timeAccess timeRefresh result

/-- Two minutes more are positive and a number of type `int`. -/
def InRange (duration : Int) : Prop :=
  0 < duration + khlTokenAppendTime ∧ duration + khlTokenAppendTime < 2 ^ 31

instance (duration : Int) : Decidable (InRange duration) :=
  inferInstanceAs (Decidable (_ ∧ _))

/-- The durations that a request asks for are in the range. -/
def AsksInRange (http : HttpHeader) (t : Token) : Prop :=
  ∀ timeAccess timeRefresh, Asked http t timeAccess timeRefresh →
    InRange timeAccess ∧ InRange timeRefresh

/-- A duration leads to a lifetime exactly if it is in the range. -/
theorem lives_iff (now duration : Int) :
    Lives now duration (now + seconds (addInt duration khlTokenAppendTime)) ↔ InRange duration := by
  constructor
  · rintro ⟨hfits, hpositive, -⟩
    have hsmall : (duration + khlTokenAppendTime).bmod (2 ^ 32) < 2 ^ 31 := Int.bmod_lt (by decide)
    rw [← addInt, hfits] at hsmall
    exact ⟨hfits ▸ hpositive, hsmall⟩
  · rintro ⟨hpositive, hsmall⟩
    have hfits : addInt duration khlTokenAppendTime = duration + khlTokenAppendTime := by
      rw [addInt]
      exact Int.bmod_eq_of_le (by omega) (by omega)
    have hlife : 0 < addInt duration khlTokenAppendTime := hfits ▸ hpositive
    refine ⟨hfits, hlife, ?_⟩
    rw [seconds]
    omega

def refreshedToken (env : Surroundings) (now : Int) (a r : List UInt8)
    (timeAccess timeRefresh : Int) (t : Token) : Token :=
  ((((((t.setAccessToken a).setAccessDuration timeAccess).setAccessExpire env
    (now + seconds (addInt timeAccess khlTokenAppendTime))).setRefreshToken
    r).setRefreshDuration timeRefresh).setRefreshExpire env
    (now + seconds (addInt timeRefresh khlTokenAppendTime)))

/-- The token and the cache on the way. -/
structure Tracked (token : Nat) (t : Token) (cache : List UInt8 → Option Payload) (s : Server) :
    Prop where
  heap : s.heap token = t
  cache : s.cache = cache

variable {env : Surroundings} {http : HttpHeader} {now timeAccess timeRefresh : Int}
  {a r : List UInt8} {s s₁ : Server} {token : Nat} {t : Token}
  {cache : List UInt8 → Option Payload}

theorem tracked_redis {f : Server → α × Server}
    (change : (List UInt8 → Option Payload) → List UInt8 → Option Payload)
    (hheap : ∀ s, (f s).2.heap = s.heap) (hcache : ∀ s, (f s).2.cache = change s.cache) :
    Triple (Tracked token t cache) (redis env f) (fun _ => Tracked token t (change cache))
      fun s => s.heap token = t := by
  refine triple_redis (fun s hs _ => hs.heap) fun s hs _ => ⟨?_, ?_⟩
  · rw [hheap]
    exact hs.heap
  · rw [hcache]
    exact congrArg change hs.cache

theorem tracked_setex (key : List UInt8) (n : Int) (p : Payload) :
    Triple (Tracked token t cache) (setex env key n p)
      (fun _ => Tracked token t (stored cache key n p)) fun s => s.heap token = t := by
  refine tracked_redis (fun cache => stored cache key n p) (fun s => ?_) fun s => ?_
  · dsimp only
    split <;> rfl
  · unfold stored
    dsimp only
    split <;> rfl

theorem tracked_local {x : Act α} (hheap : ∀ s, (after (x s)).heap = s.heap)
    (hcache : ∀ s, (after (x s)).cache = s.cache) :
    Triple (Tracked token t cache) x (fun _ => Tracked token t cache) fun s => s.heap token = t := by
  refine .of_after (fun s hs => ⟨?_, (hcache s).trans hs.cache⟩) fun _ hs => hs.heap
  rw [hheap]
  exact hs.heap

theorem tracked_throw (o : Option α) :
    Triple (Tracked token t cache) (orThrow o : Act α) (fun _ => Tracked token t cache)
      fun s => s.heap token = t :=
  tracked_local (fun s => by rw [throw_after]) fun s => by rw [throw_after]

theorem refresh_tracked (hparse : parseToken env http false (some now) s = .ok (some token) s₁)
    (hasked : Asked http (s₁.heap token) timeAccess timeRefresh) :
    let t' := refreshedToken env now a r timeAccess timeRefresh (s₁.heap token)
    Triple (· = s) (refreshToken env http now a r) (fun _ => Tracked token t'
      (stored (stored (fun k => if k ∈ [(s₁.heap token).accessToken, (s₁.heap token).refreshToken]
        then none else s₁.cache k)
        (env.tokenContext true a) (addInt timeAccess khlTokenAppendTime) t'.payload)
        (env.tokenContext false r) (addInt timeRefresh khlTokenAppendTime) t'.payload))
      fun s' => s'.heap token = t' := by
  rintro t' _ rfl
  obtain ⟨⟨ownAccess, haccess, rfl⟩, ownRefresh, hrefresh, rfl⟩ := hasked
  unfold refreshToken
  rw [bind_ok hparse]
  dsimp only
  rw [get_bind, hrefresh, bind_ok (rfl : orThrow (some ownRefresh) s₁ = .ok ownRefresh s₁), haccess,
    bind_ok (rfl : orThrow (some ownAccess) s₁ = .ok ownAccess s₁),
    bind_ok (rfl : modifyToken token _ s₁ = .ok () _), bind_ok (rfl : modifyToken token _ _ = .ok () _)]
  refine Triple.get (P := Tracked token t' s₁.cache) (fun s hs => ?_) _ ⟨?_, rfl⟩
  · rw [hs.heap]
    refine .bind (tracked_throw _) fun cacheSetValue => ?_
    refine .bind (tracked_redis (fun cache k =>
      if k ∈ [(s₁.heap token).accessToken, (s₁.heap token).refreshToken] then none else cache k)
      (fun _ => rfl) fun _ => rfl) fun _ => ?_
    refine .bind (tracked_redis id (fun _ => rfl) fun _ => rfl) fun _ => ?_
    refine .bind (tracked_setex _ _ _) fun _ => ?_
    refine .bind (tracked_setex _ _ _) fun _ => ?_
    refine .bind (tracked_redis id (fun _ => rfl) fun _ => rfl) fun _ => ?_
    refine .bind (tracked_redis id (fun _ => rfl) fun _ => rfl) fun _ => ?_
    refine .bind (tracked_local (fun _ => rfl) fun _ => rfl) fun _ => ?_
    refine .get fun s hs => ?_
    refine .bind (tracked_throw _) fun _ => ?_
    exact .bind (tracked_throw _) fun _ => .pure _ fun _ h => h
  · simp only [if_pos]
    rfl

theorem stored_positive (h : 0 < n) : stored m key n p = Maps.set m key p := if_pos h

theorem lives_on_iff (hparse : parseToken env http false (some now) s = .ok (some token) s₁)
    (hasked : Asked http (s₁.heap token) timeAccess timeRefresh) :
    LivesOn env now a r token timeAccess timeRefresh (refreshToken env http now a r s) ↔
      InRange timeAccess ∧ InRange timeRefresh := by
  have hrun := refresh_tracked (a := a) (r := r) hparse hasked s rfl
  generalize refreshToken env http now a r s = result at hrun ⊢
  have hheap : (after result).heap token =
      refreshedToken env now a r timeAccess timeRefresh (s₁.heap token) := by
    cases result with
    | ok json s' => exact hrun.heap
    | error e s' => exact hrun
  constructor
  · intro h
    have haccess := h.access
    have hrefresh := h.refresh
    rw [hheap] at haccess hrefresh
    exact ⟨(lives_iff now timeAccess).mp haccess, (lives_iff now timeRefresh).mp hrefresh⟩
  · rintro ⟨haccess, hrefresh⟩
    have hlivesAccess := (lives_iff now timeAccess).mpr haccess
    have hlivesRefresh := (lives_iff now timeRefresh).mpr hrefresh
    refine ⟨?_, ?_, fun hended key hkey => ?_⟩
    · rw [hheap]
      exact hlivesAccess
    · rw [hheap]
      exact hlivesRefresh
    · cases result with
      | ok json s' =>
        have hcache := hrun.cache
        rw [stored_positive hlivesAccess.positive, stored_positive hlivesRefresh.positive] at hcache
        rw [hheap]
        change s'.cache key = _
        rw [hcache]
        rcases List.mem_pair.mp hkey with rfl | rfl
        · have hother : env.tokenContext true a ≠ env.tokenContext false r := fun h =>
            Bool.noConfusion (context_inj h).1
          rw [Maps.set_other hother, Maps.set_same]
        · exact Maps.set_same
      | error e s' => cases hended

/-- A refresh leads to lifetimes exactly if two minutes more than its durations are
positive numbers of type `int`. -/
theorem refresh_lives_iff
    (hparse : parseToken env http false (some now) s = .ok (some token) s₁) :
    RefreshLives env http now a r token (s₁.heap token) (refreshToken env http now a r s) ↔
      AsksInRange http (s₁.heap token) := by
  constructor
  · intro h timeAccess timeRefresh hasked
    exact (lives_on_iff hparse hasked).mp (h timeAccess timeRefresh hasked)
  · intro h timeAccess timeRefresh hasked
    exact (lives_on_iff hparse hasked).mpr (h timeAccess timeRefresh hasked)

/-- The held token, whose own durations are 0, lives on for two minutes. -/
theorem held_lives : RefreshLives firstHour refreshRequest 0 (ascii "A2") (ascii "R2") 0
    (heldOne.heap 0) (refreshToken firstHour refreshRequest 0 (ascii "A2") (ascii "R2") heldOne) := by
  refine (refresh_lives_iff held_parsed).mpr ?_
  rintro _ _ ⟨⟨ownAccess, haccess, rfl⟩, ownRefresh, hrefresh, rfl⟩
  have hdurations : (heldOne.heap 0).getAccessDuration = some 0 ∧
      (heldOne.heap 0).getRefreshDuration = some 0 := by decide
  obtain rfl := Option.some.inj (hdurations.1.symm.trans haccess)
  obtain rfl := Option.some.inj (hdurations.2.symm.trans hrefresh)
  constructor <;> decide +kernel

/-- A request for a token that lives for 2^31 - 1 seconds. -/
def longRequest : HttpHeader :=
  let text := ascii "POST /auth/refresh_token?token=R1&time_access=2147483647 HTTP/1.1\r\n\r\n"
  let h := HttpHeader.new fun _ => 0
  ((h.processData text text.length 0).map Prod.fst).getD h

/-- Two minutes more than the longest time are a time that has passed. -/
theorem long_life_over : ¬ ∀ (env : Surroundings) (http : HttpHeader) (now : Int)
    (a r : List UInt8) (s s₁ : Server) (token : Nat),
    parseToken env http false (some now) s = .ok (some token) s₁ →
    RefreshLives env http now a r token (s₁.heap token) (refreshToken env http now a r s) := by
  intro h
  have hrequest : requestTokenId longRequest = some (ascii "R1") := by decide +kernel
  have hparse : parseToken firstHour longRequest false (some 0) heldOne = .ok (some 0) heldOne :=
    parse_memory hrequest (by decide) rfl rfl
  have hasked : Asked longRequest (heldOne.heap 0) 2147483647 0 :=
    ⟨⟨0, rfl, by decide +kernel⟩, 0, rfl, by decide +kernel⟩
  have hlives := h firstHour longRequest 0 (ascii "A2") (ascii "R2") heldOne heldOne 0 hparse _ _
    hasked
  have hexpire : ¬ 0 < ((after (refreshToken firstHour longRequest 0 (ascii "A2") (ascii "R2")
      heldOne)).heap 0).accessExpire := by decide +kernel
  exact hexpire hlives.access.later

end Khorost.Server
