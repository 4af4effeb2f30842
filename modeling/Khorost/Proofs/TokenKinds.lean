import Khorost.Proofs.TokenSteps

namespace Khorost.Server

open Throwing

/-- Every entry of the cache stands under the string of its own token. -/
def Written (env : Surroundings) (s : Server) : Prop :=
  ∀ isAccessToken id p t, s.cache (env.tokenContext isAccessToken id) = some p →
    env.tokenOf p = some t → string t isAccessToken = id

/-- The states of a server that has started with no token in its memory. Between
two uses entries of the cache may expire. -/
inductive Reachable (env : Surroundings) : Server → Prop
  | start (hm : ∀ id, s.tokens id = none) (hw : Written env s) : Reachable env s
  | step (hr : Reachable env s) (h : Step env issued s s') : Reachable env s'
  | expire (hr : Reachable env s) (key : List UInt8) :
    Reachable env { s with cache := Maps.erase s.cache key }

/-- What a lookup or a request of one kind finds is a token whose string of that
kind is the id. -/
structure AgreesOnKind (env : Surroundings) (s : Server) (isAccessToken : Bool) (id : List UInt8) :
    Prop where
  find : ∀ token s', findToken env isAccessToken id s = .ok (some token) s' →
    string (s'.heap token) isAccessToken = id
  parse : ∀ http check token s', requestTokenId http = some id →
    parseToken env http isAccessToken check s = .ok (some token) s' →
    string (s'.heap token) isAccessToken = id

variable {env : Surroundings} {id : List UInt8}

theorem context_inj (h : env.tokenContext b x = env.tokenContext b' y) : b = b' ∧ x = y := by
  unfold Surroundings.tokenContext at h
  rw [List.append_assoc, List.append_assoc] at h
  have htail := List.append_cancel_left h
  cases b <;> cases b'
  · exact ⟨rfl, List.append_cancel_left htail⟩
  · exact absurd (List.cons.inj htail).1 (by decide)
  · exact absurd (List.cons.inj htail).1 (by decide)
  · exact ⟨rfl, List.append_cancel_left htail⟩

theorem written_lasting (env : Surroundings) : Lasting env (fun _ => True) (Written env) where
  below _ _ hb hw isAccessToken id p t hc := hw isAccessToken id p t (hb.cache _ p hc)
  heap _ _ _ hw := hw
  erase _ _ hw := hw
  insert _ _ _ _ hw := hw
  load _ _ _ _ _ _ _ _ _ hw := hw
  store := by
    intro s isAccessToken k p _ hp hw isAccessToken' id p' t hc ht
    rcases Maps.set_some hc with ⟨hkey, rfl⟩ | ⟨-, hc⟩
    · obtain ⟨rfl, rfl⟩ := context_inj hkey
      exact (hp t ht).1
    · exact hw isAccessToken' id p' t hc ht

theorem Reachable.written (hr : Reachable env s) : Written env s := by
  induction hr with
  | start _ hw => exact hw
  | step _ h ih => exact (written_lasting env).step h (fun _ _ => trivial) ih
  | @expire s _ key ih =>
    exact (written_lasting env).below s _ ⟨rfl, rfl, fun _ _ h => (Maps.erase_some h).2⟩ ih

theorem find_memory (hid : id ≠ []) (hm : s.tokens id = some token) (isAccessToken : Bool) :
    findToken env isAccessToken id s = .ok (some token) s := by
  rw [findToken, if_neg hid, get_bind, hm]
  rfl

/-- A request with the id of a token in the memory that has not expired is given it. -/
theorem parse_memory (hrequest : requestTokenId http = some id) (hid : id ≠ [])
    (hm : s.tokens id = some token) (ht : (s.heap token).isExpired isAccessToken check = false) :
    parseToken env http isAccessToken check s = .ok (some token) s := by
  rw [parseToken, hrequest]
  dsimp only
  rw [bind_ok (find_memory hid hm isAccessToken)]
  dsimp only
  rw [get_bind, ht]
  rfl

/-- What a request is given has been found under the id that it presents. -/
theorem parse_found (h : parseToken env http isAccessToken check s = .ok (some token) s') :
    ∃ id, requestTokenId http = some id ∧
      findToken env isAccessToken id s = .ok (some token) s' := by
  unfold parseToken at h
  cases hid : requestTokenId http with
  | none =>
    rw [hid] at h
    cases h
  | some id =>
    rw [hid] at h
    dsimp only at h
    refine ⟨id, rfl, ?_⟩
    cases hf : findToken env isAccessToken id s with
    | error e s₁ =>
      rw [bind_error hf] at h
      cases h
    | ok found s₁ =>
      rw [bind_ok hf] at h
      cases found with
      | none => cases h
      | some t =>
        dsimp only at h
        rw [get_bind] at h
        split at h
        · cases h
        · cases h
          rfl

/-- Memory and cache agree on the kind of a token exactly if the memory does not
lead from the id to a token whose string of that kind is another one. -/
theorem agrees_on_kind_iff (hr : Reachable env s) (isAccessToken : Bool) (id : List UInt8) :
    AgreesOnKind env s isAccessToken id ↔
      ¬ ∃ token, id ≠ [] ∧ s.tokens id = some token ∧
        string (s.heap token) isAccessToken ≠ id := by
  constructor
  · rintro ha ⟨token, hid, hm, hne⟩
    exact hne (ha.find token s (find_memory hid hm isAccessToken))
  · intro hn
    have hfind : ∀ token s', findToken env isAccessToken id s = .ok (some token) s' →
        string (s'.heap token) isAccessToken = id := by
      intro token s' he
      have ho := find_outcome env isAccessToken id s
      rw [he] at ho
      cases ho with
      | memory hid hm => exact Classical.byContradiction fun hne => hn ⟨token, hid, hm, hne⟩
      | loaded _ _ hc ht calls =>
        simp only [load, if_true]
        exact hr.written isAccessToken id _ _ hc ht
    refine ⟨hfind, fun http check token s' hid he => ?_⟩
    obtain ⟨id', hid', hf⟩ := parse_found he
    rw [hid] at hid'
    cases hid'
    exact hfind token s' hf

/-- Surroundings in which all times are within the first hour of the epoch and
the client never throws. -/
def firstHour : Surroundings where
  cacheDbContext := ascii "khl:"
  cacheSetTag := ascii "id"
  toIsoExtendedString t :=
    let digits := fun n : Int => [UInt8.ofNat (48 + n.toNat / 10), UInt8.ofNat (48 + n.toNat % 10)]
    ascii "1970-01-01T00:" ++ digits (t / 60000000) ++ ascii ":" ++ digits (t / 1000000 % 60)
  fromIsoExtendedString s :=
    if s.take 14 = ascii "1970-01-01T00:" then
      some (digitsValue ((s.drop 14).take 2) * 60000000 + digitsValue ((s.drop 17).take 2) * 1000000)
    else none
  throws _ := false

/-- The payload of a token with the strings `A1` and `R1`. -/
def payloadOne : Payload :=
  Maps.set (Maps.set (Maps.set (Maps.set (fun _ => none)
    khlJsonParamAccessToken (.ofString (ascii "A1")))
    khlJsonParamRefreshToken (.ofString (ascii "R1")))
    khlJsonParamAccessExpire (.ofString (ascii "1970-01-01T00:02:00")))
    khlJsonParamRefreshExpire (.ofString (ascii "1970-01-01T00:02:00"))

/-- A server with that token under both of its keys in the cache. -/
def cachedOne : Server where
  heap _ := ⟨[], [], 0, 0, fun _ => none⟩
  next := 0
  tokens _ := none
  cache := Maps.set (Maps.set (fun _ => none) (firstHour.tokenContext true (ascii "A1")) payloadOne)
    (firstHour.tokenContext false (ascii "R1")) payloadOne
  sets _ := []
  calls := 0

theorem token_one : ∃ t, firstHour.tokenOf payloadOne = some t ∧ t.accessToken = ascii "A1" ∧
    t.refreshToken = ascii "R1" := ⟨_, rfl, rfl, rfl⟩

theorem cached_reachable : Reachable firstHour cachedOne := by
  refine .start (fun _ => rfl) ?_
  intro isAccessToken id p t hc ht
  obtain ⟨t', ht', ha, hr⟩ := token_one
  have key : ∀ b x, firstHour.tokenContext isAccessToken id = firstHour.tokenContext b x →
      p = payloadOne → string t' b = x → string t isAccessToken = id := by
    rintro b x hkey rfl hx
    obtain ⟨rfl, rfl⟩ := context_inj hkey
    rw [ht'] at ht
    cases ht
    exact hx
  rcases Maps.set_some hc with ⟨hkey, hp⟩ | ⟨-, hc⟩
  · exact key false _ hkey hp hr
  · rcases Maps.set_some hc with ⟨hkey, hp⟩ | ⟨-, hc⟩
    · exact key true _ hkey hp ha
    · cases hc

theorem access_agrees : AgreesOnKind firstHour cachedOne true (ascii "A1") :=
  (agrees_on_kind_iff cached_reachable true (ascii "A1")).mpr fun ⟨_, _, hm, _⟩ => by cases hm

/-- A refresh string that has been looked up as such is found as an access string too. -/
theorem refresh_found_as_access : ¬ ∀ (env : Surroundings) (s : Server) (isAccessToken : Bool)
    (id : List UInt8), Reachable env s → AgreesOnKind env s isAccessToken id := by
  intro h
  have hr := Reachable.step cached_reachable (Step.find false (ascii "R1"))
  have hm : (after (findToken firstHour false (ascii "R1") cachedOne)).tokens (ascii "R1") = some 0 := by
    decide +kernel
  have hstring := (h _ _ true (ascii "R1") hr).find 0 _ (find_memory (by decide) hm true)
  have haccess : string ((after (findToken firstHour false (ascii "R1") cachedOne)).heap 0) true =
      ascii "A1" := by decide +kernel
  rw [haccess] at hstring
  exact absurd hstring (by decide)

end Khorost.Server
