import Mathlib.Logic.Relation
import Khorost.App.Tokens
import Khorost.Lib.Throwing

namespace Khorost.Server

open Throwing

/-- The state with a token object that `find_token` has loaded. -/
def load (s : Server) (t : Token) (calls : Nat) : Server :=
  { s with
    heap := fun i => if i = s.next then t else s.heap i
    next := s.next + 1
    tokens := Maps.insert (Maps.insert s.tokens t.refreshToken s.next) t.accessToken s.next
    calls := calls }

/-- Everything `find_token` can do. -/
inductive FindOutcome (env : Surroundings) (isAccessToken : Bool) (id : List UInt8) (s : Server) :
    EStateM.Result Unit Server (Option Nat) → Prop
  | empty (hid : id = []) : FindOutcome env isAccessToken id s (.ok none s)
  | memory (hid : id ≠ []) (hm : s.tokens id = some token) :
    FindOutcome env isAccessToken id s (.ok (some token) s)
  | missing (hid : id ≠ []) (hm : s.tokens id = none)
    (hc : s.cache (env.tokenContext isAccessToken id) = none) (calls : Nat) :
    FindOutcome env isAccessToken id s (.ok none { s with calls := calls })
  | loaded (hid : id ≠ []) (hm : s.tokens id = none)
    (hc : s.cache (env.tokenContext isAccessToken id) = some payload)
    (ht : env.tokenOf payload = some t) (calls : Nat) :
    FindOutcome env isAccessToken id s (.ok (some s.next) (s.load t calls))
  | unreadable (hid : id ≠ []) (hm : s.tokens id = none)
    (hc : s.cache (env.tokenContext isAccessToken id) = some payload)
    (ht : env.tokenOf payload = none) (calls : Nat) :
    FindOutcome env isAccessToken id s (.error () { s with calls := calls })
  | thrown (hid : id ≠ []) (hm : s.tokens id = none) (hn : ∃ n, env.throws n = true) (calls : Nat) :
    FindOutcome env isAccessToken id s (.error () { s with calls := calls })

theorem redis_ok (env : Surroundings) (f : Server → α × Server) (s : Server)
    (h : env.throws (s.calls + 1) = false) :
    redis env f s = .ok (f { s with calls := s.calls + 1 }).1 (f { s with calls := s.calls + 1 }).2 := by
  simp [redis, h]

theorem redis_error (env : Surroundings) (f : Server → α × Server) (s : Server)
    (h : env.throws (s.calls + 1) = true) :
    redis env f s = .error () { s with calls := s.calls + 1 } := by
  simp [redis, h]

/-- The rule of a call of the client: it throws and has only been counted, or does its
work. -/
theorem triple_redis {env : Surroundings} {P E : Server → Prop} {Q : α → Server → Prop}
    {f : Server → α × Server}
    (hthrow : ∀ s, P s → env.throws (s.calls + 1) = true → E { s with calls := s.calls + 1 })
    (hwork : ∀ s, P s → env.throws (s.calls + 1) = false →
      Q (f { s with calls := s.calls + 1 }).1 (f { s with calls := s.calls + 1 }).2) :
    Triple P (redis env f) Q E := by
  intro s hs
  cases h : env.throws (s.calls + 1) with
  | true =>
    rw [redis_error env f s h]
    exact hthrow s hs h
  | false =>
    rw [redis_ok env f s h]
    exact hwork s hs h

/-- A call of the client that has not thrown has done its work. -/
theorem redis_ended (h : redis env f s = .ok a s') :
    ∃ calls, a = (f { s with calls := calls }).1 ∧ s' = (f { s with calls := calls }).2 := by
  cases hn : env.throws (s.calls + 1) with
  | true =>
    rw [redis_error env f s hn] at h
    cases h
  | false =>
    rw [redis_ok env f s hn] at h
    cases h
    exact ⟨_, rfl, rfl⟩

theorem redis_cases (env : Surroundings) (f : Server → α × Server) (g : α → Act β) (s : Server) :
    ((∃ n, env.throws n = true) ∧ ∃ calls, (redis env f >>= g) s = .error () { s with calls := calls }) ∨
      ∃ calls, (redis env f >>= g) s =
        g (f { s with calls := calls }).1 (f { s with calls := calls }).2 := by
  cases h : env.throws (s.calls + 1) with
  | true => exact .inl ⟨⟨_, h⟩, _, bind_error (redis_error env f s h)⟩
  | false => exact .inr ⟨_, bind_ok (redis_ok env f s h)⟩

theorem find_outcome (env : Surroundings) (isAccessToken : Bool) (id : List UInt8) (s : Server) :
    FindOutcome env isAccessToken id s (findToken env isAccessToken id s) := by
  by_cases hid : id = []
  · rw [findToken, if_pos hid]
    exact .empty hid
  · rw [findToken, if_neg hid, get_bind]
    cases hm : s.tokens id with
    | some token => exact .memory hid hm
    | none =>
      dsimp only
      rw [exist]
      rcases redis_cases env (fun s => ((s.cache (env.tokenContext isAccessToken id)).isSome, s)) _ s
        with ⟨hn, calls, he⟩ | ⟨calls, he⟩
      · rw [he]
        exact .thrown hid hm hn calls
      rw [he, syncCommit]
      rcases redis_cases env (fun s => ((), s)) _ { s with calls := calls } with
        ⟨hn, calls, he⟩ | ⟨calls, he⟩
      · rw [he]
        exact .thrown hid hm hn calls
      rw [he]
      cases hc : s.cache (env.tokenContext isAccessToken id) with
      | none =>
        have hremove : removeTokenId id { s with calls := calls } = .ok () { s with calls := calls } := by
          simp [removeTokenId, hm]
        simp only [Option.isSome_none, Bool.false_eq_true, if_false]
        rw [bind_ok hremove]
        exact .missing hid hm hc calls
      | some payload =>
        simp only [Option.isSome_some, if_true]
        rw [get]
        rcases redis_cases env (fun s => (s.cache (env.tokenContext isAccessToken id), s)) _
            { s with calls := calls } with ⟨hn, calls, he⟩ | ⟨calls, he⟩
        · rw [he]
          exact .thrown hid hm hn calls
        rw [he]
        rcases redis_cases env (fun s => ((), s)) _ { s with calls := calls } with
          ⟨hn, calls, he⟩ | ⟨calls, he⟩
        · rw [he]
          exact .thrown hid hm hn calls
        rw [he]
        simp only [hc]
        cases ht : env.tokenOf payload with
        | none => exact .unreadable hid hm hc ht calls
        | some t =>
          have hload : appendToken s.next { s with
              heap := fun i => if i = s.next then t else s.heap i
              next := s.next + 1
              calls := calls } = .ok () (s.load t calls) := by
            simp [appendToken, load]
          rw [bind_ok (rfl : orThrow (some t) _ = .ok t _), bind_ok (rfl : makeToken t _ = .ok _ _),
            bind_ok hload]
          exact .loaded hid hm hc ht calls

/-- Nothing but the cache has changed, and that has only lost entries. -/
structure Below (s s' : Server) : Prop where
  heap : s'.heap = s.heap
  tokens : s'.tokens = s.tokens
  cache : ∀ k p, s'.cache k = some p → s.cache k = some p

theorem Below.refl (s : Server) : Below s s := ⟨rfl, rfl, fun _ _ h => h⟩

/-- The string of a token by which one of the two kinds finds it. -/
def string (t : Token) (isAccessToken : Bool) : List UInt8 :=
  if isAccessToken then t.accessToken else t.refreshToken

/-- A property of the map and the cache that every use of the tokens keeps, as
long as the strings that are issued are `free`. -/
structure Lasting (env : Surroundings) (free : List UInt8 → Prop) (I : Server → Prop) : Prop where
  below : ∀ s s', Below s s' → I s → I s'
  heap : ∀ s h n, I s → I { s with heap := h, next := n }
  erase : ∀ s k, I s → I { s with tokens := Maps.erase s.tokens k }
  insert : ∀ s k token, free k → I s → I { s with tokens := Maps.insert s.tokens k token }
  load : ∀ s isAccessToken id p t calls, id ≠ [] →
    s.cache (env.tokenContext isAccessToken id) = some p → env.tokenOf p = some t → I s →
    I (s.load t calls)
  store : ∀ s isAccessToken k p, free k →
    (∀ t, env.tokenOf p = some t → string t isAccessToken = k ∧ free t.accessToken ∧
      free t.refreshToken) → I s →
    I { s with cache := Maps.set s.cache (env.tokenContext isAccessToken k) p }

variable {env : Surroundings} {free : List UInt8 → Prop} {I J : Server → Prop}

theorem keeps_redis {f : Server → α × Server} (hJ : ∀ s s', Below s s' → J s → J s')
    (hf : ∀ s, Below s (f s).2) : Keeps J (redis env f) := by
  have hcalls : ∀ s, J s → J { s with calls := s.calls + 1 } := fun s =>
    hJ s _ ⟨rfl, rfl, fun _ _ h => h⟩
  exact triple_redis (fun s hs _ => hcalls s hs) fun s hs _ => hJ _ _ (hf _) (hcalls s hs)

theorem keeps_del (hJ : ∀ s s', Below s s' → J s → J s') (keys : List (List UInt8)) :
    Keeps J (del env keys) := by
  refine keeps_redis hJ fun s => ⟨rfl, rfl, fun k p h => ?_⟩
  dsimp only at h
  split at h
  · cases h
  · exact h

theorem keeps_srem (hJ : ∀ s s', Below s s' → J s → J s') (key member : List UInt8) :
    Keeps J (srem env key member) :=
  keeps_redis hJ fun _ => ⟨rfl, rfl, fun _ _ h => h⟩

theorem keeps_sadd (hJ : ∀ s s', Below s s' → J s → J s') (key member : List UInt8) :
    Keeps J (sadd env key member) :=
  keeps_redis hJ fun _ => ⟨rfl, rfl, fun _ _ h => h⟩

theorem keeps_commit (hJ : ∀ s s', Below s s' → J s → J s') : Keeps J (syncCommit env) :=
  keeps_redis hJ fun _ => .refl _

theorem throw_after (r : Option α) (s : Server) : after ((orThrow r : Act α) s) = s := by
  cases r <;> rfl

theorem keeps_throw (r : Option α) : Keeps J (orThrow r : Act α) :=
  .of_after (fun s hs => (throw_after r s).symm ▸ hs) fun _ hs => hs

theorem Lasting.keeps_find (hI : Lasting env free I) (isAccessToken : Bool) (id : List UInt8) :
    Keeps I (findToken env isAccessToken id) := by
  intro s hs
  have hcalls : ∀ n, I { s with calls := n } := fun n => hI.below s _ ⟨rfl, rfl, fun _ _ h => h⟩ hs
  have ho := find_outcome env isAccessToken id s
  generalize findToken env isAccessToken id s = r at ho ⊢
  cases ho with
  | empty => exact hs
  | memory => exact hs
  | missing _ _ _ calls => exact hcalls calls
  | loaded hid _ hc ht calls => exact hI.load s isAccessToken id _ _ calls hid hc ht hs
  | unreadable _ _ _ _ calls => exact hcalls calls
  | thrown _ _ _ calls => exact hcalls calls

theorem Lasting.keeps_remove (hI : Lasting env free I) (accessToken refreshToken : List UInt8) :
    Keeps I (removeToken accessToken refreshToken) :=
  fun s hs => hI.erase _ _ (hI.erase s _ hs)

theorem Lasting.keeps_parse (hI : Lasting env free I) (http : HttpHeader) (isAccessToken : Bool)
    (check : Option Int) : Keeps I (parseToken env http isAccessToken check) := by
  unfold parseToken
  cases requestTokenId http with
  | none => exact .pure none
  | some id =>
    refine .bind (hI.keeps_find isAccessToken id) fun found => ?_
    cases found with
    | none => exact .pure none
    | some token =>
      refine .get fun s => ?_
      dsimp only
      split
      · exact .bind (hI.keeps_remove _ _) fun _ => .pure none
      · exact .pure (some token)

/-- The strings that a refresh gives to a token. -/
structure Issued (t : Token) (accessToken refreshToken : List UInt8) : Prop where
  access : t.accessToken = accessToken
  refresh : t.refreshToken = refreshToken
  accessMember : t.payload khlJsonParamAccessToken = some (.ofString accessToken)
  refreshMember : t.payload khlJsonParamRefreshToken = some (.ofString refreshToken)

theorem Issued.described (hi : Issued t a r) (h : env.tokenOf t.payload = some t') :
    t'.accessToken = a ∧ t'.refreshToken = r := by
  have ha : (t.payload.at khlJsonParamAccessToken).asString = some a := by
    rw [Payload.at, hi.accessMember]
    rfl
  have hr : (t.payload.at khlJsonParamRefreshToken).asString = some r := by
    rw [Payload.at, hi.refreshMember]
    rfl
  simp only [Surroundings.tokenOf, ha, hr, Option.bind_eq_bind, Option.bind_some,
    Option.bind_eq_some_iff] at h
  obtain ⟨_, -, _, -, _, -, _, -, h⟩ := h
  cases h
  exact ⟨rfl, rfl⟩

theorem issued_by_setters (t : Token) (a r : List UInt8) (n m x y : Int) :
    Issued ((((((t.setAccessToken a).setAccessDuration n).setAccessExpire env x).setRefreshToken
      r).setRefreshDuration m).setRefreshExpire env y) a r := by
  refine ⟨rfl, rfl, ?_, ?_⟩
  · simp only [Token.setAccessToken, Token.setAccessDuration, Token.setAccessExpire,
      Token.setRefreshToken, Token.setRefreshDuration, Token.setRefreshExpire]
    rw [Maps.set_other (by decide), Maps.set_other (by decide), Maps.set_other (by decide),
      Maps.set_other (by decide), Maps.set_other (by decide), Maps.set_same]
  · simp only [Token.setAccessToken, Token.setAccessDuration, Token.setAccessExpire,
      Token.setRefreshToken, Token.setRefreshDuration, Token.setRefreshExpire]
    rw [Maps.set_other (by decide), Maps.set_other (by decide), Maps.set_same]

theorem keeps_setex (hI : Lasting env free I) (hi : Issued t a r) (hfree : free a ∧ free r)
    (isAccessToken : Bool) (seconds : Int) (token : Nat) :
    Keeps (fun s => I s ∧ Issued (s.heap token) a r)
      (setex env (env.tokenContext isAccessToken (if isAccessToken then a else r)) seconds
        t.payload) := by
  have hcalls : ∀ s, I s → I { s with calls := s.calls + 1 } := fun s =>
    hI.below s _ ⟨rfl, rfl, fun _ _ h => h⟩
  refine triple_redis (fun s hs _ => ⟨hcalls s hs.1, hs.2⟩) fun s hs _ => ?_
  dsimp only
  split
  · refine ⟨hI.store _ isAccessToken _ t.payload ?_ (fun t' ht => ?_) (hcalls s hs.1), hs.2⟩
    · cases isAccessToken
      · exact hfree.2
      · exact hfree.1
    · obtain ⟨ha, hr⟩ := hi.described ht
      refine ⟨?_, by rw [ha]; exact hfree.1, by rw [hr]; exact hfree.2⟩
      cases isAccessToken
      · exact hr
      · exact ha
  · exact ⟨hcalls s hs.1, hs.2⟩

theorem Lasting.keeps_append (hI : Lasting env free I) (token : Nat) :
    Triple (fun s => I s ∧ free (s.heap token).accessToken ∧ free (s.heap token).refreshToken)
      (appendToken token) (fun _ => I) I :=
  fun s ⟨hs, ha, hr⟩ => hI.insert _ _ token ha (hI.insert s _ token hr hs)

/-- A token to which `f` has assigned, and which was one with `P` before. -/
def Assigned (f : Token → Token) (P : Token → Prop) (t : Token) : Prop := ∃ t₀, P t₀ ∧ t = f t₀

theorem Lasting.keeps_modify (hI : Lasting env free I) (token : Nat) (f : Token → Token)
    (P : Token → Prop) : Triple (fun s => I s ∧ P (s.heap token)) (modifyToken token f)
      (fun _ s => I s ∧ Assigned f P (s.heap token)) I :=
  fun s ⟨hs, hp⟩ => ⟨hI.heap s _ s.next hs, s.heap token, hp, if_pos rfl⟩

theorem Lasting.keeps_update (hI : Lasting env free I) (token : Nat) (ha : free a) (hr : free r)
    (accessToken refreshToken : List UInt8) :
    Triple (fun s => I s ∧ Issued (s.heap token) a r) (updateTokens token accessToken refreshToken)
      (fun _ => I) I := by
  have hremove : Triple (fun s => I s ∧ Issued (s.heap token) a r)
      (removeToken accessToken refreshToken) (fun _ s => I s ∧ Issued (s.heap token) a r) I :=
    fun s ⟨hs, hi⟩ => ⟨hI.erase _ _ (hI.erase s _ hs), hi⟩
  refine .bind hremove fun _ => (hI.keeps_append token).weaken (fun s ⟨hs, hi⟩ => ?_)
    (fun _ _ h => h) fun _ h => h
  exact ⟨hs, by rw [hi.access]; exact ha, by rw [hi.refresh]; exact hr⟩

/-- A refresh keeps the property however it ends, if its new strings are free. -/
theorem Lasting.keeps_refresh (hI : Lasting env free I) (http : HttpHeader) (now : Int)
    (ha : free a) (hr : free r) : Keeps I (refreshToken env http now a r) := by
  unfold refreshToken
  refine .bind (hI.keeps_parse http false (some now)) fun found => ?_
  cases found with
  | none => exact .pure none
  | some token =>
    let J : Server → Prop := fun s => I s ∧ Issued (s.heap token) a r
    have hJ : ∀ s s', Below s s' → J s → J s' := by
      rintro s s' hb ⟨hs, hi⟩
      refine ⟨hI.below s s' hb hs, ?_⟩
      rw [hb.heap]
      exact hi
    -- what keeps `J` leaves `I` behind when it throws
    have call : ∀ {α : Type} {x : Act α}, Keeps J x → Triple J x (fun _ => J) I :=
      fun h => h.weaken (fun _ h => h) (fun _ _ h => h) fun _ h => h.1
    refine .get fun s => ?_
    dsimp only
    refine .bind (keeps_throw _) fun refreshDuration => ?_
    refine .bind (keeps_throw _) fun accessDuration => ?_
    refine Triple.bind ((hI.keeps_modify token _ fun _ => True).weaken (fun _ h => ⟨h, trivial⟩)
      (fun _ _ h => h) fun _ h => h) fun _ => ?_
    refine Triple.bind (hI.keeps_modify token _ _) fun _ => ?_
    refine Triple.weaken (P := J) (.get fun s hs => ?_) (fun s hs => ?_) (fun _ _ h => h)
      fun _ h => h
    · have hi : Issued (s.heap token) a r := hs.2
      refine .bind (call (keeps_throw _)) fun cacheSetValue => ?_
      refine .bind (call (keeps_del hJ _)) fun _ => ?_
      refine .bind (call (keeps_srem hJ _ _)) fun _ => ?_
      refine .bind (call (keeps_setex hI hi ⟨ha, hr⟩ true _ token)) fun _ => ?_
      refine .bind (call (keeps_setex hI hi ⟨ha, hr⟩ false _ token)) fun _ => ?_
      refine .bind (call (keeps_sadd hJ _ _)) fun _ => ?_
      refine .bind (call (keeps_commit hJ)) fun _ => ?_
      refine .bind (hI.keeps_update token ha hr _ _) fun _ => ?_
      exact .get fun s _ => .bind (keeps_throw _) fun _ => .bind (keeps_throw _) fun _ => Keeps.pure _
    · obtain ⟨hs, t₁, ⟨t₀, -, rfl⟩, ht⟩ := hs
      refine ⟨hs, ?_⟩
      rw [ht]
      exact issued_by_setters t₀ a r _ _ _ _

/-- One use of the token functions, with the strings that it issues. -/
inductive Step (env : Surroundings) : List (List UInt8) → Server → Server → Prop
  | find (isAccessToken : Bool) (id : List UInt8) :
    Step env [] s (after (findToken env isAccessToken id s))
  | parse (http : HttpHeader) (isAccessToken : Bool) (check : Option Int) :
    Step env [] s (after (parseToken env http isAccessToken check s))
  | refresh (http : HttpHeader) (now : Int) (a r : List UInt8) :
    Step env [a, r] s (actionRefreshToken env http now a r s).2
  | make (t : Token) : Step env [] s (after (makeToken t s))
  | append (token : Nat) :
    Step env [(s.heap token).accessToken, (s.heap token).refreshToken] s
      (after (appendToken token s))
  | remove (a r : List UInt8) : Step env [] s (after (removeToken a r s))
  | removeId (id : List UInt8) : Step env [] s (after (removeTokenId id s))
  | update (token : Nat) (a r : List UInt8) :
    Step env [(s.heap token).accessToken, (s.heap token).refreshToken] s
      (after (updateTokens token a r s))

theorem action_state (env : Surroundings) (http : HttpHeader) (now : Int) (a r : List UInt8)
    (s : Server) :
    (actionRefreshToken env http now a r s).2 = after (refreshToken env http now a r s) := by
  unfold actionRefreshToken
  cases refreshToken env http now a r s with
  | ok json s' => cases json <;> rfl
  | error e s' => rfl

theorem Lasting.step (hI : Lasting env free I) (h : Step env issued s s')
    (hfree : ∀ x ∈ issued, free x) (hs : I s) : I s' := by
  cases h with
  | find isAccessToken id => exact (hI.keeps_find isAccessToken id).after hs
  | parse http isAccessToken check => exact (hI.keeps_parse http isAccessToken check).after hs
  | refresh http now a r =>
    rw [action_state]
    exact (hI.keeps_refresh http now (hfree a (by simp)) (hfree r (by simp))).after hs
  | make t => exact hI.heap s _ _ hs
  | append token =>
    exact hI.keeps_append token s ⟨hs, hfree _ (by simp), hfree _ (by simp)⟩
  | remove a r => exact (hI.keeps_remove a r).after hs
  | removeId id =>
    unfold removeTokenId
    cases s.tokens id with
    | none => exact hs
    | some token => exact (hI.keeps_remove _ _).after hs
  | update token a r =>
    have hremoved : I (after (removeToken a r s)) := (hI.keeps_remove a r).after hs
    exact hI.keeps_append token _ ⟨hremoved, hfree _ (by simp), hfree _ (by simp)⟩

/-- Any number of uses that issue none of the given strings. -/
def Later (env : Surroundings) (withheld : List (List UInt8)) : Server → Server → Prop :=
  Relation.ReflTransGen fun s s' => ∃ issued, Step env issued s s' ∧ ∀ x ∈ withheld, x ∉ issued

theorem Lasting.later (hI : Lasting env (· ∉ withheld) I) (h : Later env withheld s s')
    (hs : I s) : I s' := by
  induction h with
  | refl => exact hs
  | tail _ hstep ih =>
    obtain ⟨issued, hstep, hw⟩ := hstep
    exact hI.step hstep (fun x hx hin => hw x hin hx) ih

end Khorost.Server
