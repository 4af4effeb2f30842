import Khorost.Proofs.TokenKinds

namespace Khorost

def Surroundings.Steady (env : Surroundings) : Prop := ∀ n, env.throws n = false

namespace Server

open Throwing

/-- Neither string finds a token as what it was, however the tokens are used
from here on, unless one of the strings is issued again. -/
def Revoked (env : Surroundings) (A R : List UInt8) (s : Server) : Prop :=
  ∀ s', Later env [A, R] s s' →
    (∃ s'', findToken env true A s' = .ok none s'') ∧
      ∃ s'', findToken env false R s' = .ok none s''

/-- The entry under an id would not bring one of the two strings back. -/
structure Harmless (env : Surroundings) (A R : List UInt8) (isAccessToken : Bool)
    (id : List UInt8) (p : Payload) : Prop where
  other : id ≠ if isAccessToken then A else R
  strings : ∀ t, env.tokenOf p = some t → ∀ x ∈ [A, R], x ≠ [] →
    t.accessToken ≠ x ∧ t.refreshToken ≠ x

/-- But for the two plain strings themselves, no key of the cache leads to a
token with one of them. -/
def Untraced (env : Surroundings) (A R : List UInt8) (s : Server) : Prop :=
  ∀ isAccessToken id p, id ≠ [] → env.tokenContext isAccessToken id ∉ [A, R] →
    s.cache (env.tokenContext isAccessToken id) = some p → Harmless env A R isAccessToken id p

/-- New strings: neither of the old ones, and without an entry in the cache. -/
structure Fresh (env : Surroundings) (A R a r : List UInt8) (s : Server) : Prop where
  access : a ∉ [A, R]
  refresh : r ∉ [A, R]
  accessKey : s.cache (env.tokenContext true a) = none
  refreshKey : s.cache (env.tokenContext false r) = none

variable {env : Surroundings} {A R a r id : List UInt8} {s s' s₁ : Server}

/-- No key of the cache leads to a token with one of the strings. -/
def Cleared (env : Surroundings) (A R : List UInt8) (s : Server) : Prop :=
  ∀ isAccessToken id p, id ≠ [] → s.cache (env.tokenContext isAccessToken id) = some p →
    Harmless env A R isAccessToken id p

/-- The memory does not have the strings either. -/
structure Gone (env : Surroundings) (A R : List UInt8) (s : Server) : Prop where
  map : ∀ x ∈ [A, R], x ≠ [] → s.tokens x = none
  cache : Cleared env A R s

theorem cleared_store (hc : Cleared env A R s) (hk : k ∉ [A, R])
    (hp : ∀ t, env.tokenOf p = some t → string t isAccessToken = k ∧ t.accessToken ∉ [A, R] ∧
      t.refreshToken ∉ [A, R]) :
    Cleared env A R
      { s with cache := Maps.set s.cache (env.tokenContext isAccessToken k) p } := by
  intro isAccessToken' id p' hid hentry
  rcases Maps.set_some hentry with ⟨hkey, rfl⟩ | ⟨-, hentry⟩
  · obtain ⟨rfl, rfl⟩ := context_inj hkey
    refine ⟨?_, fun t ht x hx _ => ?_⟩
    · rintro rfl
      apply hk
      split <;> simp
    · obtain ⟨-, ha, hr⟩ := hp t ht
      exact ⟨fun h => ha (h ▸ hx), fun h => hr (h ▸ hx)⟩
  · exact hc isAccessToken' id p' hid hentry

theorem cleared_lasting (env : Surroundings) (A R : List UInt8) :
    Lasting env (· ∉ [A, R]) (Cleared env A R) where
  below _ _ hb hc isAccessToken id p hid h := hc isAccessToken id p hid (hb.cache _ p h)
  heap _ _ _ hc := hc
  erase _ _ hc := hc
  insert _ _ _ _ hc := hc
  load _ _ _ _ _ _ _ _ _ hc := hc
  store _ _ _ _ hk hp hc := cleared_store hc hk hp

theorem gone_lasting (env : Surroundings) (A R : List UInt8) :
    Lasting env (· ∉ [A, R]) (Gone env A R) where
  below _ _ hb hg := by
    refine ⟨fun x hx hne => ?_, (cleared_lasting env A R).below _ _ hb hg.cache⟩
    rw [hb.tokens]
    exact hg.map x hx hne
  heap _ _ _ hg := ⟨hg.map, hg.cache⟩
  erase _ _ hg := ⟨fun x hx hne => Maps.erase_none (hg.map x hx hne), hg.cache⟩
  insert _ k _ hk hg := by
    refine ⟨fun x hx hne => Maps.insert_none (hg.map x hx hne) ?_, hg.cache⟩
    rintro rfl
    exact hk hx
  load s isAccessToken id p t _ hid hc ht hg := by
    refine ⟨fun x hx hne => ?_, hg.cache⟩
    obtain ⟨ha, hr⟩ := (hg.cache isAccessToken id p hid hc).strings t ht x hx hne
    exact Maps.insert_none (Maps.insert_none (hg.map x hx hne) hr.symm) ha.symm
  store _ _ _ _ hk hp hg := ⟨hg.map, cleared_store hg.cache hk hp⟩

theorem Gone.not_found (hg : Gone env A R s) (hsteady : env.Steady) (isAccessToken : Bool) :
    ∃ s', findToken env isAccessToken (if isAccessToken then A else R) s = .ok none s' := by
  have hmem : (if isAccessToken then A else R) ∈ [A, R] := by split <;> simp
  have ho := find_outcome env isAccessToken (if isAccessToken then A else R) s
  generalize findToken env isAccessToken (if isAccessToken then A else R) s = result at ho ⊢
  cases ho with
  | empty => exact ⟨_, rfl⟩
  | memory hid hm =>
    rw [hg.map _ hmem hid] at hm
    cases hm
  | missing => exact ⟨_, rfl⟩
  | loaded hid _ hc => exact absurd rfl (hg.cache isAccessToken _ _ hid hc).other
  | unreadable hid _ hc => exact absurd rfl (hg.cache isAccessToken _ _ hid hc).other
  | thrown _ _ hn =>
    obtain ⟨n, hn⟩ := hn
    rw [hsteady n] at hn
    cases hn

theorem Gone.revoked (hg : Gone env A R s) (hsteady : env.Steady) : Revoked env A R s := by
  intro s' hl
  have hg' := (gone_lasting env A R).later hl hg
  exact ⟨hg'.not_found hsteady true, hg'.not_found hsteady false⟩

/-- The cache with a payload under a key, unless its time to live is not positive. -/
def stored (cache : List UInt8 → Option Payload) (key : List UInt8) (seconds : Int)
    (p : Payload) : List UInt8 → Option Payload :=
  if 0 < seconds then Maps.set cache key p else cache

/-- A refresh that has succeeded: the map knows the token by its new strings
only, the cache has lost the two plain strings and may have the new payload. -/
structure Refreshed (env : Surroundings) (A R a r : List UInt8) (s s' : Server) : Prop where
  tokens : ∃ token, s'.tokens =
    Maps.insert (Maps.insert (Maps.erase (Maps.erase s.tokens R) A) r token) a token
  cache : ∃ p x y, (∀ t, env.tokenOf p = some t → t.accessToken = a ∧ t.refreshToken = r) ∧
    s'.cache = stored (stored (fun k => if k ∈ [A, R] then none else s.cache k)
      (env.tokenContext true a) x p) (env.tokenContext false r) y p

theorem throw_ended {o : Option α} {v : α} (h : (orThrow o : Act α) s = .ok v s') : s' = s := by
  cases o with
  | none => cases h
  | some v =>
    cases h
    rfl

theorem parse_keeps_cache (h : parseToken env http isAccessToken check s = .ok (some token) s') :
    s'.cache = s.cache := by
  obtain ⟨id, -, hf⟩ := parse_found h
  have ho := find_outcome env isAccessToken id s
  rw [hf] at ho
  cases ho with
  | memory => rfl
  | loaded => rfl

/-- The memory is the same in both states. -/
structure SameMemory (s s' : Server) : Prop where
  heap : s'.heap = s.heap
  next : s'.next = s.next
  tokens : s'.tokens = s.tokens

theorem SameMemory.trans (h : SameMemory s s₁) (h' : SameMemory s₁ s') : SameMemory s s' :=
  ⟨h'.heap.trans h.heap, h'.next.trans h.next, h'.tokens.trans h.tokens⟩

theorem del_ended {keys : List (List UInt8)} (h : del env keys s = .ok v s') :
    SameMemory s s' ∧ s'.cache = fun k => if k ∈ keys then none else s.cache k := by
  obtain ⟨_, -, rfl⟩ := redis_ended h
  exact ⟨⟨rfl, rfl, rfl⟩, rfl⟩

theorem srem_ended (h : srem env key member s = .ok v s') :
    SameMemory s s' ∧ s'.cache = s.cache := by
  obtain ⟨_, -, rfl⟩ := redis_ended h
  exact ⟨⟨rfl, rfl, rfl⟩, rfl⟩

theorem sadd_ended (h : sadd env key member s = .ok v s') :
    SameMemory s s' ∧ s'.cache = s.cache := by
  obtain ⟨_, -, rfl⟩ := redis_ended h
  exact ⟨⟨rfl, rfl, rfl⟩, rfl⟩

theorem commit_ended (h : syncCommit env s = .ok v s') :
    SameMemory s s' ∧ s'.cache = s.cache := by
  obtain ⟨_, -, rfl⟩ := redis_ended h
  exact ⟨⟨rfl, rfl, rfl⟩, rfl⟩

theorem setex_ended (h : setex env key n p s = .ok v s') :
    SameMemory s s' ∧ s'.cache = stored s.cache key n p := by
  obtain ⟨_, -, rfl⟩ := redis_ended h
  unfold stored
  dsimp only
  split <;> exact ⟨⟨rfl, rfl, rfl⟩, rfl⟩

theorem modify_ended (h : modifyToken token f s = .ok v s') :
    s'.heap token = f (s.heap token) ∧ (∀ i, i ≠ token → s'.heap i = s.heap i) ∧
      s'.next = s.next ∧ s'.tokens = s.tokens ∧ s'.cache = s.cache := by
  cases h
  exact ⟨if_pos rfl, fun i hi => if_neg hi, rfl, rfl, rfl⟩

theorem update_ended (h : updateTokens token A R s = .ok v s') :
    s'.heap = s.heap ∧ s'.next = s.next ∧
      s'.tokens = Maps.insert (Maps.insert (Maps.erase (Maps.erase s.tokens R) A)
        (s.heap token).refreshToken token) (s.heap token).accessToken token ∧
      s'.cache = s.cache := by
  cases h
  exact ⟨rfl, rfl, rfl, rfl⟩

/-- All that a refresh of a token changes when it succeeds. -/
structure RefreshEnded (env : Surroundings) (token : Nat) (a r : List UInt8) (s s' : Server) :
    Prop where
  issued : Issued (s'.heap token) a r
  others : ∀ i, i ≠ token → s'.heap i = s.heap i
  next : s'.next = s.next
  tokens : s'.tokens = Maps.insert (Maps.insert (Maps.erase (Maps.erase s.tokens
    (s.heap token).refreshToken) (s.heap token).accessToken) r token) a token
  cache : ∃ p x y, (∀ t, env.tokenOf p = some t → t.accessToken = a ∧ t.refreshToken = r) ∧
    s'.cache = stored (stored (fun k =>
      if k ∈ [(s.heap token).accessToken, (s.heap token).refreshToken] then none else s.cache k)
      (env.tokenContext true a) x p) (env.tokenContext false r) y p

theorem refresh_ended (hparse : parseToken env http false (some now) s = .ok (some token) s₁)
    (hrun : refreshToken env http now a r s = .ok json s') :
    RefreshEnded env token a r s₁ s' := by
  unfold refreshToken at hrun
  rw [bind_ok hparse] at hrun
  dsimp only at hrun
  rw [get_bind] at hrun
  obtain ⟨m, s₂, hd, hrun⟩ := bind_ended hrun
  obtain rfl := throw_ended hd
  obtain ⟨n, s₃, hd, hrun⟩ := bind_ended hrun
  obtain rfl := throw_ended hd
  obtain ⟨_, s₄, haccess, hrun⟩ := bind_ended hrun
  obtain ⟨_, s₅, hrefresh, hrun⟩ := bind_ended hrun
  rw [get_bind] at hrun
  obtain ⟨tag, s₆, hd, hrun⟩ := bind_ended hrun
  obtain rfl := throw_ended hd
  obtain ⟨_, s₇, hdel, hrun⟩ := bind_ended hrun
  obtain ⟨_, s₈, hsrem, hrun⟩ := bind_ended hrun
  obtain ⟨_, s₉, hsetAccess, hrun⟩ := bind_ended hrun
  obtain ⟨_, s₁₀, hsetRefresh, hrun⟩ := bind_ended hrun
  obtain ⟨_, s₁₁, hsadd, hrun⟩ := bind_ended hrun
  obtain ⟨_, s₁₂, hcommit, hrun⟩ := bind_ended hrun
  obtain ⟨_, s₁₃, hupdate, hrun⟩ := bind_ended hrun
  rw [get_bind] at hrun
  obtain ⟨_, s₁₄, hd, hrun⟩ := bind_ended hrun
  obtain rfl := throw_ended hd
  obtain ⟨_, s₁₅, hd, hrun⟩ := bind_ended hrun
  obtain rfl := throw_ended hd
  cases hrun
  obtain ⟨ht₄, ho₄, hn₄, hm₄, hc₄⟩ := modify_ended haccess
  obtain ⟨ht₅, ho₅, hn₅, hm₅, hc₅⟩ := modify_ended hrefresh
  obtain ⟨hs₇, hc₇⟩ := del_ended hdel
  obtain ⟨hs₈, hc₈⟩ := srem_ended hsrem
  obtain ⟨hs₉, hc₉⟩ := setex_ended hsetAccess
  obtain ⟨hs₁₀, hc₁₀⟩ := setex_ended hsetRefresh
  obtain ⟨hs₁₁, hc₁₁⟩ := sadd_ended hsadd
  obtain ⟨hs₁₂, hc₁₂⟩ := commit_ended hcommit
  obtain ⟨hh₁₃, hn₁₃, hm₁₃, hc₁₃⟩ := update_ended hupdate
  have hsame := ((((hs₇.trans hs₈).trans hs₉).trans hs₁₀).trans hs₁₁).trans hs₁₂
  rw [ht₄] at ht₅
  have hissued : Issued (s₆.heap token) a r := by
    rw [ht₅]
    exact issued_by_setters (s₃.heap token) a r _ _ _ _
  rw [hsame.heap, hsame.tokens, hm₅, hm₄, hissued.access, hissued.refresh] at hm₁₃
  rw [hc₁₂, hc₁₁, hc₁₀, hc₉, hc₈, hc₇, hc₅, hc₄] at hc₁₃
  refine ⟨?_, fun i hi => ?_, ?_, hm₁₃, _, _, _, fun t ht => hissued.described ht, hc₁₃⟩
  · rw [hh₁₃, hsame.heap]
    exact hissued
  · rw [hh₁₃, hsame.heap, ho₅ i hi, ho₄ i hi]
  · rw [hn₁₃, hsame.next, hn₅, hn₄]

theorem refreshed (hparse : parseToken env http false (some now) s = .ok (some token) s₁)
    (hrun : refreshToken env http now a r s = .ok (some json) s') :
    Refreshed env (s₁.heap token).accessToken (s₁.heap token).refreshToken a r s₁ s' :=
  have hended := refresh_ended hparse hrun
  ⟨⟨token, hended.tokens⟩, hended.cache⟩

theorem action_token (h : actionRefreshToken env http now a r s = (.token json, s')) :
    refreshToken env http now a r s = .ok (some json) s' := by
  unfold actionRefreshToken at h
  cases hr : refreshToken env http now a r s with
  | ok found s₁ =>
    rw [hr] at h
    cases found with
    | none => cases h
    | some found =>
      cases h
      rfl
  | error e s₁ =>
    rw [hr] at h
    cases h

theorem stored_other (h : k ≠ key) : stored m key n p k = m k := by
  unfold stored
  split
  · exact Maps.set_other h
  · rfl

theorem cleared_stored (isAccessToken : Bool) (n : Int) (hc : Cleared env A R s) (hk : k ∉ [A, R])
    (hp : ∀ t, env.tokenOf p = some t → string t isAccessToken = k ∧ t.accessToken ∉ [A, R] ∧
      t.refreshToken ∉ [A, R]) :
    Cleared env A R { s with cache := stored s.cache (env.tokenContext isAccessToken k) n p } := by
  unfold stored
  split
  · exact cleared_store hc hk hp
  · exact hc

theorem Refreshed.map (hf : Refreshed env A R a r s s') (ha : a ∉ [A, R]) (hr : r ∉ [A, R])
    (hx : x ∈ [A, R]) : s'.tokens x = none := by
  obtain ⟨token, ht⟩ := hf.tokens
  have herased : Maps.erase (Maps.erase s.tokens R) A x = none := by
    rcases List.mem_pair.mp hx with rfl | rfl
    · exact Maps.erase_same
    · exact Maps.erase_none Maps.erase_same
  rw [ht]
  refine Maps.insert_none (Maps.insert_none herased ?_) ?_
  · rintro rfl
    exact hr hx
  · rintro rfl
    exact ha hx

theorem Refreshed.gone (hf : Refreshed env A R a r s s') (hn : Fresh env A R a r s)
    (hu : Untraced env A R s) : Gone env A R s' := by
  refine ⟨fun x hx _ => hf.map hn.access hn.refresh hx, ?_⟩
  obtain ⟨p, x, y, hp, hc⟩ := hf.cache
  have hdeleted : Cleared env A R
      { s with cache := fun k => if k ∈ [A, R] then none else s.cache k } := by
    intro isAccessToken id p hid hentry
    dsimp only at hentry
    split at hentry
    · cases hentry
    · next hk => exact hu isAccessToken id p hid hk hentry
  have hnew : ∀ t, env.tokenOf p = some t → t.accessToken ∉ [A, R] ∧ t.refreshToken ∉ [A, R] := by
    intro t ht
    obtain ⟨rfl, rfl⟩ := hp t ht
    exact ⟨hn.access, hn.refresh⟩
  have haccess := cleared_stored true x hdeleted hn.access
    fun t ht => ⟨(hp t ht).1, hnew t ht⟩
  have hrefresh := cleared_stored false y haccess hn.refresh
    fun t ht => ⟨(hp t ht).2, hnew t ht⟩
  unfold Cleared
  rw [hc]
  exact hrefresh

/-- An entry that the refresh has neither deleted nor replaced. -/
theorem Refreshed.entry (hf : Refreshed env A R a r s s') (hn : Fresh env A R a r s)
    (hk : env.tokenContext b id ∉ [A, R]) (hentry : s.cache (env.tokenContext b id) = some p) :
    s'.cache (env.tokenContext b id) = some p := by
  have hother : ∀ key, s.cache key = none → env.tokenContext b id ≠ key := by
    rintro key hnone rfl
    rw [hnone] at hentry
    cases hentry
  obtain ⟨_, _, _, -, hc⟩ := hf.cache
  rw [hc, stored_other (hother _ hn.refreshKey), stored_other (hother _ hn.accessKey), if_neg hk,
    hentry]

theorem entry_found (hid : id ≠ [])
    (hc : s.cache (env.tokenContext b id) = some p) :
    findToken env b id s ≠ .ok none s' := by
  intro h
  have ho := find_outcome env b id s
  rw [h] at ho
  cases ho with
  | empty hnil => exact hid hnil
  | missing _ _ hnone =>
    rw [hnone] at hc
    cases hc

theorem find_loads (hsteady : env.Steady) (hid : id ≠ []) (hm : s.tokens id = none)
    (hc : s.cache (env.tokenContext b id) = some p) (ht : env.tokenOf p = some t) :
    ∃ calls, after (findToken env b id s) = s.load t calls := by
  have ho := find_outcome env b id s
  generalize findToken env b id s = result at ho ⊢
  cases ho with
  | empty hnil => exact absurd hnil hid
  | memory _ hsome =>
    rw [hm] at hsome
    cases hsome
  | missing _ _ hnone =>
    rw [hc] at hnone
    cases hnone
  | loaded _ _ hc' ht' calls =>
    cases hc.symm.trans hc'
    cases ht.symm.trans ht'
    exact ⟨calls, rfl⟩
  | unreadable _ _ hc' hnone =>
    cases hc.symm.trans hc'
    cases ht.symm.trans hnone
  | thrown _ _ hn =>
    obtain ⟨n, hn⟩ := hn
    rw [hsteady n] at hn
    cases hn

theorem load_there (calls : Nat) (h : t.accessToken = x ∨ t.refreshToken = x) :
    ∃ token, (s.load t calls).tokens x = some token := by
  rcases h with rfl | rfl
  · exact Option.isSome_iff_exists.mp Maps.insert_there
  · have hthere : (Maps.insert s.tokens t.refreshToken s.next t.refreshToken).isSome :=
      Maps.insert_there
    obtain ⟨token, ht⟩ := Option.isSome_iff_exists.mp hthere
    exact ⟨token, Maps.insert_keeps ht⟩

theorem Revoked.not_there (h : Revoked env A R s) (hl : Later env [A, R] s s') (hx : x ∈ [A, R])
    (hne : x ≠ []) : s'.tokens x = none := by
  obtain ⟨⟨_, hA⟩, _, hR⟩ := h s' hl
  cases hm : s'.tokens x with
  | none => rfl
  | some token =>
    rcases List.mem_pair.mp hx with rfl | rfl
    · rw [find_memory hne hm] at hA
      cases hA
    · rw [find_memory hne hm] at hR
      cases hR

theorem Refreshed.untraced (hf : Refreshed env A R a r s s') (hn : Fresh env A R a r s)
    (hsteady : env.Steady) (h : Revoked env A R s') : Untraced env A R s := by
  intro b id p hid hk hentry
  have hstays := hf.entry hn hk hentry
  refine ⟨?_, fun t ht x hx hne => ?_⟩
  · obtain ⟨⟨_, hA⟩, _, hR⟩ := h s' .refl
    rintro rfl
    cases b
    · exact entry_found hid hstays hR
    · exact entry_found hid hstays hA
  · -- the id leaves the memory, and looking it up loads the entry
    let s₁ := after (removeToken id id s')
    have hremove : Later env [A, R] s' s₁ :=
      .single ⟨[], .remove id id, fun _ _ => List.not_mem_nil⟩
    have hm : s₁.tokens id = none := Maps.erase_same
    obtain ⟨calls, hload⟩ := find_loads hsteady hid hm hstays ht
    have hfind : Later env [A, R] s' (s₁.load t calls) := by
      rw [← hload]
      exact hremove.tail ⟨[], .find b id, fun _ _ => List.not_mem_nil⟩
    have hgone := h.not_there hfind hx hne
    have hthere : ¬ (t.accessToken = x ∨ t.refreshToken = x) := by
      intro hx
      obtain ⟨token, hsome⟩ := load_there calls hx
      rw [hgone] at hsome
      cases hsome
    exact not_or.mp hthere

/-- A refresh revokes the previous strings exactly if the cache had no trace of
them: the prefixed keys under which it has them are not deleted. -/
theorem revoked_iff (hsteady : env.Steady)
    (hparse : parseToken env http false (some now) s = .ok (some token) s₁)
    (hA : (s₁.heap token).accessToken = A) (hR : (s₁.heap token).refreshToken = R)
    (hrun : actionRefreshToken env http now a r s = (.token json, s'))
    (hfresh : Fresh env A R a r s) : Revoked env A R s' ↔ Untraced env A R s := by
  subst hA hR
  have hcache := parse_keeps_cache hparse
  have hf := refreshed hparse (action_token hrun)
  have hfresh' : Fresh env (s₁.heap token).accessToken (s₁.heap token).refreshToken a r s₁ :=
    ⟨hfresh.access, hfresh.refresh, hcache ▸ hfresh.accessKey, hcache ▸ hfresh.refreshKey⟩
  have hiff : Untraced env (s₁.heap token).accessToken (s₁.heap token).refreshToken s₁ ↔
      Untraced env (s₁.heap token).accessToken (s₁.heap token).refreshToken s := by
    unfold Untraced
    rw [hcache]
  rw [← hiff]
  exact ⟨hf.untraced hfresh' hsteady, fun hu => (hf.gone hfresh' hu).revoked hsteady⟩

def refreshRequest : HttpHeader :=
  let text := ascii "POST /auth/refresh_token?token=R1 HTTP/1.1\r\n\r\n"
  let h := HttpHeader.new fun _ => 0
  ((h.processData text text.length 0).map Prod.fst).getD h

/-- A server with the token in its memory and nothing in the cache. -/
def heldOne : Server where
  heap _ := ⟨ascii "A1", ascii "R1", 120000000, 120000000, payloadOne⟩
  next := 1
  tokens := Maps.set (Maps.set (fun _ => none) (ascii "R1") 0) (ascii "A1") 0
  cache _ := none
  sets _ := []
  calls := 0

theorem held_parsed :
    parseToken firstHour refreshRequest false (some 0) heldOne = .ok (some 0) heldOne :=
  have hrequest : requestTokenId refreshRequest = some (ascii "R1") := by decide +kernel
  parse_memory hrequest (by decide) rfl rfl

def answerOne : TokenJson := ⟨ascii "A2", ascii "R2", 0, 0⟩

/-- A token that is only in the memory is revoked. -/
theorem held_revoked : Revoked firstHour (ascii "A1") (ascii "R1")
    (actionRefreshToken firstHour refreshRequest 0 (ascii "A2") (ascii "R2") heldOne).2 := by
  have hreply : (actionRefreshToken firstHour refreshRequest 0 (ascii "A2") (ascii "R2") heldOne).1 =
      .token answerOne := by decide +kernel
  refine (revoked_iff (fun _ => rfl) held_parsed rfl rfl (Prod.ext hreply rfl)
    ⟨by decide, by decide, rfl, rfl⟩).mpr ?_
  intro _ _ _ _ _ hentry
  cases hentry

theorem cached_parsed :
    returned (parseToken firstHour refreshRequest false (some 0) cachedOne) = some (some 0) ∧
    ((after (parseToken firstHour refreshRequest false (some 0) cachedOne)).heap 0).accessToken =
      ascii "A1" ∧
    ((after (parseToken firstHour refreshRequest false (some 0) cachedOne)).heap 0).refreshToken =
      ascii "R1" := by
  decide +kernel

/-- Of a token in the cache the access string still finds the old payload. -/
theorem cached_survives : ¬ ∀ (env : Surroundings) (http : HttpHeader) (now : Int)
    (A R a r : List UInt8) (s s₁ s' : Server) (token : Nat) (json : TokenJson), env.Steady →
    parseToken env http false (some now) s = .ok (some token) s₁ →
    (s₁.heap token).accessToken = A → (s₁.heap token).refreshToken = R →
    actionRefreshToken env http now a r s = (.token json, s') → Fresh env A R a r s →
    Revoked env A R s' := by
  intro h
  obtain ⟨hparse, haccess, hrefresh⟩ := cached_parsed
  have hreply : (actionRefreshToken firstHour refreshRequest 0 (ascii "A2") (ascii "R2")
      cachedOne).1 = .token answerOne := by decide +kernel
  have hrevoked : Revoked firstHour (ascii "A1") (ascii "R1")
      (actionRefreshToken firstHour refreshRequest 0 (ascii "A2") (ascii "R2") cachedOne).2 :=
    h firstHour refreshRequest 0 _ _ (ascii "A2") (ascii "R2") _ _ _ _ _ (fun _ => rfl)
      (of_returned hparse) haccess hrefresh (Prod.ext hreply rfl)
      ⟨by decide, by decide, by decide +kernel, by decide +kernel⟩
  obtain ⟨⟨_, hnone⟩, -⟩ := hrevoked _ .refl
  have hfound : returned (findToken firstHour true (ascii "A1") (actionRefreshToken firstHour
      refreshRequest 0 (ascii "A2") (ascii "R2") cachedOne).2) ≠ some none := by decide +kernel
  rw [hnone] at hfound
  exact hfound rfl

end Server

end Khorost
