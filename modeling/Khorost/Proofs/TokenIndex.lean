import Khorost.Lib.TwoKey
import Khorost.Proofs.Revocation

namespace Khorost.Server

open Throwing

def strings (t : Token) : List (List UInt8) := [t.accessToken, t.refreshToken]

/-- The map finds every token under its two strings and under nothing else. -/
structure Indexed (s : Server) : Prop where
  index : Maps.TwoKey (fun token => (s.heap token).accessToken)
    (fun token => (s.heap token).refreshToken) s.tokens
  allocated : ∀ {k token}, s.tokens k = some token → token < s.next

def InMap (s : Server) (token : Nat) : Prop := ∃ k, s.tokens k = some token

def Held (s : Server) (t : Token) : Prop := ∃ token, InMap s token ∧ s.heap token = t

def Cached (env : Surroundings) (s : Server) (t : Token) : Prop :=
  ∃ isAccessToken id p,
    s.cache (env.tokenContext isAccessToken id) = some p ∧ env.tokenOf p = some t

def Shares (t t' : Token) : Prop := ∃ x ∈ strings t, x ∈ strings t'

/-- The assumption about the cache: an entry stands under the string of its token,
and tokens that have a string in common have both. -/
structure Paired (env : Surroundings) (s : Server) : Prop where
  written : Written env s
  cached : ∀ t t', Cached env s t → Cached env s t' → Shares t t' → strings t = strings t'
  held : ∀ t t', Held s t → Cached env s t' → Shares t t' → strings t = strings t'

/-- A string that neither the map nor the cache knows. -/
def Unknown (env : Surroundings) (s : Server) (x : List UInt8) : Prop :=
  ∀ t, Held s t ∨ Cached env s t → x ∉ strings t

/-- The strings are those of one token, if the map has either. -/
def Together (s : Server) (a r : List UInt8) : Prop :=
  ∀ token, s.tokens a = some token ∨ s.tokens r = some token →
    (s.heap token).accessToken = a ∧ (s.heap token).refreshToken = r

/-- A token object whose strings are not in the map, and whose entries in the
cache carry both of them. -/
structure Appendable (env : Surroundings) (s : Server) (token : Nat) : Prop where
  allocated : token < s.next
  absent : ∀ x ∈ strings (s.heap token), s.tokens x = none
  cached : ∀ t, Cached env s t → Shares (s.heap token) t → strings (s.heap token) = strings t

/-- One use of the token functions, or a change of the cache from outside. -/
inductive Use (env : Surroundings) : Server → Server → Prop
  | append (token : Nat) (h : Appendable env s token) : Use env s (after (appendToken token s))
  | remove (a r : List UInt8) (h : Together s a r) : Use env s (after (removeToken a r s))
  | removeId (id : List UInt8) : Use env s (after (removeTokenId id s))
  | update (token : Nat) (a r : List UInt8) (h : Together s a r)
    (happ : Appendable env (after (removeToken a r s)) token) :
    Use env s (after (updateTokens token a r s))
  | find (isAccessToken : Bool) (id : List UInt8) :
    Use env s (after (findToken env isAccessToken id s))
  | parse (http : HttpHeader) (isAccessToken : Bool) (check : Option Int) :
    Use env s (after (parseToken env http isAccessToken check s))
  | refresh (http : HttpHeader) (now : Int) (a r : List UInt8) (ha : Unknown env s a)
    (hr : Unknown env s r) (hrun : refreshToken env http now a r s = .ok json s') : Use env s s'
  | make (t : Token) : Use env s (after (makeToken t s))
  | outside (cache : List UInt8 → Option Payload) (sets : List UInt8 → List (List UInt8))
    (h : Paired env { s with cache := cache, sets := sets }) :
    Use env s { s with cache := cache, sets := sets }

/-- The states of a server that has started with an empty map. -/
inductive Used (env : Surroundings) : Server → Prop
  | start (hm : ∀ id, s.tokens id = none) (hp : Paired env s) : Used env s
  | step (hu : Used env s) (h : Use env s s') : Used env s'

variable {env : Surroundings} {s s' : Server} {fresh : List (List UInt8)}

/-- The invariant, with strings that stay unknown. -/
structure Sorted (env : Surroundings) (fresh : List (List UInt8)) (s : Server) : Prop where
  indexed : Indexed s
  paired : Paired env s
  unknown : ∀ x ∈ fresh, Unknown env s x

theorem InMap.own (hi : Indexed s) (h : s.tokens k = some token) : k ∈ strings (s.heap token) :=
  List.mem_pair.mpr (hi.index.own h)

/-- The map finds a held token under each of its strings. -/
theorem InMap.found (hi : Indexed s) (h : InMap s token) (hx : x ∈ strings (s.heap token)) :
    s.tokens x = some token := by
  obtain ⟨k, hk⟩ := h
  rcases List.mem_pair.mp hx with rfl | rfl
  · exact hi.index.atFirst hk
  · exact hi.index.atSecond hk

theorem InMap.together (hi : Indexed s) (h : InMap s token) :
    Together s (s.heap token).accessToken (s.heap token).refreshToken := by
  intro token' htoken'
  have hsame : token' = token := by
    rcases htoken' with h' | h'
    · exact Option.some.inj (h'.symm.trans (h.found hi (by simp [strings])))
    · exact Option.some.inj (h'.symm.trans (h.found hi (by simp [strings])))
  subst hsame
  exact ⟨rfl, rfl⟩

/-- Less in the map and less in the cache keeps what is paired and unknown. -/
theorem Paired.below (hp : Paired env s) (hheld : ∀ t, Held s' t → Held s t)
    (hcache : ∀ k p, s'.cache k = some p → s.cache k = some p) : Paired env s' := by
  have hcached : ∀ t, Cached env s' t → Cached env s t :=
    fun t ⟨b, id, p, hc, ht⟩ => ⟨b, id, p, hcache _ _ hc, ht⟩
  exact ⟨fun b id p t hc ht => hp.written b id p t (hcache _ _ hc) ht,
    fun t t' h h' => hp.cached t t' (hcached t h) (hcached t' h'),
    fun t t' h h' => hp.held t t' (hheld t h) (hcached t' h')⟩

theorem Unknown.below (hu : Unknown env s x) (hheld : ∀ t, Held s' t → Held s t)
    (hcache : ∀ k p, s'.cache k = some p → s.cache k = some p) : Unknown env s' x := by
  intro t ht
  refine hu t (ht.imp (hheld t) fun ⟨b, id, p, hc, ht⟩ => ⟨b, id, p, hcache _ _ hc, ht⟩)

/-- Only the cache has changed, and it has only lost entries. -/
theorem Sorted.quiet (h : Sorted env fresh s) (hheap : s'.heap = s.heap) (hnext : s'.next = s.next)
    (htokens : s'.tokens = s.tokens) (hcache : ∀ k p, s'.cache k = some p → s.cache k = some p) :
    Sorted env fresh s' := by
  have hheld : ∀ t, Held s' t → Held s t := by
    rintro t ⟨token, ⟨k, hk⟩, ht⟩
    rw [htokens] at hk
    rw [hheap] at ht
    exact ⟨token, ⟨k, hk⟩, ht⟩
  refine ⟨⟨?_, fun hk => ?_⟩, h.paired.below hheld hcache,
    fun x hx => (h.unknown x hx).below hheld hcache⟩
  · rw [hheap, htokens]
    exact h.indexed.index
  · rw [htokens] at hk
    rw [hnext]
    exact h.indexed.allocated hk

theorem Sorted.remove (h : Sorted env fresh s) (ht : Together s a r) :
    Sorted env fresh (after (removeToken a r s)) := by
  have hheld : ∀ t, Held (after (removeToken a r s)) t → Held s t := by
    rintro t ⟨token, ⟨k, hk⟩, ht⟩
    exact ⟨token, ⟨k, (Maps.erase_pair_some hk).2.2⟩, ht⟩
  refine ⟨⟨h.indexed.index.erase ht, fun hk => ?_⟩, h.paired.below hheld fun _ _ hc => hc,
    fun x hx => (h.unknown x hx).below hheld fun _ _ hc => hc⟩
  exact h.indexed.allocated (Maps.erase_pair_some hk).2.2

theorem Sorted.append (h : Sorted env [] s) (ha : Appendable env s token) :
    Sorted env [] (after (appendToken token s)) := by
  have haccess := ha.absent (s.heap token).accessToken (by simp [strings])
  have hrefresh := ha.absent (s.heap token).refreshToken (by simp [strings])
  have hheld : ∀ t, Held (after (appendToken token s)) t → Held s t ∨ s.heap token = t := by
    rintro t ⟨token', ⟨k, hk⟩, ht⟩
    rcases Maps.insert_pair_some haccess hrefresh hk with ⟨-, rfl⟩ | ⟨-, -, hold⟩
    · exact .inr ht
    · exact .inl ⟨token', ⟨k, hold⟩, ht⟩
  refine ⟨⟨h.indexed.index.insert haccess hrefresh, fun hk => ?_⟩, ⟨h.paired.written,
    h.paired.cached, fun t t' ht ht' => ?_⟩, fun x hx => absurd hx (List.not_mem_nil)⟩
  · rcases Maps.insert_pair_some haccess hrefresh hk with ⟨-, rfl⟩ | ⟨-, -, hold⟩
    · exact ha.allocated
    · exact h.indexed.allocated hold
  · rcases hheld t ht with hold | rfl
    · exact h.paired.held t t' hold ht'
    · exact ha.cached t' ht'

theorem Sorted.load {id : List UInt8} (h : Sorted env fresh s) (hm : s.tokens id = none)
    (hc : s.cache (env.tokenContext isAccessToken id) = some p) (ht : env.tokenOf p = some t)
    (calls : Nat) : Sorted env fresh (s.load t calls) ∧ InMap (s.load t calls) s.next := by
  have hcached : Cached env s t := ⟨isAccessToken, id, p, hc, ht⟩
  have hid : id ∈ strings t := by
    rw [← h.paired.written isAccessToken id p t hc ht]
    cases isAccessToken <;> simp [string, strings]
  -- the map cannot have one of the strings without the other
  have habsent : ∀ x ∈ strings t, s.tokens x = none := by
    intro x hx
    cases hmx : s.tokens x with
    | none => rfl
    | some token =>
      have hin : InMap s token := ⟨x, hmx⟩
      have hpair := h.paired.held _ t ⟨token, hin, rfl⟩ hcached ⟨x, InMap.own h.indexed hmx, hx⟩
      rw [← hpair] at hid
      rw [hin.found h.indexed hid] at hm
      cases hm
  have haccess := habsent t.accessToken (by simp [strings])
  have hrefresh := habsent t.refreshToken (by simp [strings])
  have hheap : ∀ token, token < s.next → (s.load t calls).heap token = s.heap token :=
    fun token hlt => if_neg (Nat.ne_of_lt hlt)
  have hnext : (s.load t calls).heap s.next = t := if_pos rfl
  have hheld : ∀ t', Held (s.load t calls) t' → Held s t' ∨ t = t' := by
    rintro t' ⟨token, ⟨k, hk⟩, ht'⟩
    rcases Maps.insert_pair_some haccess hrefresh hk with ⟨-, rfl⟩ | ⟨-, -, hold⟩
    · exact .inr (hnext.symm.trans ht')
    · rw [hheap token (h.indexed.allocated hold)] at ht'
      exact .inl ⟨token, ⟨k, hold⟩, ht'⟩
  refine ⟨⟨⟨?_, fun hk => ?_⟩, ⟨h.paired.written, h.paired.cached, fun t₁ t₂ h₁ h₂ => ?_⟩,
    fun x hx t' ht' => ?_⟩, t.accessToken, ?_⟩
  · have hold : Maps.TwoKey (fun token => ((s.load t calls).heap token).accessToken)
        (fun token => ((s.load t calls).heap token).refreshToken) s.tokens :=
      h.indexed.index.congr fun k token hk => by
        rw [hheap token (h.indexed.allocated hk)]
        exact ⟨rfl, rfl⟩
    have hinsert := hold.insert (v := s.next) (by rw [hnext]; exact haccess)
      (by rw [hnext]; exact hrefresh)
    rwa [hnext] at hinsert
  · rcases Maps.insert_pair_some haccess hrefresh hk with ⟨-, rfl⟩ | ⟨-, -, hold⟩
    · exact Nat.lt_succ_self _
    · exact Nat.lt_succ_of_lt (h.indexed.allocated hold)
  · rcases hheld t₁ h₁ with hold | rfl
    · exact h.paired.held t₁ t₂ hold h₂
    · exact h.paired.cached t t₂ hcached h₂
  · rcases ht' with ht' | ht'
    · rcases hheld t' ht' with hold | rfl
      · exact h.unknown x hx t' (.inl hold)
      · exact h.unknown x hx t (.inr hcached)
    · exact h.unknown x hx t' (.inr ht')
  · exact (Maps.insert_pair_there haccess hrefresh).1

/-- What a lookup leaves behind, whether it throws or not: a token that it has
found is in the map. -/
theorem sorted_find (isAccessToken : Bool) (id : List UInt8) :
    Triple (Sorted env fresh) (findToken env isAccessToken id)
      (fun found s => Sorted env fresh s ∧ ∀ token ∈ found, InMap s token) (Sorted env fresh) := by
  intro s hs
  have hcalls : ∀ n, Sorted env fresh { s with calls := n } :=
    fun n => hs.quiet rfl rfl rfl fun _ _ h => h
  have ho := find_outcome env isAccessToken id s
  generalize findToken env isAccessToken id s = r at ho ⊢
  cases ho with
  | empty => exact ⟨hs, fun token h => by cases h⟩
  | memory _ hm =>
    refine ⟨hs, fun token h => ?_⟩
    cases h
    exact ⟨id, hm⟩
  | missing _ _ _ calls => exact ⟨hcalls calls, fun token h => by cases h⟩
  | loaded _ hm hc ht calls =>
    obtain ⟨hload, hin⟩ := hs.load hm hc ht calls
    refine ⟨hload, fun token h => ?_⟩
    cases h
    exact hin
  | unreadable _ _ _ _ calls => exact hcalls calls
  | thrown _ _ _ calls => exact hcalls calls

theorem sorted_parse (http : HttpHeader) (isAccessToken : Bool) (check : Option Int) :
    Triple (Sorted env fresh) (parseToken env http isAccessToken check)
      (fun found s => Sorted env fresh s ∧ ∀ token ∈ found, InMap s token) (Sorted env fresh) := by
  intro s hs
  unfold parseToken
  cases requestTokenId http with
  | none => exact ⟨hs, fun token h => by cases h⟩
  | some id =>
    have hfind := sorted_find isAccessToken id s hs
    dsimp only
    cases hr : findToken env isAccessToken id s with
    | error e s₁ =>
      rw [hr] at hfind
      rw [bind_error hr]
      exact hfind
    | ok found s₁ =>
      rw [hr] at hfind
      obtain ⟨hs₁, hin⟩ := hfind
      rw [bind_ok hr]
      cases found with
      | none => exact ⟨hs₁, fun token h => by cases h⟩
      | some token =>
        dsimp only
        rw [get_bind]
        by_cases hexpired : (s₁.heap token).isExpired isAccessToken check = true
        · rw [if_pos hexpired]
          have hremoved := hs₁.remove ((hin token rfl).together hs₁.indexed)
          exact ⟨hremoved, fun token h => by cases h⟩
        · rw [if_neg hexpired]
          exact ⟨hs₁, hin⟩

theorem stored_some (h : stored m key n p k = some q) : (k = key ∧ q = p) ∨ m k = some q := by
  unfold stored at h
  split at h
  · rcases Maps.set_some h with hnew | ⟨-, hold⟩
    · exact .inl hnew
    · exact .inr hold
  · exact .inr h

theorem RefreshEnded.entry {id : List UInt8} (h : RefreshEnded env token a r s s')
    (hc : s'.cache (env.tokenContext isAccessToken id) = some q) (ht : env.tokenOf q = some t) :
    (t.accessToken = a ∧ t.refreshToken = r ∧ id = string t isAccessToken) ∨
      s.cache (env.tokenContext isAccessToken id) = some q := by
  obtain ⟨p, x, y, hp, hcache⟩ := h.cache
  rw [hcache] at hc
  rcases stored_some hc with ⟨hkey, rfl⟩ | hc
  · obtain ⟨rfl, rfl⟩ := context_inj hkey
    obtain ⟨ha, hr⟩ := hp t ht
    exact .inl ⟨ha, hr, hr.symm⟩
  rcases stored_some hc with ⟨hkey, rfl⟩ | hc
  · obtain ⟨rfl, rfl⟩ := context_inj hkey
    obtain ⟨ha, hr⟩ := hp t ht
    exact .inl ⟨ha, hr, ha.symm⟩
  · split at hc
    · cases hc
    · exact .inr hc

/-- Without its old strings the map knows no string that is new. -/
theorem Sorted.absent (h : Sorted env fresh s) (token : Nat) (hx : x ∈ fresh) :
    Maps.erase (Maps.erase s.tokens (s.heap token).refreshToken) (s.heap token).accessToken x =
      none := by
  cases hmx : Maps.erase (Maps.erase s.tokens (s.heap token).refreshToken)
    (s.heap token).accessToken x with
  | none => rfl
  | some token' =>
    have hmx' := (Maps.erase_pair_some hmx).2.2
    exact absurd (InMap.own h.indexed hmx') (h.unknown x hx _ (.inl ⟨token', ⟨x, hmx'⟩, rfl⟩))

/-- An entry of the map after a refresh is that of the token, or an old one of another. -/
theorem Sorted.refreshed_entry (h : Sorted env [a, r] s) (hr : RefreshEnded env token a r s s')
    (hk : s'.tokens k = some token') :
    token' = token ∨ token' ≠ token ∧ s.tokens k = some token' := by
  rw [hr.tokens] at hk
  rcases Maps.insert_pair_some (h.absent token (by simp)) (h.absent token (by simp)) hk with
    ⟨-, rfl⟩ | ⟨-, -, hold⟩
  · exact .inl rfl
  · refine .inr ⟨?_, (Maps.erase_pair_some hold).2.2⟩
    rintro rfl
    exact h.indexed.index.erased k hold

theorem Sorted.refreshed_index (h : Sorted env [a, r] s) (hin : InMap s token)
    (hr : RefreshEnded env token a r s s') : Indexed s' := by
  refine ⟨?_, fun hk => ?_⟩
  · have herased := h.indexed.index.erase (hin.together h.indexed)
    have hsame : Maps.TwoKey (fun token => (s'.heap token).accessToken)
        (fun token => (s'.heap token).refreshToken) _ :=
      herased.congr fun k token' hk => by
        have hne : token' ≠ token := by
          rintro rfl
          exact h.indexed.index.erased k hk
        rw [hr.others token' hne]
        exact ⟨rfl, rfl⟩
    have hinsert := hsame.insert (v := token)
      (by rw [hr.issued.access]; exact h.absent token (by simp))
      (by rw [hr.issued.refresh]; exact h.absent token (by simp))
    rwa [hr.issued.access, hr.issued.refresh, ← hr.tokens] at hinsert
  · rw [hr.next]
    rcases h.refreshed_entry hr hk with rfl | ⟨-, hold⟩
    · obtain ⟨k, hk⟩ := hin
      exact h.indexed.allocated hk
    · exact h.indexed.allocated hold

/-- Tokens that share a string have both in common, also those with two strings that
none has had before. -/
theorem shared_of_new {P Q P' Q' : Token → Prop} {new : List (List UInt8)}
    (hP : ∀ t, P' t → P t ∨ strings t = new) (hQ : ∀ t, Q' t → Q t ∨ strings t = new)
    (hold : ∀ t t', P t → Q t' → Shares t t' → strings t = strings t')
    (hunknown : ∀ x ∈ new, ∀ t, P t ∨ Q t → x ∉ strings t) (t t' : Token) (ht : P' t)
    (ht' : Q' t') (hs : Shares t t') : strings t = strings t' := by
  rcases hP t ht with hp | hnew
  · rcases hQ t' ht' with hq | hnew'
    · exact hold t t' hp hq hs
    · obtain ⟨x, hx, hx'⟩ := hs
      exact absurd hx (hunknown x (hnew' ▸ hx') t (.inl hp))
  · rcases hQ t' ht' with hq | hnew'
    · obtain ⟨x, hx, hx'⟩ := hs
      exact absurd hx' (hunknown x (hnew ▸ hx) t' (.inr hq))
    · rw [hnew, hnew']

/-- A refresh that has succeeded: the token object is found under its new strings. -/
theorem Sorted.refreshed (h : Sorted env [a, r] s) (hin : InMap s token)
    (hr : RefreshEnded env token a r s s') : Sorted env [] s' := by
  have hnew : strings (s'.heap token) = [a, r] := by
    rw [strings, hr.issued.access, hr.issued.refresh]
  have hheld : ∀ t, Held s' t → Held s t ∨ strings t = [a, r] := by
    rintro t ⟨token', ⟨k, hk⟩, rfl⟩
    rcases h.refreshed_entry hr hk with rfl | ⟨hne, hold⟩
    · exact .inr hnew
    · exact .inl ⟨token', ⟨k, hold⟩, (hr.others token' hne).symm⟩
  have hcached : ∀ t, Cached env s' t → Cached env s t ∨ strings t = [a, r] := by
    rintro t ⟨b, id, q, hc, ht⟩
    rcases hr.entry hc ht with ⟨ha, hr, -⟩ | hold
    · exact .inr (by rw [strings, ha, hr])
    · exact .inl ⟨b, id, q, hold, ht⟩
  refine ⟨h.refreshed_index hin hr, ⟨fun b id q t hc ht => ?_, ?_, ?_⟩,
    fun x hx => absurd hx List.not_mem_nil⟩
  · rcases hr.entry hc ht with ⟨-, -, rfl⟩ | hold
    · rfl
    · exact h.paired.written b id q t hold ht
  · exact shared_of_new hcached hcached h.paired.cached fun x hx t ht =>
      h.unknown x hx t (.inr (ht.elim id id))
  · exact shared_of_new hheld hcached h.paired.held h.unknown

/-- A refresh that has come to its end has found no token or refreshed one. -/
theorem refresh_cases (h : refreshToken env http now a r s = .ok json s') :
    parseToken env http false (some now) s = .ok none s' ∨
      ∃ token s₁, parseToken env http false (some now) s = .ok (some token) s₁ ∧
        RefreshEnded env token a r s₁ s' := by
  have hrun := h
  unfold refreshToken at h
  obtain ⟨found, s₁, hparse, h⟩ := bind_ended h
  cases found with
  | none =>
    cases h
    exact .inl hparse
  | some token =>
    exact .inr ⟨token, s₁, hparse, refresh_ended hparse hrun⟩

theorem Sorted.weaken (h : Sorted env fresh s) : Sorted env [] s :=
  ⟨h.indexed, h.paired, fun _ hx => absurd hx List.not_mem_nil⟩

theorem sorted_ended {Q : α → Server → Prop} {x : Act α}
    (h : Triple (Sorted env fresh) x (fun a s => Sorted env fresh s ∧ Q a s) (Sorted env fresh))
    (hs : Sorted env fresh s) : Sorted env fresh (after (x s)) := by
  have hx := h s hs
  cases hr : x s with
  | ok a s' =>
    rw [hr] at hx
    exact hx.1
  | error e s' =>
    rw [hr] at hx
    exact hx

theorem Sorted.use (h : Sorted env [] s) (hu : Use env s s') : Sorted env [] s' := by
  cases hu with
  | append token ha => exact h.append ha
  | remove a r ht => exact h.remove ht
  | removeId id =>
    unfold removeTokenId
    cases hm : s.tokens id with
    | none => exact h
    | some token => exact h.remove (InMap.together h.indexed ⟨id, hm⟩)
  | update token a r ht ha => exact (h.remove ht).append ha
  | find isAccessToken id => exact sorted_ended (sorted_find isAccessToken id) h
  | parse http isAccessToken check => exact sorted_ended (sorted_parse http isAccessToken check) h
  | refresh http now a r ha hr hrun =>
    have hfresh : Sorted env [a, r] s := by
      refine ⟨h.indexed, h.paired, fun x hx => ?_⟩
      rcases List.mem_pair.mp hx with rfl | rfl
      · exact ha
      · exact hr
    have hparsed := sorted_parse http false (some now) s hfresh
    rcases refresh_cases hrun with hparse | ⟨token, s₁, hparse, hended⟩
    · rw [hparse] at hparsed
      exact hparsed.1.weaken
    · rw [hparse] at hparsed
      exact hparsed.1.refreshed (hparsed.2 token rfl) hended
  | make t =>
    have hheap : ∀ token, token < s.next → (after (makeToken t s)).heap token = s.heap token :=
      fun token hlt => if_neg (Nat.ne_of_lt hlt)
    refine ⟨⟨h.indexed.index.congr fun k token hk => ?_,
      fun hk => Nat.lt_succ_of_lt (h.indexed.allocated hk)⟩,
      h.paired.below ?_ fun _ _ hc => hc, fun _ hx => absurd hx List.not_mem_nil⟩
    · rw [hheap token (h.indexed.allocated hk)]
      exact ⟨rfl, rfl⟩
    · rintro t' ⟨token, ⟨k, hk⟩, ht'⟩
      rw [hheap token (h.indexed.allocated hk)] at ht'
      exact ⟨token, ⟨k, hk⟩, ht'⟩
  | outside cache sets hp =>
    exact ⟨⟨h.indexed.index, h.indexed.allocated⟩, hp, fun _ hx => absurd hx List.not_mem_nil⟩

/-- The map of the tokens is a two-key index after every run. -/
theorem Used.sorted (hu : Used env s) : Sorted env [] s := by
  induction hu with
  | @start s hm hp =>
    refine ⟨⟨⟨?_, ?_, ?_⟩, ?_⟩, hp, fun x hx => absurd hx List.not_mem_nil⟩
    all_goals
      intro k token hk
      rw [hm] at hk
      cases hk
  | step _ h ih => exact ih.use h

/-- Every key of the map is one of the two strings of the token it leads to, and
both strings lead to that same token. -/
theorem tokens_indexed (hu : Used env s) (hk : s.tokens k = some token) :
    (k = (s.heap token).accessToken ∨ k = (s.heap token).refreshToken) ∧
      s.tokens (s.heap token).accessToken = some token ∧
      s.tokens (s.heap token).refreshToken = some token :=
  have hi := hu.sorted.indexed.index
  ⟨hi.own hk, hi.atFirst hk, hi.atSecond hk⟩

theorem cached_one (h : Cached firstHour cachedOne t) : strings t = [ascii "A1", ascii "R1"] := by
  obtain ⟨b, id, p, hc, ht⟩ := h
  obtain ⟨t', ht', ha, hr⟩ := token_one
  have hp : p = payloadOne := by
    rcases Maps.set_some hc with ⟨-, hp⟩ | ⟨-, hc⟩
    · exact hp
    · rcases Maps.set_some hc with ⟨-, hp⟩ | ⟨-, hc⟩
      · exact hp
      · cases hc
  rw [hp, ht'] at ht
  cases ht
  rw [strings, ha, hr]

theorem cached_one_paired : Paired firstHour cachedOne where
  written := cached_reachable.written
  cached _ _ h h' _ := (cached_one h).trans (cached_one h').symm
  held := by
    rintro t t' ⟨token, ⟨k, hk⟩, -⟩
    cases hk

theorem unknown_one (hx : x ∉ [ascii "A1", ascii "R1"]) : Unknown firstHour cachedOne x := by
  rintro t (⟨token, ⟨k, hk⟩, -⟩ | h)
  · cases hk
  · rwa [cached_one h]

/-- A token that is loaded and refreshed is found under its new strings. -/
theorem refreshed_one_indexed :
    let s := (actionRefreshToken firstHour refreshRequest 0 (ascii "A2") (ascii "R2") cachedOne).2
    (ascii "A2" = (s.heap 0).accessToken ∨ ascii "A2" = (s.heap 0).refreshToken) ∧
      s.tokens (s.heap 0).accessToken = some 0 ∧ s.tokens (s.heap 0).refreshToken = some 0 := by
  have hreply : (actionRefreshToken firstHour refreshRequest 0 (ascii "A2") (ascii "R2")
      cachedOne).1 = .token answerOne := by decide +kernel
  have hrun := action_token (Prod.ext hreply rfl)
  exact tokens_indexed (.step (.start (fun _ => rfl) cached_one_paired)
    (.refresh refreshRequest 0 (ascii "A2") (ascii "R2") (unknown_one (by decide))
      (unknown_one (by decide)) hrun)) (by decide +kernel : _ = some 0)

/-- The map is no index where a removal is given the strings of two tokens: the entry
under the refresh string stays, and its token is no longer found under the other. -/
theorem half_removed :
    ∃ s, Used firstHour s ∧
      let s' := after (removeToken (ascii "A1") (ascii "R2") s)
      s'.tokens (ascii "R1") = some 0 ∧ s'.tokens (s'.heap 0).accessToken ≠ some 0 := by
  have hstart : Used firstHour cachedOne := .start (fun _ => rfl) cached_one_paired
  exact ⟨_, .step hstart (.find true (ascii "A1")), by decide +kernel⟩

end Khorost.Server
