import Khorost.Db.TokenRows
import Khorost.Proofs.TokenKinds

namespace Khorost.TokenRows

/-- What is done to the table, by any number of servers and with any token objects,
however old. -/
inductive Operation
  | create (accessTimeout refreshTimeout appendTime : Int) (payload : Payload)
  | refresh (accessTimeout refreshTimeout appendTime : Int) (token : Token)

def perform (env : Surroundings) (uuid : List UInt8 → Option (List UInt8)) (m : TokenMoment)
    (rows : TokenRows) : Operation → Option (Token × TokenRows)
  | .create accessTimeout refreshTimeout appendTime payload =>
    createToken m accessTimeout refreshTimeout appendTime payload rows
  | .refresh accessTimeout refreshTimeout appendTime token =>
    refreshToken env uuid m accessTimeout refreshTimeout appendTime token rows

/-- The ids that are drawn are new. -/
structure Fresh (m : TokenMoment) (rows : TokenRows) : Prop where
  access : m.accessToken ∉ rows.map (·.accessToken)
  refresh : m.refreshToken ∉ rows.map (·.refreshToken)

/-- The table after an operation; one that throws changes nothing. -/
def after (env : Surroundings) (uuid : List UInt8 → Option (List UInt8)) (m : TokenMoment)
    (rows : TokenRows) (op : Operation) : TokenRows :=
  (perform env uuid m rows op).elim rows fun done => done.2

/-- The runs from a table on, with the latest time of an operation. -/
inductive Later (env : Surroundings) (uuid : List UInt8 → Option (List UInt8)) (first : Int)
    (rows : TokenRows) : Int → TokenRows → Prop
  | refl : Later env uuid first rows first rows
  | step (m : TokenMoment) (op : Operation) (h : Later env uuid first rows clock rows₁)
    (hfresh : Fresh m rows₁) :
    Later env uuid first rows (max clock m.now) (after env uuid m rows₁ op)

variable {env : Surroundings} {uuid : List UInt8 → Option (List UInt8)} {m : TokenMoment}
  {rows rows' : TokenRows} {token : Token} {row : TokenRow} {id : List UInt8} {clock first now : Int}

/-- A new row comes behind the others, of which those of one id may end. -/
inductive Effect (m : TokenMoment) (rows : TokenRows) : TokenRows → Prop
  | nothing : Effect m rows rows
  | created (row : TokenRow) (haccess : row.accessToken = m.accessToken)
    (hrefresh : row.refreshToken = m.refreshToken) : Effect m rows (rows ++ [row])
  | refreshed (id : List UInt8) (row : TokenRow) (haccess : row.accessToken = m.accessToken)
    (hrefresh : row.refreshToken = m.refreshToken) :
    Effect m rows (endNow m.now id rows ++ [row])

/-- A refresh of an id that is there ends its row and puts a new one in its place. -/
theorem refresh_some (h : refreshToken env uuid m accessTimeout refreshTimeout appendTime token rows =
      some (token', rows')) :
    ∃ id, uuid token.refreshToken = some id ∧
      ((∀ r ∈ rows, r.refreshToken ≠ id) ∧ rows' = rows ∨
        ∃ row : TokenRow, row.accessToken = m.accessToken ∧ row.refreshToken = m.refreshToken ∧
          rows' = endNow m.now id rows ++ [row]) := by
  obtain ⟨id, hid, h⟩ := Option.bind_eq_some_iff.mp h
  refine ⟨id, hid, ?_⟩
  cases hfind : rows.find? fun r => r.refreshToken = id with
  | none =>
    simp only [hfind, Option.some.injEq, Prod.mk.injEq] at h
    exact .inl ⟨by simpa using hfind, h.2.symm⟩
  | some r =>
    simp only [hfind, Option.bind_eq_bind, Option.bind_eq_some_iff, Option.some.injEq,
      Prod.mk.injEq] at h
    obtain ⟨access, -, refresh, -, -, rfl⟩ := h
    exact .inr ⟨_, rfl, rfl, rfl⟩

theorem after_effect (op : Operation) : Effect m rows (after env uuid m rows op) := by
  cases hop : perform env uuid m rows op with
  | none => simpa [after, hop] using Effect.nothing
  | some done =>
    obtain ⟨token', rows'⟩ := done
    have hafter : after env uuid m rows op = rows' := by simp [after, hop]
    rw [hafter]
    cases op with
    | create accessTimeout refreshTimeout appendTime payload =>
      simp only [perform, createToken, Option.bind_eq_bind, Option.bind_eq_some_iff,
        Option.some.injEq, Prod.mk.injEq] at hop
      obtain ⟨access, -, refresh, -, -, rfl⟩ := hop
      exact .created _ rfl rfl
    | refresh accessTimeout refreshTimeout appendTime token =>
      obtain ⟨id, -, hcases⟩ := refresh_some hop
      cases hcases with
      | inl hnone =>
        obtain ⟨-, rfl⟩ := hnone
        exact .nothing
      | inr hrow =>
        obtain ⟨row, haccess, hrefresh, rfl⟩ := hrow
        exact .refreshed id row haccess hrefresh

theorem mem_endNow (hr : r ∈ endNow now id rows) :
    ∃ old ∈ rows, r.accessToken = old.accessToken ∧ r.refreshToken = old.refreshToken ∧
      (old.refreshToken = id ∧ r.accessTime = now ∧ r.refreshTime = now ∨
        old.refreshToken ≠ id ∧ r = old) := by
  obtain ⟨old, hold, rfl⟩ := List.mem_map.mp hr
  refine ⟨old, hold, ?_⟩
  by_cases hid : old.refreshToken = id
  · simp [hid]
  · simp [hid]

@[simp] theorem endNow_access :
    (endNow now id rows).map (·.accessToken) = rows.map (·.accessToken) := by
  rw [endNow, List.map_map]
  apply List.map_congr_left
  intro r hr
  by_cases hid : r.refreshToken = id <;> simp [hid]

@[simp] theorem endNow_refresh :
    (endNow now id rows).map (·.refreshToken) = rows.map (·.refreshToken) := by
  rw [endNow, List.map_map]
  apply List.map_congr_left
  intro r hr
  by_cases hid : r.refreshToken = id <;> simp [hid]

structure Distinct (rows : TokenRows) : Prop where
  access : (rows.map (·.accessToken)).Nodup
  refresh : (rows.map (·.refreshToken)).Nodup

theorem Distinct.append (h : Distinct rows) (hfresh : Fresh m rows)
    (haccess : row.accessToken = m.accessToken) (hrefresh : row.refreshToken = m.refreshToken) :
    Distinct (rows ++ [row]) := by
  constructor
  · simp only [List.map_append, List.map_cons, List.map_nil, haccess]
    exact h.access.append (by simp) (by simpa using hfresh.access)
  · simp only [List.map_append, List.map_cons, List.map_nil, hrefresh]
    exact h.refresh.append (by simp) (by simpa using hfresh.refresh)

theorem Distinct.endNow (h : Distinct rows) : Distinct (TokenRows.endNow now id rows) := by
  constructor
  · simpa using h.access
  · simpa using h.refresh

theorem Fresh.endNow (h : Fresh m rows) : Fresh m (TokenRows.endNow now id rows) := by
  constructor
  · simpa using h.access
  · simpa using h.refresh

theorem Distinct.effect (h : Distinct rows) (hfresh : Fresh m rows) (heffect : Effect m rows rows') :
    Distinct rows' := by
  cases heffect with
  | nothing => exact h
  | created row haccess hrefresh => exact h.append hfresh haccess hrefresh
  | refreshed id row haccess hrefresh => exact h.endNow.append hfresh.endNow haccess hrefresh

theorem Later.distinct (h : Later env uuid first rows clock rows') (hdistinct : Distinct rows) :
    Distinct rows' := by
  induction h with
  | refl => exact hdistinct
  | step m op h hfresh ih => exact ih.effect hfresh (after_effect op)

/-- The row of the two ids is there, and no row of the one id without the other; its
times are over. -/
structure Spent (accessToken refreshToken : List UInt8) (clock : Int) (rows : TokenRows) : Prop where
  there : ∃ r ∈ rows, r.accessToken = accessToken
  paired : ∀ r ∈ rows, r.accessToken = accessToken ↔ r.refreshToken = refreshToken
  ended : ∀ r ∈ rows, r.refreshToken = refreshToken → r.accessTime ≤ clock ∧ r.refreshTime ≤ clock

variable {access refresh : List UInt8}

theorem Spent.mono (h : Spent access refresh clock rows) (hle : clock ≤ clock') :
    Spent access refresh clock' rows := by
  refine ⟨h.there, h.paired, ?_⟩
  intro r hr hid
  obtain ⟨haccess, hrefresh⟩ := h.ended r hr hid
  omega

theorem Spent.append (h : Spent access refresh clock rows) (hfresh : Fresh m rows)
    (haccess : row.accessToken = m.accessToken) (hrefresh : row.refreshToken = m.refreshToken) :
    Spent access refresh clock (rows ++ [row]) := by
  obtain ⟨old, hold, hid⟩ := h.there
  have hfirst : row.accessToken ≠ access := by
    intro heq
    apply hfresh.access
    rw [← haccess, heq, ← hid]
    exact List.mem_map_of_mem hold
  have hsecond : row.refreshToken ≠ refresh := by
    intro heq
    apply hfresh.refresh
    rw [← hrefresh, heq, ← (h.paired old hold).mp hid]
    exact List.mem_map_of_mem hold
  refine ⟨⟨old, by simp [hold], hid⟩, ?_, ?_⟩
  · intro r hr
    rcases List.mem_append.mp hr with hr | hr
    · exact h.paired r hr
    · simp only [List.mem_singleton] at hr
      subst hr
      simp [hfirst, hsecond]
  · intro r hr hrefreshed
    rcases List.mem_append.mp hr with hr | hr
    · exact h.ended r hr hrefreshed
    · simp only [List.mem_singleton] at hr
      subst hr
      exact absurd hrefreshed hsecond

theorem Spent.endNow (h : Spent access refresh clock rows) (hnow : now ≤ clock) :
    Spent access refresh clock (TokenRows.endNow now id rows) := by
  obtain ⟨old, hold, hid⟩ := h.there
  refine ⟨?_, ?_, ?_⟩
  · have hmem : access ∈ (TokenRows.endNow now id rows).map (·.accessToken) := by
      rw [endNow_access, ← hid]
      exact List.mem_map_of_mem hold
    exact List.mem_map.mp hmem
  · intro r hr
    obtain ⟨r₀, hr₀, haccess, hrefresh, -⟩ := mem_endNow hr
    rw [haccess, hrefresh]
    exact h.paired r₀ hr₀
  · intro r hr hrefreshed
    obtain ⟨r₀, hr₀, -, hsame, hcases⟩ := mem_endNow hr
    rcases hcases with ⟨-, hfirst, hsecond⟩ | ⟨-, rfl⟩
    · omega
    · exact h.ended r hr₀ hrefreshed

theorem Spent.effect (h : Spent access refresh clock rows) (hfresh : Fresh m rows)
    (heffect : Effect m rows rows') : Spent access refresh (max clock m.now) rows' := by
  have hlater : Spent access refresh (max clock m.now) rows := h.mono (by omega)
  cases heffect with
  | nothing => exact hlater
  | created row haccess hrefresh => exact hlater.append hfresh haccess hrefresh
  | refreshed id row haccess hrefresh =>
    exact (hlater.endNow (by omega)).append hfresh.endNow haccess hrefresh

theorem Spent.later (h : Spent access refresh first rows)
    (hlater : Later env uuid first rows clock rows') : Spent access refresh clock rows' := by
  induction hlater with
  | refl => exact h
  | step m op hlater hfresh ih => exact ih.effect hfresh (after_effect op)

/-- A refresh at which the table had no second row of either id. -/
theorem Distinct.spent (h : Distinct rows) (hfresh : Fresh m rows) (hold : old ∈ rows)
    (haccess : row.accessToken = m.accessToken) (hrefresh : row.refreshToken = m.refreshToken) :
    Spent old.accessToken old.refreshToken m.now
      (TokenRows.endNow m.now old.refreshToken rows ++ [row]) := by
  apply Spent.append _ hfresh.endNow haccess hrefresh
  refine ⟨?_, ?_, ?_⟩
  · have hmem : old.accessToken ∈
        (TokenRows.endNow m.now old.refreshToken rows).map (·.accessToken) := by
      rw [endNow_access]
      exact List.mem_map_of_mem hold
    exact List.mem_map.mp hmem
  · intro r hr
    obtain ⟨r₀, hr₀, hsame, hsame', -⟩ := mem_endNow hr
    rw [hsame, hsame']
    constructor
    · intro heq
      rw [List.inj_on_of_nodup_map h.access hr₀ hold heq]
    · intro heq
      rw [List.inj_on_of_nodup_map h.refresh hr₀ hold heq]
  · intro r hr hid
    obtain ⟨r₀, hr₀, -, hsame, hcases⟩ := mem_endNow hr
    rcases hcases with ⟨-, hfirst, hsecond⟩ | ⟨hne, -⟩
    · omega
    · exact absurd (hsame.symm.trans hid) hne

theorem over_expired (haccess : token.accessExpire ≤ now) (hrefresh : token.refreshExpire ≤ now) :
    token.isExpired kind (some now) = true := by
  cases kind
  · simpa [Token.isExpired, Token.isNoExpireRefresh] using hrefresh
  · simpa [Token.isExpired, Token.isNoExpireAccess] using haccess

theorem Spent.loaded (h : Spent access refresh clock rows) (hnow : clock ≤ now)
    (htext : uuid text = some (if kind then access else refresh)) :
    ∃ t, loadToken uuid kind text rows = some (some t) ∧ t.accessToken = access ∧
      t.refreshToken = refresh ∧ ∀ kind', t.isExpired kind' (some now) = true := by
  obtain ⟨old, hold, hid⟩ := h.there
  have hfound : (rows.find? fun r => r.id kind = if kind then access else refresh).isSome := by
    rw [List.find?_isSome]
    refine ⟨old, hold, ?_⟩
    cases kind
    · simpa [TokenRow.id] using (h.paired old hold).mp hid
    · simpa [TokenRow.id] using hid
  obtain ⟨r, hfind⟩ := Option.isSome_iff_exists.mp hfound
  have hr : r ∈ rows := List.mem_of_find?_eq_some hfind
  have hsame : r.id kind = if kind then access else refresh := by
    simpa using List.find?_some hfind
  have hrefresh : r.refreshToken = refresh := by
    cases kind
    · simpa [TokenRow.id] using hsame
    · exact (h.paired r hr).mp (by simpa [TokenRow.id] using hsame)
  have haccess : r.accessToken = access := (h.paired r hr).mpr hrefresh
  obtain ⟨hfirst, hsecond⟩ := h.ended r hr hrefresh
  exact ⟨r.token, by simp [loadToken, htext, hfind], haccess, hrefresh, fun kind' =>
    over_expired (Int.le_trans hfirst hnow) (Int.le_trans hsecond hnow)⟩

/-- Once refreshed, a token of the database is expired for good by either of its ids,
whatever is created and refreshed later, also by the ids it had. -/
theorem refreshed_stays_expired (hreached : Later env uuid first [] clock rows)
    (hold : old ∈ rows) (hid : uuid token.refreshToken = some old.refreshToken)
    (hfresh : Fresh m rows)
    (h : refreshToken env uuid m accessTimeout refreshTimeout appendTime token rows =
      some (token', rows'))
    (hlater : Later env uuid m.now rows' clock' rows₂) (hnow : clock' ≤ now)
    (htext : uuid text = some (old.id isAccessToken)) :
    ∃ t, loadToken uuid isAccessToken text rows₂ = some (some t) ∧
      t.accessToken = old.accessToken ∧ t.refreshToken = old.refreshToken ∧
      ∀ kind, t.isExpired kind (some now) = true := by
  have hdistinct : Distinct rows := hreached.distinct ⟨List.nodup_nil, List.nodup_nil⟩
  obtain ⟨id, hread, hcases⟩ := refresh_some h
  obtain rfl : old.refreshToken = id := Option.some.inj (hid.symm.trans hread)
  rcases hcases with ⟨hnone, -⟩ | ⟨row, haccess, hrefresh, rfl⟩
  · exact absurd rfl (hnone old hold)
  · exact ((hdistinct.spent hfresh hold haccess hrefresh).later hlater).loaded hnow htext

/-- How the database reads an id that has no hyphens and only small letters. -/
def annUuid (text : List UInt8) : Option (List UInt8) := if text.length = 32 then some text else none

def annIds (now : Int) (access refresh : Char) : TokenMoment :=
  ⟨now, (List.replicate 32 access).map fun c => UInt8.ofNat c.toNat,
    (List.replicate 32 refresh).map fun c => UInt8.ofNat c.toNat⟩

/-- A token of two ids that was good for a minute. -/
def annRow : TokenRow :=
  ⟨(annIds 0 '1' '2').accessToken, 60000000, (annIds 0 '1' '2').refreshToken, 60000000,
    tokenPayload 60 60 fun _ => none⟩

def annRefreshed : TokenRows :=
  [{ annRow with accessTime := 10000000, refreshTime := 10000000 },
    ⟨(annIds 0 '3' '4').accessToken, 70000000, (annIds 0 '3' '4').refreshToken, 70000000,
      annRow.payload⟩]

def annLast : TokenRows :=
  after Server.firstHour annUuid (annIds 20000000 '5' '6') annRefreshed
    (.create 60 60 0 fun _ => none)

theorem ann_spent : ∃ t, loadToken annUuid true annRow.accessToken annLast = some (some t) ∧
    t.accessToken = annRow.accessToken ∧ t.refreshToken = annRow.refreshToken ∧
    ∀ kind, t.isExpired kind (some 30000000) = true := by
  have hcreated : Later Server.firstHour annUuid 0 [] 0 [annRow] :=
    .step (annIds 0 '1' '2') (.create 60 60 0 fun _ => none) .refl ⟨by simp, by simp⟩
  have hfresh : Fresh (annIds 10000000 '3' '4') [annRow] := ⟨by decide, by decide⟩
  have hrefreshed : refreshToken Server.firstHour annUuid (annIds 10000000 '3' '4') 0 0 0
      annRow.token [annRow] = some (_, annRefreshed) := rfl
  have hnew : Fresh (annIds 20000000 '5' '6') annRefreshed := ⟨by decide, by decide⟩
  have hlater : Later Server.firstHour annUuid 10000000 annRefreshed 20000000 annLast :=
    .step (annIds 20000000 '5' '6') (.create 60 60 0 fun _ => none) .refl hnew
  exact refreshed_stays_expired hcreated (List.mem_singleton_self annRow) rfl hfresh
    hrefreshed hlater (by decide) rfl

end Khorost.TokenRows
