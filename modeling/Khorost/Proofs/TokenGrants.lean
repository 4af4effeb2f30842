import Khorost.Proofs.TokenRows

namespace Khorost.TokenRows

/-- One generation of a token: its ids and times, and the timeouts and the payload of
the creation from which it comes. -/
structure Grant where
  accessToken : List UInt8
  accessTime : Int
  refreshToken : List UInt8
  refreshTime : Int
  accessTimeout : Int
  refreshTimeout : Int
  payload : Payload

def Grant.row (g : Grant) : TokenRow :=
  ⟨g.accessToken, g.accessTime, g.refreshToken, g.refreshTime,
    tokenPayload g.accessTimeout g.refreshTimeout g.payload⟩

namespace Grants

/-- A grant from now on, if its times can be told. -/
def fresh (m : TokenMoment) (accessPeriod refreshPeriod appendTime accessTimeout refreshTimeout : Int)
    (payload : Payload) : Option Grant := do
  let accessInterval ← interval accessPeriod appendTime
  let refreshInterval ← interval refreshPeriod appendTime
  some ⟨m.accessToken, m.now + accessInterval, m.refreshToken, m.now + refreshInterval,
    accessTimeout, refreshTimeout, payload⟩

def stop (now : Int) (id : List UInt8) (grants : List Grant) : List Grant :=
  grants.map fun g =>
    if g.refreshToken = id then { g with accessTime := now, refreshTime := now } else g

/-- The next generation is for the periods that are asked for, else for those of the
creation, which it passes on. -/
def next (m : TokenMoment) (accessTimeout refreshTimeout appendTime : Int) (g : Grant) : Option Grant :=
  fresh m (if accessTimeout ≠ 0 then accessTimeout else g.accessTimeout)
    (if refreshTimeout ≠ 0 then refreshTimeout else g.refreshTimeout) appendTime
    g.accessTimeout g.refreshTimeout g.payload

/-- The purpose of the table. What cannot be done leaves it as it is. -/
def after (uuid : List UInt8 → Option (List UInt8)) (m : TokenMoment) (grants : List Grant) :
    Operation → List Grant
  | .create accessTimeout refreshTimeout appendTime payload =>
    (fresh m accessTimeout refreshTimeout appendTime accessTimeout refreshTimeout payload).elim grants
      fun g => grants ++ [g]
  | .refresh accessTimeout refreshTimeout appendTime token =>
    (uuid token.refreshToken).elim grants fun id =>
      ((grants.find? fun g => g.refreshToken = id).bind
        (next m accessTimeout refreshTimeout appendTime)).elim grants
          fun g => stop m.now id grants ++ [g]

def run (uuid : List UInt8 → Option (List UInt8)) (done : List (TokenMoment × Operation))
    (grants : List Grant) : List Grant :=
  done.foldl (fun grants p => after uuid p.1 grants p.2) grants

end Grants

def run (env : Surroundings) (uuid : List UInt8 → Option (List UInt8))
    (done : List (TokenMoment × Operation)) (rows : TokenRows) : TokenRows :=
  done.foldl (fun rows p => after env uuid p.1 rows p.2) rows

variable {env : Surroundings} {uuid : List UInt8 → Option (List UInt8)} {m : TokenMoment}
  {grants : List Grant} {g : Grant} {id : List UInt8}

theorem payload_access : tokenPayload accessTimeout refreshTimeout payload khlJsonParamDeltaAccessTime =
    some (.ofInt accessTimeout) := by
  rw [tokenPayload, Maps.set_other (by decide), Maps.set_same]

theorem payload_refresh :
    tokenPayload accessTimeout refreshTimeout payload khlJsonParamDeltaRefreshTime =
      some (.ofInt refreshTimeout) := by
  rw [tokenPayload, Maps.set_same]

theorem renewed_access : renewed timeout khlJsonParamDeltaAccessTime appendTime g.row =
    interval (if timeout ≠ 0 then timeout else g.accessTimeout) appendTime := by
  by_cases hzero : timeout = 0
  · simp [renewed, hzero, Grant.row, payload_access, Json.ofInt]
  · simp [renewed, hzero]

theorem renewed_refresh : renewed timeout khlJsonParamDeltaRefreshTime appendTime g.row =
    interval (if timeout ≠ 0 then timeout else g.refreshTimeout) appendTime := by
  by_cases hzero : timeout = 0
  · simp [renewed, hzero, Grant.row, payload_refresh, Json.ofInt]
  · simp [renewed, hzero]

theorem endNow_rows :
    endNow now id (grants.map Grant.row) = (Grants.stop now id grants).map Grant.row := by
  simp only [endNow, Grants.stop, List.map_map]
  apply List.map_congr_left
  intro g hg
  by_cases hid : g.refreshToken = id <;> simp [hid, Grant.row]

theorem find_rows : ((grants.map Grant.row).find? fun r => r.refreshToken = id) =
    (grants.find? fun g => g.refreshToken = id).map Grant.row := by
  rw [List.find?_map]
  rfl

theorem createToken_rows : (createToken m accessTimeout refreshTimeout appendTime payload
      (grants.map Grant.row)).elim (grants.map Grant.row) (·.2) =
    (Grants.after uuid m grants (.create accessTimeout refreshTimeout appendTime payload)).map
      Grant.row := by
  cases haccess : interval accessTimeout appendTime with
  | none => simp [createToken, Grants.after, Grants.fresh, haccess]
  | some access =>
    cases hrefresh : interval refreshTimeout appendTime with
    | none => simp [createToken, Grants.after, Grants.fresh, haccess, hrefresh]
    | some refresh => simp [createToken, Grants.after, Grants.fresh, haccess, hrefresh, Grant.row]

theorem refreshToken_rows : (refreshToken env uuid m accessTimeout refreshTimeout appendTime token
      (grants.map Grant.row)).elim (grants.map Grant.row) (·.2) =
    (Grants.after uuid m grants (.refresh accessTimeout refreshTimeout appendTime token)).map
      Grant.row := by
  cases hid : uuid token.refreshToken with
  | none => simp [refreshToken, Grants.after, hid]
  | some id =>
    cases hfind : grants.find? fun g => g.refreshToken = id with
    | none =>
      simp only [refreshToken, Grants.after, hid, find_rows, hfind, Option.map_none,
        Option.bind_eq_bind, Option.bind_some, Option.bind_none, Option.elim_some, Option.elim_none]
    | some g =>
      simp only [refreshToken, Grants.after, Grants.next, Grants.fresh, hid, find_rows, hfind,
        Option.map_some, Option.bind_eq_bind, Option.bind_some, Option.elim_some, renewed_access,
        renewed_refresh]
      cases haccess : interval (if accessTimeout ≠ 0 then accessTimeout else g.accessTimeout)
          appendTime with
      | none => simp
      | some access =>
        cases hrefresh : interval (if refreshTimeout ≠ 0 then refreshTimeout else g.refreshTimeout)
            appendTime with
        | none => simp
        | some refresh => simp [endNow_rows, Grant.row]

theorem after_rows (op : Operation) :
    after env uuid m (grants.map Grant.row) op = (Grants.after uuid m grants op).map Grant.row := by
  cases op with
  | create accessTimeout refreshTimeout appendTime payload => exact createToken_rows
  | refresh accessTimeout refreshTimeout appendTime token => exact refreshToken_rows

/-- Over any run the table is that of the grants: every row has the payload of the
creation it comes from, with the timeouts that a refresh without its own renews it by,
and no refresh forgets them. -/
theorem rows_of_grants (done : List (TokenMoment × Operation)) (grants : List Grant) :
    run env uuid done (grants.map Grant.row) = (Grants.run uuid done grants).map Grant.row := by
  induction done generalizing grants with
  | nil => rfl
  | cons p done ih =>
    obtain ⟨m, op⟩ := p
    simp only [run, Grants.run, List.foldl_cons, after_rows] at ih ⊢
    exact ih _

end Khorost.TokenRows
