import Khorost.App.S2hSession
import Khorost.Proofs.Sessions

namespace Khorost.S2hSessions

open SessionController

/-- What a restart keeps of a session. -/
structure Same (session session' : Session S2hData) : Prop where
  id : session'.sessionId = session.sessionId
  expired : totalSeconds session'.expired = totalSeconds session.expired
  authenticate : session'.data.authenticate = session.data.authenticate
  idUser : session'.data.idUser = session.data.idUser
  nickname : session'.data.nickname = session.data.nickname
  roles : session'.data.roles = session.data.roles

/-- A process that starts at `t` finds the session. -/
def Restored (versions : SessionVersions) (t : Nat) (session : Session S2hData)
    (s : S2hSessions) : Prop :=
  ∃ s' session', reopen versions t s = some s' ∧
    s'.findSession session.sessionId = some session' ∧ Same session session'

/-- So it does with every session that is live at `t`. -/
def Restores (versions : SessionVersions) (t : Nat) (s : S2hSessions) : Prop :=
  ∀ id session, s.sessionMemory.lookup id = some session → fromTimeT t < session.expired →
    Restored versions t session s

/-- What the server does with its sessions. -/
inductive ServerOperation (δ : Type)
  | openDriver
  | restart
  | getSession (generated : List UInt8) (cookie : Option (List UInt8))
  | login (user : Option User) (session : Session δ)
  | logout (session : Session δ)
  | updateSession (session : Session δ)
  | removeSession (session : Session δ)
  | checkAliveSessions

def serve (versions : SessionVersions) (now : Nat) (s : S2hSessions) :
    ServerOperation S2hData → Option S2hSessions
  | .openDriver => setSessionDriver versions now s.sessionDb s
  | .restart => reopen versions now s
  | .getSession generated cookie => some (processingSession now generated cookie s).2
  | .login user session => some (actionLogin now user session s)
  | .logout session => some (actionLogout now session s)
  | .updateSession session => some (s.updateSession s2hSession now session)
  | .removeSession session => some (s.removeSession session)
  | .checkAliveSessions => some (s.checkAliveSessions now)

/-- A session that a request holds is the one in the memory, unless that has
lost it; a generated id is new. -/
def Proper (s : S2hSessions) : ServerOperation S2hData → Prop
  | .getSession generated _ => generated ∉ s.sessionMemory
  | .login _ session | .updateSession session =>
    ∀ held, s.sessionMemory.lookup session.sessionId = some held → held = session
  | _ => True

/-- A lookup leaves the expiry of a live session within its second, and creates
a session only if its expiry fits an `int`. -/
def Unmoved (now : Nat) (s : S2hSessions) : ServerOperation S2hData → Prop
  | .getSession _ cookie =>
    (∀ session, s.sessionMemory.lookup (cookie.getD []) = some session →
      fromTimeT now < session.expired →
      totalSeconds (fromTimeT now + s2hSession.getExpireShift session) =
        totalSeconds session.expired) ∧
    ((∀ session, s.sessionMemory.lookup (cookie.getD []) = some session →
      session.expired ≤ fromTimeT now) →
      totalSeconds (fromTimeT now + minutes Session.defaultExpireMinutes) < 2 ^ 31)
  | _ => True

/-- The row has been written by `update_session`. -/
structure Exported (row : Row SessionObject) : Prop where
  lower : -2 ^ 31 ≤ row.dtExpire
  upper : row.dtExpire < 2 ^ 31
  data : ∃ data : S2hData, row.data = data.exportData

/-- The runs of operations with a property, by the time of the last one. -/
inductive Run (versions : SessionVersions) (P : Nat → S2hSessions → ServerOperation S2hData → Prop) :
    Nat → S2hSessions → Prop
  | start {now : Nat} (driver : SessionDb SessionObject)
    (hrows : ∀ id row, driver.lookup id = some row → Exported row)
    (h : setSessionDriver versions now driver .new = some s) : Run versions P now s
  | step (op : ServerOperation S2hData) (hr : Run versions P clock s) (hle : clock ≤ now)
    (hproper : Proper s op) (hp : P now s op) (h : serve versions now s op = some s') :
    Run versions P now s'

/-- The invariant of all runs: the rows can be loaded, and the row of a session
in the memory has its data. -/
structure Stored (versions : SessionVersions) (s : S2hSessions) : Prop where
  keyed : Keyed s.sessionMemory
  current : s.versionCurrent = versions.current
  rows : ∀ id row, s.sessionDb.lookup id = some row → Exported row
  version : ∀ id row, s.sessionDb.lookup id = some row → versions.min ≤ row.version
  data : ∀ id session row, s.sessionMemory.lookup id = some session →
    s.sessionDb.lookup id = some row → row.data = session.data.exportData

/-- The row of the id expires in the second in which the session does. -/
def Written (db : SessionDb SessionObject) (id : List UInt8) (session : Session S2hData) : Prop :=
  ∃ row, db.lookup id = some row ∧ row.dtExpire = totalSeconds session.expired

/-- The invariant of the runs that move no expiry. -/
def Synced (clock : Nat) (s : S2hSessions) : Prop :=
  ∀ id session, s.sessionMemory.lookup id = some session → fromTimeT clock < session.expired →
    Written s.sessionDb id session

/-- Memory and table have lost the keys. -/
structure Erased (keys : List (List UInt8)) (s s' : S2hSessions) : Prop where
  memory : ∀ {id session}, s'.sessionMemory.lookup id = some session ↔
    id ∉ keys ∧ s.sessionMemory.lookup id = some session
  db : ∀ {id row}, s'.sessionDb.lookup id = some row ↔ id ∉ keys ∧ s.sessionDb.lookup id = some row
  version : s'.versionCurrent = s.versionCurrent

/-- A session has been written to the table, and the memory has nothing else
under its id. -/
structure Saved (now : Nat) (session : Session S2hData) (s s' : S2hSessions) : Prop where
  others : ∀ id, id ≠ session.sessionId → s'.sessionMemory.lookup id = s.sessionMemory.lookup id
  own : ∀ held, s'.sessionMemory.lookup session.sessionId = some held → held = session
  db : s'.sessionDb = SessionDb.updateSession s2hSession now session s.versionCurrent s.sessionDb
  version : s'.versionCurrent = s.versionCurrent

def fresh (now : Nat) (generated : List UInt8) : Session S2hData :=
  s2hCreator generated (fromTimeT now) (fromTimeT now + minutes Session.defaultExpireMinutes)

/-- Everything that an operation can do. -/
inductive Effect (versions : SessionVersions) (now : Nat) (s : S2hSessions) :
    ServerOperation S2hData → S2hSessions → Prop
  | opened (h : setSessionDriver versions now s.sessionDb s = some s') :
    Effect versions now s .openDriver s'
  | reopened (h : reopen versions now s = some s') : Effect versions now s .restart s'
  | shifted (hfound : s.sessionMemory.lookup (cookie.getD []) = some session)
    (hlive : fromTimeT now < session.expired) :
    Effect versions now s (.getSession generated cookie)
      { s with
        sessionMemory := s.sessionMemory.insert (cookie.getD [])
          (session.setExpired (fromTimeT now + s2hSession.getExpireShift session)) }
  | created (generated : List UInt8)
    (hdead : ∀ session, s.sessionMemory.lookup (cookie.getD []) = some session →
      session.expired ≤ fromTimeT now) (herased : Erased keys s s₁)
    (hsaved : Saved now (fresh now generated) s₁ s')
    (hthere : s'.sessionMemory.lookup generated = some (fresh now generated)) :
    Effect versions now s (.getSession generated cookie) s'
  | erased (keys : List (List UInt8))
    (hop : ∀ generated cookie, op ≠ .getSession generated cookie) (h : Erased keys s s') :
    Effect versions now s op s'
  | saved (hop : ∀ generated cookie, op ≠ .getSession generated cookie)
    (h : Saved now session s s')
    (hheld : s'.sessionMemory.lookup session.sessionId = some session →
      ∃ held, s.sessionMemory.lookup session.sessionId = some held ∧
        held.expired = session.expired) :
    Effect versions now s op s'

variable {versions : SessionVersions} {s s' : S2hSessions} {clock now t : Nat}
  {session : Session S2hData} {id generated : List UInt8} {row : Row SessionObject}
  {driver : SessionDb SessionObject}

theorem seconds_from (n : Int) : totalSeconds (fromTimeT n) = n :=
  Int.mul_tdiv_cancel n (by decide)

/-- What has not expired at `t` expires in the second `t` or later. -/
theorem second_le (h : fromTimeT t ≤ e) : (t : Int) ≤ totalSeconds e := by
  unfold fromTimeT at h
  have hpos : 0 ≤ e := by omega
  rw [totalSeconds, Int.tdiv_eq_ediv_of_nonneg hpos]
  omega

theorem cast_lower (n : Int) : -2 ^ 31 ≤ castInt n := by
  unfold castInt
  rw [Int.bmod_def]
  split <;> omega

theorem cast_upper (n : Int) : castInt n < 2 ^ 31 := by
  unfold castInt
  rw [Int.bmod_def]
  split <;> omega

theorem cast_le (n : Nat) : castInt n ≤ n := by
  unfold castInt
  rw [Int.bmod_def]
  split <;> omega

theorem cast_same (hlower : 0 ≤ n) (hupper : n < 2 ^ 31) : castInt n = n := by
  unfold castInt
  rw [Int.bmod_def]
  split <;> omega

def ofRow (id : List UInt8) (row : Row SessionObject) (data : S2hData) : Session S2hData :=
  ⟨id, fromTimeT row.dtCreate, fromTimeT row.dtExpire, data⟩

theorem import_row (h : row.data = data.exportData) (id : List UInt8) :
    s2hSession.importData row.data (s2hCreator id (fromTimeT row.dtCreate)
      (fromTimeT row.dtExpire)) = some (ofRow id row data) := by
  change (S2hData.importData row.data).map _ = _
  rw [h, S2hData.import_export]
  rfl

/-- The rows that the `DELETE` of an open leaves. -/
def remaining (versions : SessionVersions) (now : Nat) (driver : SessionDb SessionObject) :
    SessionDb SessionObject :=
  Table.keep (fun _ => SessionDb.survives now versions.min) driver

theorem remaining_some (h : (remaining versions now driver).lookup id = some row) :
    driver.lookup id = some row ∧ castInt now ≤ row.dtExpire ∧ versions.min ≤ row.version := by
  obtain ⟨hrow, hsurvives⟩ := (Table.lookup_keep _).mp h
  refine ⟨hrow, ?_⟩
  simpa [SessionDb.survives] using hsurvives

theorem remaining_there (hrow : driver.lookup id = some row) (hexpire : castInt now ≤ row.dtExpire)
    (hversion : versions.min ≤ row.version) :
    (remaining versions now driver).lookup id = some row := by
  refine (Table.lookup_keep _).mpr ⟨hrow, ?_⟩
  simpa [SessionDb.survives] using ⟨hexpire, hversion⟩

/-- The state after an open: a session that is in the memory already stays, the
others are those of the rows. -/
structure Opened (versions : SessionVersions) (now : Nat) (driver : SessionDb SessionObject)
    (s s' : S2hSessions) : Prop where
  keyed : Keyed s.sessionMemory → Keyed s'.sessionMemory
  current : s'.versionCurrent = versions.current
  db : s'.sessionDb = remaining versions now driver
  held : ∀ id session, s.sessionMemory.lookup id = some session →
    s'.sessionMemory.lookup id = some session
  loaded : ∀ id row data, s.sessionMemory.lookup id = none →
    s'.sessionDb.lookup id = some row → row.data = S2hData.exportData data →
    s'.sessionMemory.lookup id = some (ofRow id row data)
  nothing : ∀ id, s.sessionMemory.lookup id = none → s'.sessionDb.lookup id = none →
    s'.sessionMemory.lookup id = none

theorem opened (h : setSessionDriver versions now driver s = some s') :
    Opened versions now driver s s' := by
  obtain ⟨memory, hload, h⟩ := Option.bind_eq_some_iff.mp h
  cases h
  have hlookup := fun id => load_lookup (fun _ _ _ => rfl) id hload
  refine ⟨fun hk => load_keyed (fun _ _ _ => rfl) hk hload, rfl, rfl, fun id session hm => ?_,
    fun id row data hm hrow hdata => ?_, fun id hm hrow => ?_⟩
  · dsimp only
    rw [hlookup, hm, Option.some_or]
  · dsimp only
    rw [hlookup, hm, Option.none_or]
    change AList.lookup id (remaining versions now driver) = some row at hrow
    change (AList.lookup id (remaining versions now driver)).bind _ = _
    rw [hrow, Option.bind_some, import_row hdata]
  · dsimp only
    rw [hlookup, hm, Option.none_or]
    change AList.lookup id (remaining versions now driver) = none at hrow
    change (AList.lookup id (remaining versions now driver)).bind _ = _
    rw [hrow, Option.bind_none]

theorem open_ends (versions : SessionVersions) (now : Nat) (s : S2hSessions)
    (hrows : ∀ id row, driver.lookup id = some row → Exported row) :
    ∃ s', setSessionDriver versions now driver s = some s' := by
  have himport : ∀ entry ∈ (remaining versions now driver).entries, ∀ session, ∃ session',
      s2hSession.importData entry.2.data session = some session' := by
    intro entry he session
    obtain ⟨hrow, -⟩ := remaining_some (AList.mem_lookup_iff.mpr he)
    obtain ⟨data, hdata⟩ := (hrows _ _ hrow).data
    refine ⟨{ session with data := data }, ?_⟩
    change (S2hData.importData entry.2.data).map _ = _
    rw [hdata, S2hData.import_export]
    rfl
  obtain ⟨memory, hload⟩ := load_ends s2hCreator _ s.sessionMemory himport
  exact ⟨_, Option.bind_eq_some_iff.mpr ⟨memory, hload, rfl⟩⟩

theorem Stored.opened (hrows : ∀ id row, driver.lookup id = some row → Exported row)
    (hkeyed : Keyed s.sessionMemory)
    (hdata : ∀ id session row, s.sessionMemory.lookup id = some session →
      driver.lookup id = some row → row.data = session.data.exportData)
    (h : setSessionDriver versions now driver s = some s') : Stored versions s' := by
  have ho := S2hSessions.opened h
  have hrow : ∀ id row, s'.sessionDb.lookup id = some row →
      driver.lookup id = some row ∧ castInt now ≤ row.dtExpire ∧ versions.min ≤ row.version := by
    rw [ho.db]
    exact fun _ _ => remaining_some
  refine ⟨ho.keyed hkeyed, ho.current, fun id row h => hrows id row (hrow id row h).1,
    fun id row h => (hrow id row h).2.2, fun id session row hm h => ?_⟩
  cases hheld : s.sessionMemory.lookup id with
  | some held =>
    rw [ho.held id held hheld] at hm
    cases hm
    exact hdata id session row hheld (hrow id row h).1
  | none =>
    obtain ⟨data, hexport⟩ := (hrows id row (hrow id row h).1).data
    rw [ho.loaded id row data hheld h hexport] at hm
    cases hm
    exact hexport

theorem Stored.erased (hs : Stored versions s) (h : Erased keys s s') : Stored versions s' where
  keyed key session hm := hs.keyed key session (h.memory.mp hm).2
  current := h.version.trans hs.current
  rows id row hrow := hs.rows id row (h.db.mp hrow).2
  version id row hrow := hs.version id row (h.db.mp hrow).2
  data id session row hm hrow := hs.data id session row (h.memory.mp hm).2 (h.db.mp hrow).2

/-- The row of a session that has been saved, and the other rows. -/
theorem Saved.row_cases (h : Saved now session s s') (hrow : s'.sessionDb.lookup id = some row) :
    (id = session.sessionId ∧ row.version = s.versionCurrent ∧
      row.dtExpire = castInt (totalSeconds session.expired) ∧
      row.data = session.data.exportData) ∨
    (id ≠ session.sessionId ∧ s.sessionDb.lookup id = some row) := by
  rw [h.db, SessionDb.updateSession, Table.lookup_insert] at hrow
  split at hrow
  · next hid =>
    cases hrow
    exact .inl ⟨hid, rfl, rfl, rfl⟩
  · next hid => exact .inr ⟨hid, hrow⟩

theorem Stored.saved (hs : Stored versions s) (h : Saved now session s s') :
    Stored versions s' := by
  refine ⟨fun key held hm => ?_, h.version.trans hs.current, fun id row hrow => ?_,
    fun id row hrow => ?_, fun id held row hm hrow => ?_⟩
  · by_cases hid : key = session.sessionId
    · subst hid
      rw [h.own held hm]
    · exact hs.keyed key held (h.others key hid ▸ hm)
  · rcases h.row_cases hrow with ⟨-, -, hexpire, hdata⟩ | ⟨-, hrow⟩
    · exact ⟨hexpire ▸ cast_lower _, hexpire ▸ cast_upper _, session.data, hdata⟩
    · exact hs.rows id row hrow
  · rcases h.row_cases hrow with ⟨-, hcurrent, -⟩ | ⟨-, hrow⟩
    · rw [hcurrent, hs.current]
      exact versions.sound
    · exact hs.version id row hrow
  · rcases h.row_cases hrow with ⟨rfl, -, -, hdata⟩ | ⟨hid, hrow⟩
    · rw [h.own held hm]
      exact hdata
    · exact hs.data id held row (h.others id hid ▸ hm) hrow

theorem Stored.shifted (hs : Stored versions s) (hfound : s.sessionMemory.lookup id = some session)
    (value : Int) : Stored versions
      { s with sessionMemory := s.sessionMemory.insert id (session.setExpired value) } := by
  refine ⟨fun key held hm => ?_, hs.current, hs.rows, hs.version, fun key held row hm hrow => ?_⟩
  · rw [Table.lookup_insert] at hm
    split at hm
    · next hid =>
      cases hm
      rw [hid]
      exact hs.keyed id session hfound
    · exact hs.keyed key held hm
  · rw [Table.lookup_insert] at hm
    split at hm
    · next hid =>
      cases hm
      exact hs.data id session row hfound (hid ▸ hrow)
    · exact hs.data key held row hm hrow

theorem new_empty :
    AList.lookup id (SessionController.new : S2hSessions).sessionMemory ≠ some session := nofun

theorem shutdown_erased (now : Nat) (hk : Keyed s.sessionMemory) :
    Erased (expiredKeys now s.sessionMemory.entries) s (s.checkAliveSessions now) := by
  rw [check_alive_sessions hk]
  exact ⟨Table.lookup_erase_all_some _, Table.lookup_erase_all_some _, rfl⟩

theorem Stored.reopened (hs : Stored versions s) (h : reopen versions now s = some s') :
    Stored versions s' := by
  have herased := hs.erased (shutdown_erased now hs.keyed)
  exact .opened herased.rows (fun _ _ hm => absurd hm new_empty)
    (fun _ _ _ hm => absurd hm new_empty) h

theorem Erased.none (s : S2hSessions) : Erased [] s s := ⟨by simp, by simp, rfl⟩

theorem forgotten (id : List UInt8) (s : S2hSessions) : Erased [id] s (s.forget id) :=
  ⟨Table.lookup_erase_some, Table.lookup_erase_some, rfl⟩

theorem created_there (hnew : generated ∉ s.sessionMemory) :
    (createSession s2hSession (some s2hCreator) now generated s).2.sessionMemory.lookup generated =
      some (fresh now generated) := by
  change (Table.insertNew generated (fresh now generated) s.sessionMemory).lookup generated = _
  rw [Table.lookup_insert_new, if_pos rfl, AList.lookup_eq_none.mpr hnew, Option.getD_none]

theorem created_saved (hnew : generated ∉ s.sessionMemory) : Saved now (fresh now generated) s
    (createSession s2hSession (some s2hCreator) now generated s).2 where
  others _ hid := (Table.lookup_insert_new ..).trans (if_neg hid)
  own _ hheld := Option.some.inj (hheld.symm.trans (created_there hnew))
  db := rfl
  version := rfl

theorem updated_saved (hcurrent : ∀ held, s.sessionMemory.lookup session.sessionId = some held →
    held = session) : Saved now session s (s.updateSession s2hSession now session) :=
  ⟨fun _ _ => rfl, hcurrent, rfl, rfl⟩

theorem assigned_saved (session : Session S2hData) (s : S2hSessions) :
    Saved now session s ((s.assign session).updateSession s2hSession now session) where
  others id hid := (Table.lookup_assign ..).trans (if_neg hid)
  own held hheld := by
    change (Table.assign session.sessionId session s.sessionMemory).lookup session.sessionId =
      some held at hheld
    rw [Table.lookup_assign, if_pos rfl] at hheld
    obtain ⟨_, -, rfl⟩ := Option.map_eq_some_iff.mp hheld
    rfl
  db := rfl
  version := rfl

theorem effect_of_serve (hk : Keyed s.sessionMemory) (hproper : Proper s op)
    (h : serve versions now s op = some s') : Effect versions now s op s' := by
  cases op with
  | openDriver => exact .opened h
  | restart => exact .reopened h
  | getSession generated cookie =>
    cases h
    have ho := get_outcome s2hSession hk (some s2hCreator) now generated (cookie.getD [])
    unfold processingSession
    generalize SessionController.getSession s2hSession (some s2hCreator) now generated
      (cookie.getD []) s = result at ho ⊢
    cases ho with
    | live hfound hlive hshifted =>
      subst hshifted
      exact .shifted hfound hlive
    | @expired session hfound hexpired =>
      have hnew : generated ∉ (s.forget (cookie.getD [])).sessionMemory :=
        fun hmem => hproper (forget_mem.mp hmem).2
      refine .created generated (fun held hheld => ?_) (forgotten _ s) (created_saved hnew)
        (created_there hnew)
      cases hfound.symm.trans hheld
      exact hexpired
    | absent hnone =>
      refine .created generated (fun held hheld => ?_) (.none s) (created_saved hproper)
        (created_there hproper)
      rw [hnone] at hheld
      cases hheld
  | login user session =>
    cases h
    cases user with
    | none => exact .erased _ nofun (.none s)
    | some user =>
      refine .saved nofun (assigned_saved _ s) fun hheld => ?_
      change (Table.assign session.sessionId _ s.sessionMemory).lookup session.sessionId = _ at hheld
      rw [Table.lookup_assign, if_pos rfl] at hheld
      obtain ⟨held, hheld, -⟩ := Option.map_eq_some_iff.mp hheld
      refine ⟨held, hheld, ?_⟩
      rw [hproper held hheld]
  | logout session =>
    cases h
    refine .erased [session.sessionId] nofun ⟨?_, Table.lookup_erase_some, rfl⟩
    intro id held
    change AList.lookup id (AList.erase session.sessionId
      (Table.assign session.sessionId _ s.sessionMemory)) = _ ↔ _
    rw [Table.lookup_erase_some, Table.lookup_assign]
    refine and_congr_right fun hid => ?_
    rw [if_neg (List.mem_singleton.not.mp hid)]
  | updateSession session =>
    cases h
    exact .saved nofun (updated_saved hproper) fun hheld => ⟨session, hheld, rfl⟩
  | removeSession session =>
    cases h
    exact .erased _ nofun (forgotten session.sessionId s)
  | checkAliveSessions =>
    cases h
    exact .erased _ nofun (shutdown_erased now hk)

theorem Stored.effect (hs : Stored versions s) (he : Effect versions now s op s') :
    Stored versions s' := by
  cases he with
  | opened h => exact .opened hs.rows hs.keyed hs.data h
  | reopened h => exact hs.reopened h
  | shifted hfound _ => exact hs.shifted hfound _
  | created _ _ herased hsaved _ => exact (hs.erased herased).saved hsaved
  | erased _ _ h => exact hs.erased h
  | saved _ h _ => exact hs.saved h

theorem Run.stored (hr : Run versions P clock s) : Stored versions s := by
  induction hr with
  | start driver hrows h =>
    exact .opened hrows (fun _ _ hm => absurd hm new_empty) (fun _ _ _ hm => absurd hm new_empty) h
  | step _ _ _ hproper _ h ih => exact ih.effect (effect_of_serve ih.keyed hproper h)

theorem Synced.later (h : Synced clock s) (hle : clock ≤ now) : Synced now s := by
  intro id session hm hlive
  refine h id session hm (Int.lt_of_le_of_lt ?_ hlive)
  unfold fromTimeT
  omega

theorem Synced.opened
    (hsync : ∀ id session, s.sessionMemory.lookup id = some session →
      fromTimeT now < session.expired → Written driver id session)
    (hrows : ∀ id row, driver.lookup id = some row → Exported row)
    (hversion : ∀ id session row, s.sessionMemory.lookup id = some session →
      driver.lookup id = some row → versions.min ≤ row.version)
    (h : setSessionDriver versions now driver s = some s') : Synced now s' := by
  have ho := S2hSessions.opened h
  intro id session hm hlive
  cases hheld : s.sessionMemory.lookup id with
  | some held =>
    rw [ho.held id held hheld] at hm
    cases hm
    obtain ⟨row, hrow, hexpire⟩ := hsync id session hheld hlive
    have hsecond := second_le (Int.le_of_lt hlive)
    refine ⟨row, ?_, hexpire⟩
    rw [ho.db]
    exact remaining_there hrow (hexpire ▸ Int.le_trans (cast_le now) hsecond)
      (hversion id session row hheld hrow)
  | none =>
    cases hrow : s'.sessionDb.lookup id with
    | none =>
      rw [ho.nothing id hheld hrow] at hm
      cases hm
    | some row =>
      obtain ⟨data, hdata⟩ := (hrows id row (remaining_some (ho.db ▸ hrow)).1).data
      rw [ho.loaded id row data hheld hrow hdata] at hm
      cases hm
      exact ⟨row, hrow, (seconds_from _).symm⟩

theorem Synced.erased (hsync : Synced now s) (h : Erased keys s s') : Synced now s' := by
  intro id session hm hlive
  obtain ⟨hkey, hm⟩ := h.memory.mp hm
  obtain ⟨row, hrow, hexpire⟩ := hsync id session hm hlive
  exact ⟨row, h.db.mpr ⟨hkey, hrow⟩, hexpire⟩

theorem Synced.saved (hsync : Synced now s) (h : Saved now session s s')
    (hfits : s'.sessionMemory.lookup session.sessionId = some session →
      fromTimeT now < session.expired → totalSeconds session.expired < 2 ^ 31) :
    Synced now s' := by
  intro id held hm hlive
  unfold Written
  rw [h.db, SessionDb.updateSession]
  by_cases hid : id = session.sessionId
  · subst hid
    cases h.own held hm
    refine ⟨_, AList.lookup_insert _, cast_same ?_ (hfits hm hlive)⟩
    have hsecond := second_le (Int.le_of_lt hlive)
    omega
  · rw [AList.lookup_insert_ne hid]
    exact hsync id held (h.others id hid ▸ hm) hlive

theorem Synced.shifted (hsync : Synced now s)
    (hfound : s.sessionMemory.lookup id = some session) (hlive : fromTimeT now < session.expired)
    (hsecond : totalSeconds value = totalSeconds session.expired) : Synced now
      { s with sessionMemory := s.sessionMemory.insert id (session.setExpired value) } := by
  intro key held hm hheld
  rw [Table.lookup_insert] at hm
  split at hm
  · next hid =>
    cases hm
    obtain ⟨row, hrow, hexpire⟩ := hsync id session hfound hlive
    exact ⟨row, hid ▸ hrow, hexpire.trans hsecond.symm⟩
  · exact hsync key held hm hheld

theorem Synced.effect (hsync : Synced now s) (hs : Stored versions s)
    (hunmoved : Unmoved now s op) (he : Effect versions now s op s') : Synced now s' := by
  cases he with
  | opened h =>
    exact .opened hsync hs.rows (fun id _ row _ hrow => hs.version id row hrow) h
  | reopened h =>
    have herased := hs.erased (shutdown_erased now hs.keyed)
    exact .opened (fun _ _ hm => absurd hm new_empty) herased.rows (fun _ _ _ hm => absurd hm new_empty) h
  | shifted hfound hlive => exact hsync.shifted hfound hlive (hunmoved.1 _ hfound hlive)
  | created _ hdead herased hsaved _ =>
    exact (hsync.erased herased).saved hsaved fun _ _ => hunmoved.2 hdead
  | erased _ _ h => exact hsync.erased h
  | saved _ h hheld =>
    refine hsync.saved h fun hm hlive => ?_
    obtain ⟨held, hm, hexpired⟩ := hheld hm
    obtain ⟨row, hrow, hexpire⟩ := hsync _ held hm (hexpired ▸ hlive)
    rw [← hexpired, ← hexpire]
    exact (hs.rows _ row hrow).upper

theorem Run.synced (hr : Run versions Unmoved clock s) : Synced clock s := by
  induction hr with
  | start driver hrows h =>
    exact .opened (fun _ _ hm => absurd hm new_empty) hrows (fun _ _ _ hm => absurd hm new_empty) h
  | step op hr hle hproper hunmoved h ih =>
    exact (ih.later hle).effect hr.stored hunmoved (effect_of_serve hr.stored.keyed hproper h)

/-- A live session is restored exactly if its row has its expiry. -/
theorem restored_iff (hs : Stored versions s) (hm : s.sessionMemory.lookup id = some session)
    (hlive : fromTimeT t < session.expired) :
    Restored versions t session s ↔ Written s.sessionDb id session := by
  have hid := hs.keyed id session hm
  have herased := shutdown_erased t hs.keyed
  have hkey : id ∉ expiredKeys t s.sessionMemory.entries := by
    intro hmem
    obtain ⟨held, hheld, hexpired⟩ := mem_expired_keys.mp hmem
    cases hm.symm.trans hheld
    omega
  have hrows := (hs.erased herased).rows
  constructor
  · rintro ⟨s', session', hopen, hfind, hsame⟩
    have ho := S2hSessions.opened hopen
    rw [findSession, hid] at hfind
    cases hrow : s'.sessionDb.lookup id with
    | none =>
      rw [ho.nothing id rfl hrow] at hfind
      cases hfind
    | some row =>
      have hthere := (remaining_some (ho.db ▸ hrow)).1
      obtain ⟨data, hdata⟩ := (hrows id row hthere).data
      rw [ho.loaded id row data rfl hrow hdata] at hfind
      cases hfind
      exact ⟨row, (herased.db.mp hthere).2, (seconds_from _).symm.trans hsame.expired⟩
  · rintro ⟨row, hrow, hexpire⟩
    obtain ⟨s', hopen⟩ := open_ends versions t .new hrows
    have ho := S2hSessions.opened hopen
    have hsecond := second_le (Int.le_of_lt hlive)
    have hthere : s'.sessionDb.lookup id = some row := by
      rw [ho.db]
      exact remaining_there (herased.db.mpr ⟨hkey, hrow⟩) (hexpire ▸ Int.le_trans (cast_le t) hsecond)
        (hs.version id row hrow)
    have hdata := hs.data id session row hm hrow
    refine ⟨s', ofRow id row session.data, hopen, ?_, hid.symm, ?_, rfl, rfl, rfl, rfl⟩
    · rw [findSession, hid]
      exact ho.loaded id row session.data rfl hthere hdata
    · exact (seconds_from _).trans hexpire

theorem shift_positive (session : Session S2hData) : 0 < s2hSession.getExpireShift session := by
  change 0 < if session.data.authenticate then _ else _
  split <;> decide

/-- A lookup that moves an expiry, or creates one that does not fit, leaves a
session that is not restored. -/
theorem restores_unmoved (hs : Stored versions s) (hsync : Synced now s)
    (he : Effect versions now s op s') (h : Restores versions now s') : Unmoved now s op := by
  have hs' := hs.effect he
  have hafter : ∀ {n : Int}, 0 < n → fromTimeT now < fromTimeT now + n :=
    fun hn => Int.lt_add_of_pos_right _ hn
  cases he with
  | opened | reopened => trivial
  | @shifted session generated cookie hfound hlive =>
    refine ⟨fun held hheld _ => ?_, fun hdead => ?_⟩
    · cases hfound.symm.trans hheld
      have hthere := AList.lookup_insert (b := session.setExpired
        (fromTimeT now + s2hSession.getExpireShift session)) (a := cookie.getD []) s.sessionMemory
      have hshifted := hafter (shift_positive session)
      obtain ⟨row, hrow, hexpire⟩ := (restored_iff hs' hthere hshifted).mp
        (h _ _ hthere hshifted)
      obtain ⟨row', hrow', hexpire'⟩ := hsync _ session hfound hlive
      cases hrow.symm.trans hrow'
      exact hexpire.symm.trans hexpire'
    · exact absurd hlive (Int.not_lt.mpr (hdead session hfound))
  | created generated hdead herased hsaved hthere =>
    refine ⟨fun held hheld hlive => absurd hlive (Int.not_lt.mpr (hdead held hheld)), fun _ => ?_⟩
    have hlive : fromTimeT now < (fresh now generated).expired := hafter (by decide)
    obtain ⟨row, hrow, hexpire⟩ := (restored_iff hs' hthere hlive).mp (h _ _ hthere hlive)
    rcases hsaved.row_cases hrow with ⟨-, -, hcast, -⟩ | ⟨hne, -⟩
    · have hupper := cast_upper (totalSeconds (fresh now generated).expired)
      rw [← hcast, hexpire] at hupper
      exact hupper
    · exact absurd rfl hne
  | erased _ hop | saved hop =>
    cases op with
    | getSession generated cookie => exact absurd rfl (hop generated cookie)
    | _ => trivial

theorem Run.restores (hr : Run versions Unmoved clock s) :
    ∀ t, clock ≤ t → Restores versions t s := by
  intro t hle id session hm hlive
  apply (restored_iff hr.stored hm hlive).mpr
  exact hr.synced.later hle id session hm hlive

/-- As long as no lookup moves the expiry of a live session, every session that
is live is restored at any time, and the first lookup that does so ends this. -/
theorem restored_while_unmoved (hr : Run versions Unmoved clock s) :
    (∀ t, clock ≤ t → Restores versions t s) ∧
      ∀ now op s', clock ≤ now → Proper s op → serve versions now s op = some s' →
        ((∀ t, now ≤ t → Restores versions t s') ↔ Unmoved now s op) := by
  constructor
  · exact hr.restores
  · intro now op s' hle hproper h
    have he := effect_of_serve hr.stored.keyed hproper h
    constructor
    · intro hall
      apply restores_unmoved hr.stored (hr.synced.later hle) he
      exact hall now (Nat.le_refl now)
    · intro hunmoved
      have hr' : Run versions Unmoved now s' := .step op hr hle hproper hunmoved h
      exact hr'.restores

def noSessions : S2hSessions := ⟨∅, ∅, 4, 4⟩

/-- One with the session `a`, which has been created at 0. -/
def sessionCreated : S2hSessions := (processingSession 0 (ascii "a") none noSessions).2

def sessionExtended : S2hSessions :=
  (processingSession 1000 (ascii "b") (some (ascii "a")) sessionCreated).2

theorem no_sessions_run (P : Nat → S2hSessions → ServerOperation S2hData → Prop) :
    Run sessionVersions P 0 noSessions :=
  .start ∅ (fun _ _ h => absurd h nofun) rfl

theorem session_created_unmoved : Unmoved 0 noSessions (.getSession (ascii "a") none) :=
  ⟨fun _ h => absurd h nofun, fun _ => by decide +kernel⟩

theorem session_created_restored : Restores sessionVersions 1000 sessionCreated :=
  (restored_while_unmoved (.step (.getSession (ascii "a") none)
    (no_sessions_run Unmoved) (Nat.le_refl 0) (AList.notMem_empty (ascii "a"))
    session_created_unmoved rfl)).1 1000 (Nat.zero_le 1000)

/-- The row of the session still says that it expires at 1800. -/
theorem extended_session_lost : ¬ ∀ (versions : SessionVersions) (clock t : Nat)
    (s : S2hSessions), Run versions (fun _ _ _ => True) clock s → clock ≤ t →
    Restores versions t s := by
  intro h
  have hrun : Run sessionVersions (fun _ _ _ => True) 1000 sessionExtended :=
    .step (.getSession (ascii "b") (some (ascii "a")))
      (.step (.getSession (ascii "a") none) (no_sessions_run _) (Nat.le_refl 0)
        (AList.notMem_empty (ascii "a")) trivial rfl)
      (Nat.zero_le 1000) (by decide +kernel : ascii "b" ∉ sessionCreated.sessionMemory) trivial rfl
  have hlive : (sessionExtended.sessionMemory.lookup (ascii "a")).any
      (fun session => session.sessionId = ascii "a" ∧ fromTimeT (2000 : Nat) < session.expired) = true := by
    decide +kernel
  have hlost : ((reopen sessionVersions (2000 : Nat) sessionExtended).bind
      (findSession (ascii "a"))).isSome = false := by decide +kernel
  obtain ⟨session, hm, hsession⟩ := (Option.any_eq_true _ _).mp hlive
  obtain ⟨hid, hlive⟩ := of_decide_eq_true hsession
  obtain ⟨s', session', hopen, hfind, -⟩ := h _ _ 2000 _ hrun (by decide) _ session hm hlive
  rw [hopen, Option.bind_some, ← hid, hfind] at hlost
  cases hlost

end Khorost.S2hSessions
