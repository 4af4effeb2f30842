import Khorost.Lib.Table
import Khorost.Util.CString

namespace Khorost

/-- `network::session`, with the members `data` of the class derived from it. A
time is the number of microseconds since the epoch. -/
structure Session (δ : Type) where
  sessionId : List UInt8
  created : Int
  expired : Int
  data : δ

/-- The virtual members of a session class; `none` is an exception. The id is
private and has no setter, so an import cannot change it. -/
structure SessionClass (δ ρ : Type) where
  getExpireShift : Session δ → Int
  exportData : Session δ → ρ
  importData : ρ → Session δ → Option (Session δ)
  import_id : importData text session = some session' → session'.sessionId = session.sessionId

/-- What makes a session of an id, the time of its creation and its expiry. -/
abbrev Creator (δ : Type) := List UInt8 → Int → Int → Session δ

/-- `from_time_t`. The second clock at `now` shows `fromTimeT now`. -/
def fromTimeT (seconds : Int) : Int := seconds * 1000000

def minutes (n : Int) : Int := fromTimeT (n * 60)

def totalSeconds (t : Int) : Int := t.tdiv 1000000

/-- `static_cast<int>`. -/
def castInt (n : Int) : Int := n.bmod (2 ^ 32)

def Session.defaultExpireMinutes : Int := 30

def Session.setExpired (session : Session δ) (value : Int) : Session δ :=
  { session with expired := value }

/-- The virtual members of `session` itself. -/
def Session.base : SessionClass Unit Unit where
  getExpireShift _ := minutes Session.defaultExpireMinutes
  exportData _ := ()
  importData _ session := some session
  import_id h := by
    cases h
    rfl

/-- A row of the table `sessions`, without its `SID`. -/
structure Row (ρ : Type) where
  version : Int
  dtCreate : Int
  dtUpdate : Int
  dtExpire : Int
  data : ρ

/-- The table `sessions` under its primary key. -/
abbrev SessionDb (ρ : Type) := Table (List UInt8) (Row ρ)

abbrev SessionMemory (δ : Type) := Table (List UInt8) (Session δ)

structure SessionController (δ ρ : Type) where
  sessionMemory : SessionMemory δ
  sessionDb : SessionDb ρ
  versionMin : Int
  versionCurrent : Int

namespace SessionDb

/-- `INSERT OR REPLACE`. -/
def updateSession (cls : SessionClass δ ρ) (now : Int) (session : Session δ) (version : Int)
    (db : SessionDb ρ) : SessionDb ρ :=
  db.insert session.sessionId
    { version := version
      dtCreate := castInt (totalSeconds session.created)
      dtUpdate := castInt now
      dtExpire := castInt (totalSeconds session.expired)
      data := cls.exportData session }

def removeSession (session : Session δ) (db : SessionDb ρ) : SessionDb ρ :=
  db.erase session.sessionId

/-- The rows that the `DELETE` of `load_sessions` leaves. -/
def survives (now versionMin : Int) (row : Row ρ) : Bool :=
  !(row.dtExpire < castInt now || row.version < versionMin)

/-- The loop over the rows of the `SELECT`. -/
def loadRows (cls : SessionClass δ ρ) (creator : Option (Creator δ)) :
    List ((_ : List UInt8) × Row ρ) → SessionMemory δ → Option (SessionMemory δ)
  | [], memory => some memory
  | ⟨sid, row⟩ :: rows, memory =>
    match creator with
    | none => loadRows cls creator rows memory
    | some create => do
      let session ← cls.importData row.data
        (create sid (fromTimeT row.dtCreate) (fromTimeT row.dtExpire))
      loadRows cls creator rows (Table.insertNew session.sessionId session memory)

end SessionDb

namespace SessionController

/-- A controller that has been constructed. -/
def new : SessionController δ ρ := ⟨∅, ∅, 1, 1⟩

/-- `open`, on the table that the driver leads to; `none` is an exception. -/
def openDriver (cls : SessionClass δ ρ) (creator : Option (Creator δ)) (now : Int)
    (versionMin versionCurrent : Int) (driver : SessionDb ρ) (s : SessionController δ ρ) :
    Option (SessionController δ ρ) := do
  let db := Table.keep (fun _ => SessionDb.survives now versionMin) driver
  let memory ← SessionDb.loadRows cls creator db.entries s.sessionMemory
  some ⟨memory, db, versionMin, versionCurrent⟩

def findSession (sessionId : List UInt8) (s : SessionController δ ρ) : Option (Session δ) :=
  s.sessionMemory.lookup sessionId

def updateSession (cls : SessionClass δ ρ) (now : Int) (session : Session δ)
    (s : SessionController δ ρ) : SessionController δ ρ :=
  { s with sessionDb := SessionDb.updateSession cls now session s.versionCurrent s.sessionDb }

def removeSession (session : Session δ) (s : SessionController δ ρ) : SessionController δ ρ :=
  { s with
    sessionMemory := s.sessionMemory.erase session.sessionId
    sessionDb := SessionDb.removeSession session s.sessionDb }

/-- The end of `get_session`, with the id that is generated. -/
def createSession (cls : SessionClass δ ρ) (creator : Option (Creator δ)) (now : Int)
    (generated : List UInt8) (s : SessionController δ ρ) :
    Option (Session δ × Bool) × SessionController δ ρ :=
  match creator with
  | some create =>
    let session := create generated (fromTimeT now)
      (fromTimeT now + minutes Session.defaultExpireMinutes)
    (some (session, true),
      { s with
        sessionMemory := Table.insertNew session.sessionId session s.sessionMemory
        sessionDb := SessionDb.updateSession cls now session s.versionCurrent s.sessionDb })
  | none => (none, s)

/-- `get_session`, which returns the session and whether it is created. -/
def getSession (cls : SessionClass δ ρ) (creator : Option (Creator δ)) (now : Int)
    (generated sessionId : List UInt8) (s : SessionController δ ρ) :
    Option (Session δ × Bool) × SessionController δ ρ :=
  match s.sessionMemory.lookup sessionId with
  | some session =>
    if fromTimeT now < session.expired then
      let session := session.setExpired (fromTimeT now + cls.getExpireShift session)
      (some (session, false), { s with sessionMemory := s.sessionMemory.insert sessionId session })
    else
      createSession cls creator now generated { s with
        sessionMemory := s.sessionMemory.erase sessionId
        sessionDb := SessionDb.removeSession session s.sessionDb }
  | none => createSession cls creator now generated s

/-- The loop of `check_alive_sessions`. -/
def checkAlive (now : Int) :
    List ((_ : List UInt8) × Session δ) → SessionController δ ρ → SessionController δ ρ
  | [], s => s
  | ⟨key, session⟩ :: rest, s =>
    if session.expired < fromTimeT now then
      checkAlive now rest { s with
        sessionMemory := s.sessionMemory.erase key
        sessionDb := SessionDb.removeSession session s.sessionDb }
    else checkAlive now rest s

def checkAliveSessions (now : Int) (s : SessionController δ ρ) : SessionController δ ρ :=
  checkAlive now s.sessionMemory.entries s

/-- The memory shares its sessions with those who use them: what is assigned to
a session shows there. -/
def assign (session : Session δ) (s : SessionController δ ρ) : SessionController δ ρ :=
  { s with sessionMemory := Table.assign session.sessionId session s.sessionMemory }

end SessionController

end Khorost
