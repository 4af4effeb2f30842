import Khorost.Net.Session

namespace Khorost

variable {δ δ' ρ ρ' : Type} {f : δ → δ'} {g : ρ → ρ'} {cls : SessionClass δ ρ}
  {cls' : SessionClass δ' ρ'} {Readable : δ → Prop}

def Session.map (f : δ → δ') (session : Session δ) : Session δ' :=
  ⟨session.sessionId, session.created, session.expired, f session.data⟩

def Row.map (g : ρ → ρ') (row : Row ρ) : Row ρ' :=
  ⟨row.version, row.dtCreate, row.dtUpdate, row.dtExpire, g row.data⟩

/-- Through `f` and `g` the sessions and texts of one class are those of another, where
the data can be read back. -/
structure SessionClass.Image (cls : SessionClass δ ρ) (cls' : SessionClass δ' ρ') (f : δ → δ')
    (g : ρ → ρ') (Readable : δ → Prop) : Prop where
  shift : ∀ session, cls.getExpireShift session = cls'.getExpireShift (session.map f)
  exported : ∀ session, Readable session.data →
    g (cls.exportData session) = cls'.exportData (session.map f)
  imported : ∀ session fresh, Readable session.data →
    (cls.importData (cls.exportData session) fresh).map (Session.map f) =
      cls'.importData (g (cls.exportData session)) (fresh.map f)

def Creator.Image (create : Creator δ) (create' : Creator δ') (f : δ → δ') : Prop :=
  ∀ id created expired, (create id created expired).map f = create' id created expired

/-- A text has been exported, and can be read back. -/
def SessionClass.Legible (cls : SessionClass δ ρ) (Readable : δ → Prop) (text : ρ) : Prop :=
  ∃ session, Readable session.data ∧ text = cls.exportData session

namespace SessionController

def map (f : δ → δ') (g : ρ → ρ') (s : SessionController δ ρ) : SessionController δ' ρ' :=
  ⟨Table.map (Session.map f) s.sessionMemory, Table.map (Row.map g) s.sessionDb, s.versionMin,
    s.versionCurrent⟩

/-- Every row of the table is legible. -/
def Legible (cls : SessionClass δ ρ) (Readable : δ → Prop) (db : SessionDb ρ) : Prop :=
  ∀ id row, db.lookup id = some row → cls.Legible Readable row.data

variable {s : SessionController δ ρ} {session : Session δ} {db driver : SessionDb ρ}

theorem map_update_row (hi : cls.Image cls' f g Readable) (hr : Readable session.data)
    (now version : Int) (db : SessionDb ρ) :
    Table.map (Row.map g) (SessionDb.updateSession cls now session version db) =
      SessionDb.updateSession cls' now (session.map f) version (Table.map (Row.map g) db) := by
  unfold SessionDb.updateSession
  rw [Table.map_insert, Row.map, hi.exported session hr]
  rfl

theorem map_update (hi : cls.Image cls' f g Readable) (hr : Readable session.data) (now : Int)
    (s : SessionController δ ρ) :
    (s.updateSession cls now session).map f g =
      (s.map f g).updateSession cls' now (session.map f) := by
  unfold updateSession map
  rw [map_update_row hi hr]

/-- A session is erased under any key, and its row under its own. -/
theorem map_erased (key : List UInt8) (session : Session δ) (s : SessionController δ ρ) :
    map f g { s with
        sessionMemory := s.sessionMemory.erase key
        sessionDb := SessionDb.removeSession session s.sessionDb } =
      { s.map f g with
        sessionMemory := (s.map f g).sessionMemory.erase key
        sessionDb := SessionDb.removeSession (session.map f) (s.map f g).sessionDb } := by
  unfold map SessionDb.removeSession
  rw [Table.map_erase, Table.map_erase]
  rfl

theorem map_remove (session : Session δ) (s : SessionController δ ρ) :
    (s.removeSession session).map f g = (s.map f g).removeSession (session.map f) :=
  map_erased session.sessionId session s

theorem map_assign (session : Session δ) (s : SessionController δ ρ) :
    (s.assign session).map f g = (s.map f g).assign (session.map f) := by
  unfold assign map
  rw [Table.map_assign]
  rfl

theorem map_create (hi : cls.Image cls' f g Readable) {create : Creator δ} {create' : Creator δ'}
    (hcreate : create.Image create' f)
    (hr : ∀ id created expired, Readable (create id created expired).data) (now : Int)
    (generated : List UInt8) (s : SessionController δ ρ) :
    (createSession cls (some create) now generated s).2.map f g =
      (createSession cls' (some create') now generated (s.map f g)).2 := by
  unfold createSession
  dsimp only [map]
  rw [← hcreate]
  rw [Table.map_insert_new, map_update_row hi (hr _ _ _)]
  rfl

/-- A lookup of a session that is live, of one that has expired and of none. -/
theorem map_get (hi : cls.Image cls' f g Readable) {create : Creator δ} {create' : Creator δ'}
    (hcreate : create.Image create' f)
    (hr : ∀ id created expired, Readable (create id created expired).data) (now : Int)
    (generated sessionId : List UInt8) (s : SessionController δ ρ) :
    (getSession cls (some create) now generated sessionId s).2.map f g =
      (getSession cls' (some create') now generated sessionId (s.map f g)).2 := by
  unfold getSession
  have hlookup : (s.map f g).sessionMemory.lookup sessionId =
      (s.sessionMemory.lookup sessionId).map (Session.map f) := Table.lookup_map _ _ _
  rw [hlookup]
  cases s.sessionMemory.lookup sessionId with
  | none => exact map_create hi hcreate hr now generated s
  | some session =>
    dsimp only [Option.map_some]
    by_cases hlive : fromTimeT now < session.expired
    · rw [if_pos hlive, if_pos (by exact hlive), hi.shift]
      dsimp only [map]
      rw [Table.map_insert]
      rfl
    · rw [if_neg hlive, if_neg (by exact hlive), map_create hi hcreate hr, map_erased]

theorem map_check_alive (now : Int) (entries : List ((_ : List UInt8) × Session δ))
    (s : SessionController δ ρ) :
    (checkAlive now entries s).map f g =
      checkAlive now (entries.map fun e => ⟨e.1, e.2.map f⟩) (s.map f g) := by
  induction entries generalizing s with
  | nil => rfl
  | cons entry entries ih =>
    obtain ⟨key, session⟩ := entry
    rw [List.map_cons]
    unfold checkAlive
    by_cases hexpired : session.expired < fromTimeT now
    · rw [if_pos hexpired, if_pos (by exact hexpired), ih, map_erased]
    · rw [if_neg hexpired, if_neg (by exact hexpired), ih]

theorem map_check (now : Int) (s : SessionController δ ρ) :
    (s.checkAliveSessions now).map f g = (s.map f g).checkAliveSessions now :=
  map_check_alive now s.sessionMemory.entries s

theorem map_load (hi : cls.Image cls' f g Readable) {create : Creator δ} {create' : Creator δ'}
    (hcreate : create.Image create' f)
    {rows : List ((_ : List UInt8) × Row ρ)}
    (hrows : ∀ entry ∈ rows, cls.Legible Readable entry.2.data) (memory : SessionMemory δ) :
    (SessionDb.loadRows cls (some create) rows memory).map (Table.map (Session.map f)) =
      SessionDb.loadRows cls' (some create') (rows.map fun e => ⟨e.1, e.2.map g⟩)
        (Table.map (Session.map f) memory) := by
  induction rows generalizing memory with
  | nil => rfl
  | cons entry rows ih =>
    obtain ⟨sid, row⟩ := entry
    obtain ⟨⟨written, hr, htext⟩, hrest⟩ := List.forall_mem_cons.mp hrows
    have himport := hi.imported written
      (create sid (fromTimeT row.dtCreate) (fromTimeT row.dtExpire)) hr
    rw [← htext, hcreate] at himport
    dsimp only at himport
    change (Option.bind (cls.importData row.data _) _).map _ = Option.bind (cls'.importData
      (g row.data) (create' sid (fromTimeT row.dtCreate) (fromTimeT row.dtExpire))) _
    rw [← himport]
    cases cls.importData row.data
      (create sid (fromTimeT row.dtCreate) (fromTimeT row.dtExpire)) with
    | none => rfl
    | some session =>
      dsimp only [Option.bind_some, Option.map_some]
      rw [ih hrest, Table.map_insert_new]
      rfl

theorem map_open (hi : cls.Image cls' f g Readable) {create : Creator δ} {create' : Creator δ'}
    (hcreate : create.Image create' f)
    (hlegible : Legible cls Readable driver) (now versionMin versionCurrent : Int)
    (s : SessionController δ ρ) :
    (openDriver cls (some create) now versionMin versionCurrent driver s).map (map f g) =
      openDriver cls' (some create') now versionMin versionCurrent (Table.map (Row.map g) driver)
        (s.map f g) := by
  have hkeep : Table.map (Row.map g)
      (Table.keep (fun _ => SessionDb.survives now versionMin) driver) =
        Table.keep (fun _ => SessionDb.survives now versionMin) (Table.map (Row.map g) driver) :=
    Table.map_keep (q := fun _ => SessionDb.survives now versionMin) (Row.map g)
      (fun _ _ => rfl) driver
  have hrows : ∀ entry ∈ (Table.keep (fun _ => SessionDb.survives now versionMin) driver).entries,
      cls.Legible Readable entry.2.data := fun entry he =>
    hlegible _ _ ((Table.lookup_keep _).mp (AList.mem_lookup_iff.mpr he)).1
  unfold openDriver
  rw [← hkeep]
  dsimp only
  generalize Table.keep (fun _ => SessionDb.survives now versionMin) driver = db at hrows ⊢
  have hload : _ = SessionDb.loadRows cls' (some create') (Table.map (Row.map g) db).entries
      (s.map f g).sessionMemory := map_load hi hcreate hrows s.sessionMemory
  rw [← hload]
  cases SessionDb.loadRows cls (some create) db.entries s.sessionMemory with
  | none => rfl
  | some memory => rfl

theorem Legible.below {db' : SessionDb ρ} (h : Legible cls Readable db)
    (hless : ∀ id row, db'.lookup id = some row → db.lookup id = some row) :
    Legible cls Readable db' :=
  fun id row hrow => h id row (hless id row hrow)

theorem Legible.erase (h : Legible cls Readable db) (key : List UInt8) :
    Legible cls Readable (db.erase key) :=
  h.below fun _ _ hrow => (Table.lookup_erase_some.mp hrow).2

theorem Legible.update (h : Legible cls Readable db) (hr : Readable session.data)
    (now version : Int) : Legible cls Readable (db.updateSession cls now session version) := by
  intro id row hrow
  rw [SessionDb.updateSession, Table.lookup_insert] at hrow
  split at hrow
  · cases hrow
    exact ⟨session, hr, rfl⟩
  · exact h id row hrow

theorem Legible.create (h : Legible cls Readable s.sessionDb) {create : Creator δ}
    (hr : ∀ id created expired, Readable (create id created expired).data) (now : Int)
    (generated : List UInt8) :
    Legible cls Readable (createSession cls (some create) now generated s).2.sessionDb :=
  h.update (hr _ _ _) now s.versionCurrent

theorem Legible.get (h : Legible cls Readable s.sessionDb) {create : Creator δ}
    (hr : ∀ id created expired, Readable (create id created expired).data) (now : Int)
    (generated sessionId : List UInt8) :
    Legible cls Readable (getSession cls (some create) now generated sessionId s).2.sessionDb := by
  unfold getSession
  cases s.sessionMemory.lookup sessionId with
  | none => exact h.create hr now generated
  | some session =>
    dsimp only
    split
    · exact h
    · exact Legible.create (s := { s with
        sessionMemory := s.sessionMemory.erase sessionId
        sessionDb := SessionDb.removeSession session s.sessionDb })
        (h.erase session.sessionId) hr now generated

theorem Legible.check_alive (now : Int) (entries : List ((_ : List UInt8) × Session δ))
    (h : Legible cls Readable s.sessionDb) :
    Legible cls Readable (checkAlive now entries s).sessionDb := by
  induction entries generalizing s with
  | nil => exact h
  | cons entry entries ih =>
    unfold checkAlive
    split
    · exact ih (h.erase entry.2.sessionId)
    · exact ih h

theorem Legible.opened {create : Creator δ} {now versionMin versionCurrent : Int}
    {s' : SessionController δ ρ}
    (h : Legible cls Readable driver)
    (ho : s.openDriver cls (some create) now versionMin versionCurrent driver = some s') :
    Legible cls Readable s'.sessionDb := by
  obtain ⟨memory, -, ho⟩ := Option.bind_eq_some_iff.mp ho
  cases ho
  exact h.below fun _ _ hrow => ((Table.lookup_keep _).mp hrow).1

end SessionController

end Khorost
