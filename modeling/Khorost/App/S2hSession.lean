import Khorost.Lib.Maps
import Khorost.Net.Session

namespace Khorost

/-- A `std::set`, its elements in the order in which they came. -/
structure StdSet (α : Type) where
  elements : List α
  nodup : elements.Nodup

namespace StdSet

variable {α : Type}

def empty : StdSet α := ⟨[], List.nodup_nil⟩

def insert [DecidableEq α] (set : StdSet α) (x : α) : StdSet α :=
  if h : x ∈ set.elements then set
  else ⟨set.elements.concat x, set.nodup.concat h⟩

theorem fold_insert [DecidableEq α] (set : StdSet α) : set.elements.foldl insert empty = set := by
  have hfold : ∀ (done rest : List α) (hn : done.Nodup) (hrest : (done ++ rest).Nodup),
      rest.foldl insert ⟨done, hn⟩ = ⟨done ++ rest, hrest⟩ := by
    intro done rest
    induction rest generalizing done with
    | nil => simp
    | cons x rest ih =>
      intro hn hrest
      have hx : x ∉ done := fun hx =>
        List.disjoint_of_nodup_append hrest hx (List.mem_cons_self ..)
      rw [List.foldl_cons, insert, dif_neg hx, ih]
      · simp
      · simpa using hrest
  exact hfold [] set.elements List.nodup_nil set.nodup

end StdSet

/-- A value in the JSON text of a session. The elements of an array are strings. -/
inductive SessionJson
  | null
  | bool (value : Bool)
  | int (value : Int)
  | string (value : List UInt8)
  | array (elements : List (List UInt8))

namespace SessionJson

/-- The conversions; `none` is an exception. -/
def asBool : SessionJson → Option Bool
  | .null => some false
  | .bool value => some value
  | .int value => some (value ≠ 0)
  | _ => none

def asInt : SessionJson → Option Int
  | .null => some 0
  | .bool value => some value.toInt
  | .int value => some value
  | _ => none

def asString : SessionJson → Option (List UInt8)
  | .null => some []
  | .bool value => some (ascii (toString value))
  | .int value => some (ascii (toString value))
  | .string value => some value
  | .array _ => none

/-- What a loop over the value runs through. -/
def elements : SessionJson → List (List UInt8)
  | .array elements => elements
  | _ => []

end SessionJson

/-- The members of the JSON object in the `Data` column of a row. The text
stands for the object whose text it is. -/
abbrev SessionObject := List UInt8 → Option SessionJson

def SessionObject.get (root : SessionObject) (key : List UInt8) (default : SessionJson) :
    SessionJson := (root key).getD default

/-- The members of `s2h_session`. -/
structure S2hData where
  authenticate : Bool
  idUser : Int
  nickname : List UInt8
  position : List UInt8
  roles : StdSet (List UInt8)

namespace S2hData

/-- `участник`. -/
def defaultPosition : List UInt8 :=
  [209, 131, 209, 135, 208, 176, 209, 129, 209, 130, 208, 189, 208, 184, 208, 186]

/-- What `reset` leaves. -/
def initial : S2hData := ⟨false, 0, [], defaultPosition, .empty⟩

def fillRoles (data : S2hData) : SessionJson :=
  if data.roles.elements = [] then .null else .array data.roles.elements

def exportData (data : S2hData) : SessionObject :=
  Maps.set (Maps.set (Maps.set (Maps.set (Maps.set (fun _ => none)
    (ascii "bAuthenticate") (.bool data.authenticate))
    (ascii "sNickname") (.string data.nickname))
    (ascii "sPosition") (.string data.position))
    (ascii "idUser") (.int data.idUser))
    (ascii "Roles") data.fillRoles

def importData (root : SessionObject) : Option S2hData := do
  let authenticate ← (root.get (ascii "bAuthenticate") (.bool false)).asBool
  let nickname ← (root.get (ascii "sNickname") (.string [])).asString
  let position ← (root.get (ascii "sPosition") (.string defaultPosition)).asString
  let idUser ← (root.get (ascii "idUser") (.string [])).asInt
  let roles := (root.get (ascii "Roles") .null).elements.foldl StdSet.insert .empty
  some ⟨authenticate, idUser, nickname, position, roles⟩

theorem import_export (data : S2hData) : importData data.exportData = some data := by
  have hroles : data.fillRoles.elements = data.roles.elements := by
    unfold fillRoles
    split
    · next h =>
      rw [h]
      rfl
    · rfl
  have hkeys : (data.exportData.get (ascii "bAuthenticate") (.bool false) = .bool data.authenticate ∧
      data.exportData.get (ascii "sNickname") (.string []) = .string data.nickname ∧
      data.exportData.get (ascii "sPosition") (.string defaultPosition) = .string data.position) ∧
      data.exportData.get (ascii "idUser") (.string []) = .int data.idUser ∧
      data.exportData.get (ascii "Roles") .null = data.fillRoles := by
    simp only [SessionObject.get, exportData]
    refine ⟨⟨?_, ?_, ?_⟩, ?_, ?_⟩
    · rw [Maps.set_other (by decide), Maps.set_other (by decide), Maps.set_other (by decide),
        Maps.set_other (by decide), Maps.set_same, Option.getD_some]
    · rw [Maps.set_other (by decide), Maps.set_other (by decide), Maps.set_other (by decide),
        Maps.set_same, Option.getD_some]
    · rw [Maps.set_other (by decide), Maps.set_other (by decide), Maps.set_same, Option.getD_some]
    · rw [Maps.set_other (by decide), Maps.set_same, Option.getD_some]
    · rw [Maps.set_same, Option.getD_some]
  obtain ⟨⟨hauthenticate, hnickname, hposition⟩, huser, hrole⟩ := hkeys
  rw [importData, hauthenticate, hnickname, hposition, huser, hrole, hroles,
    StdSet.fold_insert]
  rfl

end S2hData

def s2hSession : SessionClass S2hData SessionObject where
  getExpireShift session :=
    if session.data.authenticate then minutes (60 * 24 * 14)
    else minutes Session.defaultExpireMinutes
  exportData session := session.data.exportData
  importData root session := (S2hData.importData root).map fun data => { session with data := data }
  import_id h := by
    obtain ⟨_, -, rfl⟩ := Option.map_eq_some_iff.mp h
    rfl

/-- `get_session_creator`. -/
def s2hCreator : Creator S2hData := fun id created expired => ⟨id, created, expired, .initial⟩

/-- `SESSION_VERSION_MIN` and `SESSION_VERSION_CURRENT`. -/
structure SessionVersions where
  min : Int
  current : Int
  sound : min ≤ current

def sessionVersions : SessionVersions := ⟨4, 4, Int.le_refl 4⟩

/-- The session controller of `server2_hb`. -/
abbrev S2hSessions := SessionController S2hData SessionObject

/-- What the database of the users says of one who has logged in. -/
structure User where
  id : Int
  nickname : List UInt8
  roles : List (List UInt8)

namespace S2hSessions

def setSessionDriver (versions : SessionVersions) (now : Int) (driver : SessionDb SessionObject)
    (s : S2hSessions) : Option S2hSessions :=
  s.openDriver s2hSession (some s2hCreator) now versions.min versions.current driver

/-- `processing_session`, with the cookie of the request. -/
def processingSession (now : Int) (generated : List UInt8) (cookie : Option (List UInt8))
    (s : S2hSessions) : Option (Session S2hData × Bool) × S2hSessions :=
  s.getSession s2hSession (some s2hCreator) now generated (cookie.getD [])

def login (user : User) (data : S2hData) : S2hData :=
  { data with
    idUser := user.id
    nickname := user.nickname
    authenticate := true
    roles := user.roles.foldl StdSet.insert .empty }

/-- The branch `login` of `action_auth`. The user is `none` unless the password
is right. -/
def actionLogin (now : Int) (user : Option User) (session : Session S2hData) (s : S2hSessions) :
    S2hSessions :=
  match user with
  | some user =>
    let session := { session with data := login user session.data }
    (s.assign session).updateSession s2hSession now session
  | none => s

/-- The branch `logout`. -/
def actionLogout (now : Int) (session : Session S2hData) (s : S2hSessions) : S2hSessions :=
  let session := { session with data := S2hData.initial }.setExpired (fromTimeT now)
  (s.assign session).removeSession session

/-- The end of the process: the timer checks the sessions a last time, and only
the database is left. -/
def shutdown (now : Int) (s : S2hSessions) : SessionDb SessionObject :=
  (s.checkAliveSessions now).sessionDb

/-- A new process on the same database. -/
def reopen (versions : SessionVersions) (now : Int) (s : S2hSessions) : Option S2hSessions :=
  setSessionDriver versions now (shutdown now s) .new

end S2hSessions

end Khorost
