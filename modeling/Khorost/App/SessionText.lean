import Khorost.App.S2hSession
import Khorost.Net.SessionUse
import Khorost.Util.JsonValue

namespace Khorost

/-- What `parse_json_string` comes to. -/
inductive Parsed
  | value (root : JsonValue)
  | fails
  | throws

/-- `json_string` and `parse_json_string`. -/
structure JsonCodec where
  jsonString : JsonValue → List UInt8
  parseJsonString : List UInt8 → Parsed

/-- `s2h_session` with the members of its base. -/
structure S2hMembers where
  use : SessionUse
  authenticate : Bool
  idUser : Int32
  nickname : List UInt8
  position : List UInt8
  roles : StdSet (List UInt8)

namespace S2hMembers

def reset (s : S2hMembers) : S2hMembers :=
  ⟨s.use.reset, false, 0, [], S2hData.defaultPosition, .empty⟩

/-- What the constructor leaves. -/
def new (created : Int) : S2hMembers :=
  reset ⟨.new created, false, 0, [], [], .empty⟩

/-- `fill_roles` of a null. -/
def fillRoles (s : S2hMembers) : JsonValue :=
  if s.roles.elements = [] then .null else .array (s.roles.elements.map .string)

/-- The document of `export_data`, its members in the order of their keys. -/
def document (s : S2hMembers) : JsonValue :=
  .object [(ascii "Roles", s.fillRoles), (ascii "bAuthenticate", .bool s.authenticate),
    (ascii "idUser", .int s.idUser.toInt), (ascii "sNickname", .string s.nickname),
    (ascii "sPosition", .string s.position)]

def exportData (json : JsonCodec) (s : S2hMembers) : List UInt8 := json.jsonString s.document

/-- Code that may throw. What it has assigns before stays assigned. -/
abbrev Import := EStateM Unit S2hMembers

/-- Assigns what a conversion gives, unless it throws. -/
def assign (r : Option α) (set : α → S2hMembers → S2hMembers) : Import Unit := fun s =>
  match r with
  | some a => .ok () (set a s)
  | none => .error () s

/-- The loop over the roles. -/
def insertRoles : List JsonValue → Import Unit
  | [] => pure ()
  | r :: roles => do
    assign r.asString fun role s => { s with roles := s.roles.insert role }
    insertRoles roles

/-- `import_data` from the `reset` on. -/
def importRoot (root : JsonValue) : Import Unit := do
  modify reset
  assign ((root.get (ascii "bAuthenticate") (.bool false)).bind JsonValue.asBool)
    fun value s => { s with authenticate := value }
  assign ((root.get (ascii "sNickname") (.string [])).bind JsonValue.asString)
    fun value s => { s with nickname := value }
  assign ((root.get (ascii "sPosition") (.string S2hData.defaultPosition)).bind JsonValue.asString)
    fun value s => { s with position := value }
  -- the default is a text, which is no number
  assign ((root.get (ascii "idUser") (.string [])).bind JsonValue.asInt)
    fun value s => { s with idUser := Int32.ofInt value }
  match root.member (ascii "Roles") with
  | some roles => insertRoles roles.elements
  | none => throw ()

def importData (json : JsonCodec) (data : List UInt8) : Import Bool :=
  match json.parseJsonString data with
  | .throws => throw ()
  | .fails => pure false
  | .value root => do
    importRoot root
    pure true

end S2hMembers

/-- `s2h_session` as the session controller sees it, with the text in the column
`Data` of the table. -/
def textSession (json : JsonCodec) : SessionClass S2hMembers (List UInt8) where
  getExpireShift session :=
    if session.data.authenticate then minutes (60 * 24 * 14)
    else minutes Session.defaultExpireMinutes
  exportData session := session.data.exportData json
  importData data session :=
    match S2hMembers.importData json data session.data with
    | .ok _ members => some { session with data := members }
    | .error _ _ => none
  import_id h := by
    split at h
    · cases h
      rfl
    · cases h

/-- `get_session_creator`. -/
def textCreator : Creator S2hMembers := fun id created expired =>
  ⟨id, created, expired, .new created⟩

/-- The session controller of `server2_hb`, with a table of texts. -/
abbrev TextSessions := SessionController S2hMembers (List UInt8)

namespace TextSessions

def setSessionDriver (json : JsonCodec) (versions : SessionVersions) (now : Int)
    (driver : SessionDb (List UInt8)) (s : TextSessions) : Option TextSessions :=
  s.openDriver (textSession json) (some textCreator) now versions.min versions.current driver

def processingSession (json : JsonCodec) (now : Int) (generated : List UInt8)
    (cookie : Option (List UInt8)) (s : TextSessions) :
    Option (Session S2hMembers × Bool) × TextSessions :=
  s.getSession (textSession json) (some textCreator) now generated (cookie.getD [])

def login (user : User) (members : S2hMembers) : S2hMembers :=
  { members with
    idUser := Int32.ofInt user.id
    nickname := user.nickname
    authenticate := true
    roles := user.roles.foldl StdSet.insert .empty }

def actionLogin (json : JsonCodec) (now : Int) (user : Option User) (session : Session S2hMembers)
    (s : TextSessions) : TextSessions :=
  match user with
  | some user =>
    let session := { session with data := login user session.data }
    (s.assign session).updateSession (textSession json) now session
  | none => s

def actionLogout (now : Int) (session : Session S2hMembers) (s : TextSessions) : TextSessions :=
  let session := { session with data := session.data.reset }.setExpired (fromTimeT now)
  (s.assign session).removeSession session

def shutdown (now : Int) (s : TextSessions) : SessionDb (List UInt8) :=
  (s.checkAliveSessions now).sessionDb

def reopen (json : JsonCodec) (versions : SessionVersions) (now : Int) (s : TextSessions) :
    Option TextSessions :=
  setSessionDriver json versions now (shutdown now s) .new

end TextSessions

end Khorost
