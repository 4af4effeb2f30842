import Khorost.App.UserStorage

namespace Khorost

/-- A row of `admin.khl_roles`. -/
structure RoleRow where
  id : Int
  code : Option (List UInt8)
deriving DecidableEq

/-- `S2HBStorage` with the roles: `userRoles` are the rows of `admin.khl_user_roles`,
each the id of a user and that of a role. -/
structure S2hbStorage where
  accounts : UserStorage
  roles : List RoleRow
  userRoles : List (Int × Int)
deriving DecidableEq

/-- What is drawn for a new user: the database gives the id, the code the salt. -/
structure NewUser where
  id : Int
  salt : List UInt8

/-- A user as the configuration describes him. -/
structure UserText where
  login : List UInt8
  password : List UInt8
  nickname : List UInt8
  roles : List (List UInt8)

/-- Code that may throw. A transaction that throws leaves the tables as they were. -/
abbrev AdminAct := EStateM Unit S2hbStorage

namespace S2hbStorage

def empty : S2hbStorage := ⟨⟨[], []⟩, [], []⟩

def isUserExist (s : S2hbStorage) (login : List UInt8) : Bool :=
  s.accounts.users.any fun r => r.login = some login

/-- The rows of the join in `GetUserRoles`. -/
def roleRows (s : S2hbStorage) (userId : Int) : List RoleRow :=
  s.userRoles.flatMap fun ur =>
    if ur.1 = userId then s.roles.filter (·.id = ur.2) else []

/-- `GetUserRoles`, with the codes that it appends; `none` is an exception. -/
def getUserRoles (s : S2hbStorage) (userId : Int) : Option (List (List UInt8)) :=
  (s.roleRows userId).mapM (·.code)

/-- The user of a login, if the password goes with it: what the branch `login` of
`action_auth` finds out. The outer `none` is an exception. -/
def checkPassword (md5 : List UInt8 → List UInt8) (login password : List UInt8) (s : S2hbStorage) :
    Option (Option UserInfo) :=
  (s.accounts.getUserInfoByLogin login).map fun found => found.filter fun info =>
    recalcPasswordHash md5 login password info.salt = info.passwordHash

/-- `jsRoles[k].asString()` for each index; `none` is an exception. -/
def roleCodes : JsonValue → Option (List (List UInt8))
  | .array elements => elements.mapM (·.asString)
  -- an object has a size, but no element at an index
  | .object (_ :: _) => none
  | _ => some []

/-- What `CreateUser` reads of a user; `none` is an exception. -/
def readUser (user : JsonValue) : Option UserText := do
  let login ← (← user.member (ascii "Login")).asString
  let password ← (← user.member (ascii "Password")).asString
  let nickname ← (← user.member (ascii "Nickname")).asString
  let roles ← roleCodes (← user.member (ascii "Role"))
  some ⟨login, password, nickname, roles⟩

/-- `CreateUser`; `none` is an exception. -/
def createUser (md5 : List UInt8 → List UInt8) (new : NewUser) (user : JsonValue)
    (s : S2hbStorage) : Option S2hbStorage := do
  let text ← readUser user
  let userId ← UserStorage.asInt (some new.id)
  let passwordHash := recalcPasswordHash md5 text.login text.password new.salt
  some { s with
    accounts := { s.accounts with users := s.accounts.users ++
      [⟨some userId, some text.login, some text.nickname, some passwordHash, some new.salt⟩] }
    userRoles := s.userRoles ++ text.roles.flatMap fun code =>
      (s.roles.filter (·.code = some code)).map fun r => (userId, r.id) }

/-- One pass of the loop in `auto_execute`. -/
def createAbsent (md5 : List UInt8 → List UInt8) (new : NewUser) (user : JsonValue) :
    AdminAct Unit := fun s =>
  match (user.member (ascii "Login")).bind JsonValue.asString with
  | none => .error () s
  | some login =>
    if s.isUserExist login then .ok () s
    else match s.createUser md5 new user with
      | none => .error () s
      | some s => .ok () s

/-- The loop. A user who has been created before one that cannot be stays. -/
def createAll (md5 : List UInt8 → List UInt8) : List (NewUser × JsonValue) → AdminAct Unit
  | [] => pure ()
  | (new, user) :: users => do
    createAbsent md5 new user
    createAll md5 users

/-- `m_configure_["autoexec"]["Create"]["User"]`; `none` is an exception. -/
def configuredUsers (configure : JsonValue) : Option JsonValue := do
  let autoexec ← configure.member (ascii "autoexec")
  let create ← autoexec.member (ascii "Create")
  create.member (ascii "User")

/-- `server2_hb::auto_execute`. There is a `NewUser` for every user of the
configuration. -/
def autoExecute (md5 : List UInt8 → List UInt8) (new : Nat → NewUser) (configure : JsonValue) :
    AdminAct Unit := fun s =>
  match configuredUsers configure with
  | none => .error () s
  | some users =>
    createAll md5 (users.elements.zipIdx.map fun p => (new p.2, p.1)) s

end S2hbStorage

end Khorost
