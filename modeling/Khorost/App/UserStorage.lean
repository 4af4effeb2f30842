import Khorost.App.S2hSession
import Khorost.Net.Http
import Khorost.Util.JsonValue

namespace Khorost

/-- A row of `admin.khl_users`; a column that is `NULL` is `none`. -/
structure UserRow where
  id : Option Int
  login : Option (List UInt8)
  nickname : Option (List UInt8)
  password : Option (List UInt8)
  salt : Option (List UInt8)
deriving DecidableEq

/-- What the two queries of a user read, with the id and the login that were
asked for. -/
structure UserInfo where
  userId : Int
  login : List UInt8
  nickname : List UInt8
  passwordHash : List UInt8
  salt : List UInt8
deriving DecidableEq

/-- `S2HBStorage` as far as the users go, with the calls of `UpdatePassword` so
far. -/
structure UserStorage where
  users : List UserRow
  updates : List (Int × List UInt8)
deriving DecidableEq

/-- Code that may throw. -/
abbrev StorageAct := EStateM Unit UserStorage

namespace UserStorage

/-- `as<int>`; `none` is an exception. -/
def asInt (column : Option Int) : Option Int :=
  column.filter fun n => JsonValue.minInt ≤ n ∧ n ≤ JsonValue.maxInt

/-- `GetUserInfo`, for an id. The outer `none` is an exception. -/
def getUserInfo (s : UserStorage) (userId : Int) : Option (Option UserInfo) :=
  match s.users.find? fun r => r.id = some userId with
  | none => some none
  | some r => do some (some ⟨userId, ← r.login, ← r.nickname, ← r.password, ← r.salt⟩)

/-- `get_user_info`, for a login. -/
def getUserInfoByLogin (s : UserStorage) (login : List UInt8) : Option (Option UserInfo) :=
  match s.users.find? fun r => r.login = some login with
  | none => some none
  | some r => do some (some ⟨← asInt r.id, login, ← r.nickname, ← r.password, ← r.salt⟩)

def setPassword (s : UserStorage) (userId : Int) (passwordHash : List UInt8) : UserStorage where
  users := s.users.map fun r =>
    if r.id = some userId then { r with password := some passwordHash } else r
  updates := s.updates ++ [(userId, passwordHash)]

def updatePassword (userId : Int) (passwordHash : List UInt8) : StorageAct Unit := fun s =>
  .ok () (s.setPassword userId passwordHash)

/-- An exception where something is not there. -/
def orThrow (r : Option α) : StorageAct α := fun s =>
  match r with
  | some a => .ok a s
  | none => .error () s

end UserStorage

/-- `boost::algorithm::hex`. -/
def hexUpper (bytes : List UInt8) : List UInt8 :=
  let digit (n : UInt8) : UInt8 := if n < 10 then 48 + n else 55 + n
  bytes.flatMap fun a => [digit (a / 16), digit (a % 16)]

/-- `RecalcPasswordHash`; `md5` is the digest of the library. -/
def recalcPasswordHash (md5 : List UInt8 → List UInt8) (login password salt : List UInt8) :
    List UInt8 := hexUpper (md5 (login ++ password ++ salt))

def isPasswordHashEqual3 (md5 : List UInt8 → List UInt8)
    (checked first second third : List UInt8) : Bool :=
  checked = hexUpper (md5 (first ++ second ++ third))

def jsonFillAuth (session : S2hData) (fullInfo : Bool) (value : SessionObject) : SessionObject :=
  let value := Maps.set value (ascii "auth") (.bool session.authenticate)
  if fullInfo ∧ session.authenticate then
    Maps.set (Maps.set value (ascii "nickname") (.string session.nickname)) (ascii "roles")
      session.fillRoles
  else value

namespace UserStorage

/-- The user of the session, if the request proves the password. -/
def verifyPassword (md5 : List UInt8 → List UInt8) (http : HttpHeader) (session : S2hData)
    (s : UserStorage) : Option (Option UserInfo) :=
  match http.getParameter (ascii "curpwd") none with
  | none => some none
  | some currentPassword =>
    (s.getUserInfo session.idUser).map fun found => found.filter fun own =>
      isPasswordHashEqual3 md5 own.passwordHash own.login currentPassword own.salt

/-- The branch `change` of `action_auth`, and what it answers. -/
def actionChange (md5 : List UInt8 → List UInt8) (http : HttpHeader) (session : S2hData) :
    StorageAct SessionObject := do
  match ← orThrow (verifyPassword md5 http session (← getThe UserStorage)) with
  | some own =>
    let newPassword := http.getParameter (ascii "newpwd") none
    if http.isParameterExist (ascii "loginpwd") then
      -- a null pointer is no string, here and for the new password
      let login ← orThrow (http.getParameter (ascii "loginpwd") none)
      -- from here on the user is the one whom the request names
      match ← orThrow ((← getThe UserStorage).getUserInfoByLogin login) with
      | some info =>
        let newPassword ← orThrow newPassword
        updatePassword info.userId (recalcPasswordHash md5 login newPassword info.salt)
      | none => pure ()
    else
      let newPassword ← orThrow newPassword
      updatePassword session.idUser (recalcPasswordHash md5 own.login newPassword own.salt)
    pure (jsonFillAuth session true fun _ => none)
  | none =>
    pure (jsonFillAuth session true
      (Maps.set (fun _ => none) (ascii "reason") (.string (ascii "UserNotFound"))))

end UserStorage

end Khorost
