import Khorost.App.HttpTask
import Khorost.App.S2hbStorage
import Khorost.App.Tokens
import Khorost.Net.SendFile
import Khorost.Util.StdString

namespace Khorost

/-- What `server2_hb` uses of other libraries, and its configuration. `parseJson` and
the two writers are those of JSON texts; with a token goes the time that has
passed. -/
structure HbEnv where
  md5 : List UInt8 → List UInt8
  parseJson : List UInt8 → Option JsonValue
  jsonString : SessionObject → List UInt8
  tokenString : Server.TokenJson → List UInt8
  tokens : Surroundings
  docRoot : List UInt8
  storageRoot : List UInt8

/-- What a request finds when it is processed: the time, in seconds and in
microseconds, the strings that are drawn at random, the files, and what `timegm`
makes of the `tm` in `send_file`. -/
structure Moment where
  now : Nat
  microseconds : Int
  sessionId : List UInt8
  accessToken : List UInt8
  refreshToken : List UInt8
  tree : Tree
  tm : Int

/-- `server2_hb`: its sessions, its tokens and its storage. -/
structure Server2hb where
  sessions : S2hSessions
  storage : S2hbStorage
  tokens : Server

/-- Code that may throw. Nobody catches, so the program ends. -/
abbrev HbAct := EStateM Unit Server2hb

/-- What an action leaves for `send_response`: the calls that it makes on the
response, and the body. -/
structure ActionReply where
  calls : List ResponseCall
  body : Option (List UInt8)

namespace Server2hb

/-- An exception where something is not there. -/
def orThrow (r : Option α) : HbAct α := fun s =>
  match r with
  | some a => .ok a s
  | none => .error () s

def urlPrefixAction : List UInt8 := ascii "/api/"

def urlPrefixStorage : List UInt8 := ascii "/storage/"

def sessionCode : List UInt8 := ascii "s2hsession"

def parseAction (query : List UInt8) : List UInt8 × List UInt8 :=
  match findFirstOf query slash 0 with
  | some pos => (query.take pos, query.drop (pos + 1))
  | none => (query, [])

def processingSession (m : Moment) (http : HttpHeader) : HbAct (Session S2hData) := fun s =>
  match s.sessions.processingSession m.now m.sessionId (http.getCookie sessionCode none) with
  | (some (session, _), sessions) => .ok session { s with sessions := sessions }
  | (none, sessions) => .error () { s with sessions := sessions }

/-- `set_cookie` for a session, with the domain of `get_host`. -/
def sessionCookie (session : Session S2hData) : ResponseCall :=
  .setCookie sessionCode session.sessionId (totalSeconds session.expired) none true

/-- The user whose login and password the body of the request has. -/
def loginUser (env : HbEnv) (http : HttpHeader) (storage : S2hbStorage) : Option (Option User) :=
  match env.parseJson http.getBody with
  | none => some none
  | some auth => do
    let login ← (← auth.member (ascii "login")).asString
    let password ← (← auth.member (ascii "password")).asString
    match ← storage.checkPassword env.md5 login password with
    | none => some none
    | some info => do some (some ⟨info.userId, info.nickname, ← storage.getUserRoles info.userId⟩)

/-- The branch `login`, with the session as it leaves it. -/
def login (env : HbEnv) (m : Moment) (http : HttpHeader) (session : Session S2hData) :
    HbAct (Session S2hData) := do
  match ← orThrow (loginUser env http (← get).storage) with
  | none => pure session
  | some user =>
    modify fun s => { s with sessions := s.sessions.actionLogin m.now (some user) session }
    pure { session with data := S2hSessions.login user session.data }

/-- The branch `change`, with what it answers. -/
def change (env : HbEnv) (http : HttpHeader) (session : Session S2hData) : HbAct SessionObject :=
  fun s =>
    match UserStorage.actionChange env.md5 http session.data s.storage.accounts with
    | .ok root accounts => .ok root { s with storage := { s.storage with accounts := accounts } }
    | .error e accounts => .error e { s with storage := { s.storage with accounts := accounts } }

def jsContent : ResponseCall := .setContentType (ascii "application/javascript") (ascii "UTF-8")

def actionAuth (env : HbEnv) (m : Moment) (uriParams : List UInt8) (http : HttpHeader)
    (session : Session S2hData) : HbAct ActionReply := do
  let (action, _) := parseAction uriParams
  if action = ascii "login" then
    let session ← login env m http session
    let root := jsonFillAuth session.data true fun _ => none
    pure ⟨[jsContent], some (env.jsonString root)⟩
  else if action = ascii "logout" then
    modify fun s => { s with sessions := s.sessions.actionLogout m.now session }
    let left := { session with data := S2hData.initial }.setExpired (fromTimeT m.now)
    pure ⟨[sessionCookie left, jsContent], some (env.jsonString fun _ => none)⟩
  else if action = ascii "change" then
    let root ← change env http session
    pure ⟨[jsContent], some (env.jsonString root)⟩
  else pure ⟨[jsContent], some (env.jsonString fun _ => none)⟩

/-- `action_refresh_token`. Its exceptions are caught. -/
def actionRefreshToken (env : HbEnv) (m : Moment) (http : HttpHeader) : HbAct ActionReply := fun s =>
  let (reply, tokens) :=
    Server.actionRefreshToken env.tokens http m.microseconds m.accessToken m.refreshToken s.tokens
  let s := { s with tokens := tokens }
  match reply with
  | .token json =>
    .ok ⟨[.setContentType (ascii "application/json") (ascii "UTF-8")],
      some (env.tokenString json)⟩ s
  | .status code reason => .ok ⟨[.setResponseStatus code reason], none⟩ s

def notFoundReply : ActionReply :=
  ⟨[.setResponseStatus 404 (ascii "Not found")], some (ascii "File not found")⟩

/-- `process_http_action`, and the answer to an action that is not found. -/
def processHttpAction (env : HbEnv) (m : Moment) (action uriParams : List UInt8)
    (http : HttpHeader) : HbAct ActionReply := do
  let session ← processingSession m http
  let reply ←
    if action = ascii "auth" then actionAuth env m uriParams http session
    else if action = ascii "refresh_token" then actionRefreshToken env m http
    else pure notFoundReply
  pure { reply with calls := sessionCookie session :: reply.calls }

/-- `send_response` behind the calls of an action. -/
def respond (m : Moment) (p : HttpProcessor) (reply : ActionReply) : Option SentResponse := do
  let p ← reply.calls.foldlM HttpProcessor.perform p
  p.sendResponse m.now reply.body ((reply.body.getD []).length)

def processHttpFileServer (env : HbEnv) (m : Moment) (queryUri : List UInt8) (p : HttpProcessor) :
    Option SentFile :=
  if queryUri.take urlPrefixStorage.length = urlPrefixStorage then
    p.sendFile m.tree m.now m.tm (queryUri.drop (urlPrefixStorage.length - 1)) env.storageRoot []
  else p.sendFile m.tree m.now m.tm queryUri env.docRoot []

/-- `process_http`, with the response and the file that have been sent. -/
def processHttp (env : HbEnv) (m : Moment) (http : HttpHeader) : HbAct SentFile := do
  let queryUri ← orThrow http.getQueryUri
  let p := HttpProcessor.ofRequest http
  if queryUri.take urlPrefixAction.length = urlPrefixAction then
    let (action, params) := parseAction (queryUri.drop urlPrefixAction.length)
    let reply ← processHttpAction env m action params http
    let sent ← orThrow (respond m p reply)
    pure ⟨sent, [], true⟩
  else orThrow (processHttpFileServer env m queryUri p)

end Server2hb

end Khorost
