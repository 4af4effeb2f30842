import Khorost.Lib.Maps
import Khorost.Net.Http

namespace Khorost

/-- A `Json::Value` by the two conversions that are applied to it; `none` is an
exception. -/
structure Json where
  asString : Option (List UInt8)
  asInt : Option Int

namespace Json

/-- What `operator[]` gives for a member that is not there. -/
def null : Json := ⟨some [], some 0⟩

def ofString (s : List UInt8) : Json := ⟨some s, none⟩

def ofInt (n : Int) : Json := ⟨some (ascii (toString n)), some n⟩

end Json

/-- The members of a `Json::Value` that is an object. -/
abbrev Payload := List UInt8 → Option Json

/-- `payload[key]` of a constant payload. -/
def Payload.at (p : Payload) (key : List UInt8) : Json := (p key).getD Json.null

def khlJsonParamAccessToken : List UInt8 := ascii "access_token"
def khlJsonParamAccessExpire : List UInt8 := ascii "access_expire"
def khlJsonParamDeltaAccessTime : List UInt8 := ascii "delta_access_time"
def khlJsonParamRefreshToken : List UInt8 := ascii "refresh_token"
def khlJsonParamRefreshExpire : List UInt8 := ascii "refresh_expire"
def khlJsonParamDeltaRefreshTime : List UInt8 := ascii "delta_refresh_time"

/-- `network::token`. A time is the number of microseconds since the epoch. -/
structure Token where
  accessToken : List UInt8
  refreshToken : List UInt8
  accessExpire : Int
  refreshExpire : Int
  payload : Payload

namespace Token

def isNoExpireAccess (t : Token) (check : Int) : Bool := check < t.accessExpire

def isNoExpireRefresh (t : Token) (check : Int) : Bool := check < t.refreshExpire

/-- The test of `parse_token`. The time to check against is `none` for `neg_infin`. -/
def isExpired (t : Token) (isAccessToken : Bool) : Option Int → Bool
  | none => false
  | some check =>
    (isAccessToken && !t.isNoExpireAccess check) || (!isAccessToken && !t.isNoExpireRefresh check)

/-- The two getters of a duration; `none` is an exception. -/
def duration (t : Token) (key : List UInt8) : Option Int :=
  match t.payload key with
  | some v => v.asInt
  | none => some 0

def getAccessDuration (t : Token) : Option Int := t.duration khlJsonParamDeltaAccessTime

def getRefreshDuration (t : Token) : Option Int := t.duration khlJsonParamDeltaRefreshTime

def setAccessDuration (t : Token) (seconds : Int) : Token :=
  { t with payload := Maps.set t.payload khlJsonParamDeltaAccessTime (.ofInt seconds) }

def setRefreshDuration (t : Token) (seconds : Int) : Token :=
  { t with payload := Maps.set t.payload khlJsonParamDeltaRefreshTime (.ofInt seconds) }

def setAccessToken (t : Token) (accessToken : List UInt8) : Token :=
  { t with
    accessToken := accessToken
    payload := Maps.set t.payload khlJsonParamAccessToken (.ofString accessToken) }

def setRefreshToken (t : Token) (refreshToken : List UInt8) : Token :=
  { t with
    refreshToken := refreshToken
    payload := Maps.set t.payload khlJsonParamRefreshToken (.ofString refreshToken) }

end Token

/-- What the token code uses of its surroundings: the configuration, the
conversions between times and their ISO texts, and which calls of the Redis
client throw. -/
structure Surroundings where
  cacheDbContext : List UInt8
  cacheSetTag : List UInt8
  toIsoExtendedString : Int → List UInt8
  fromIsoExtendedString : List UInt8 → Option Int
  throws : Nat → Bool

namespace Token

def setAccessExpire (env : Surroundings) (t : Token) (accessExpire : Int) : Token :=
  { t with
    accessExpire := accessExpire
    payload := Maps.set t.payload khlJsonParamAccessExpire
      (.ofString (env.toIsoExtendedString accessExpire)) }

def setRefreshExpire (env : Surroundings) (t : Token) (refreshExpire : Int) : Token :=
  { t with
    refreshExpire := refreshExpire
    payload := Maps.set t.payload khlJsonParamRefreshExpire
      (.ofString (env.toIsoExtendedString refreshExpire)) }

end Token

/-- `server2_hb` as far as tokens go. Token objects live in `heap`, below `next`;
a `token_ptr` is an index. The strings of the cache stand for the payloads whose
JSON text they are, its sets are lists. `calls` counts the calls of the client. -/
structure Server where
  heap : Nat → Token
  next : Nat
  tokens : List UInt8 → Option Nat
  cache : List UInt8 → Option Payload
  sets : List UInt8 → List (List UInt8)
  calls : Nat

/-- Code that may throw. What it has changed before stays changed. -/
abbrev Act := EStateM Unit Server

namespace Server

/-- One call of the client. -/
def redis (env : Surroundings) (f : Server → α × Server) : Act α := fun s =>
  let s := { s with calls := s.calls + 1 }
  if env.throws s.calls then .error () s else .ok (f s).1 (f s).2

def del (env : Surroundings) (keys : List (List UInt8)) : Act Unit :=
  redis env fun s => ((), { s with
    cache := fun k => if k ∈ keys then none else s.cache k
    sets := fun k => if k ∈ keys then [] else s.sets k })

/-- A time to live that is not positive is refused by an error reply, which
nobody reads. -/
def setex (env : Surroundings) (key : List UInt8) (seconds : Int) (value : Payload) : Act Unit :=
  redis env fun s => ((), if 0 < seconds then { s with cache := Maps.set s.cache key value } else s)

def srem (env : Surroundings) (key member : List UInt8) : Act Unit :=
  redis env fun s => ((), { s with
    sets := fun k => if k = key then (s.sets k).filter (· ≠ member) else s.sets k })

def sadd (env : Surroundings) (key member : List UInt8) : Act Unit :=
  redis env fun s => ((), { s with
    sets := fun k => if k = key ∧ member ∉ s.sets k then member :: s.sets k else s.sets k })

/-- `sync_commit`, and the wait for the reply behind it. -/
def syncCommit (env : Surroundings) : Act Unit := redis env fun s => ((), s)

def exist (env : Surroundings) (key : List UInt8) : Act Bool :=
  redis env fun s => ((s.cache key).isSome, s)

def get (env : Surroundings) (key : List UInt8) : Act (Option Payload) :=
  redis env fun s => (s.cache key, s)

/-- An exception where a conversion fails. -/
def orThrow (r : Option α) : Act α := fun s =>
  match r with
  | some a => .ok a s
  | none => .error () s

/-- `m_tokens_.insert` for both strings; neither replaces what is there. -/
def appendToken (token : Nat) : Act Unit := fun s =>
  let t := s.heap token
  .ok () { s with tokens := Maps.insert (Maps.insert s.tokens t.refreshToken token) t.accessToken token }

def removeToken (accessToken refreshToken : List UInt8) : Act Unit := fun s =>
  .ok () { s with tokens := Maps.erase (Maps.erase s.tokens refreshToken) accessToken }

/-- `remove_token` for an id. -/
def removeTokenId (tokenId : List UInt8) : Act Unit := fun s =>
  match s.tokens tokenId with
  | some token => removeToken (s.heap token).accessToken (s.heap token).refreshToken s
  | none => .ok () s

def updateTokens (token : Nat) (accessToken refreshToken : List UInt8) : Act Unit := do
  removeToken accessToken refreshToken
  appendToken token

/-- A new token object. -/
def makeToken (t : Token) : Act Nat := fun s =>
  .ok s.next { s with heap := fun i => if i = s.next then t else s.heap i, next := s.next + 1 }

end Server

namespace Surroundings

/-- The key of a token in the cache. -/
def tokenContext (env : Surroundings) (isAccessToken : Bool) (tokenId : List UInt8) : List UInt8 :=
  env.cacheDbContext ++ (if isAccessToken then ascii "at:" else ascii "rt:") ++ tokenId

/-- The token that a payload of the cache describes; `none` is an exception. -/
def tokenOf (env : Surroundings) (payload : Payload) : Option Token := do
  let accessToken ← (payload.at khlJsonParamAccessToken).asString
  let accessExpire ← env.fromIsoExtendedString (← (payload.at khlJsonParamAccessExpire).asString)
  let refreshToken ← (payload.at khlJsonParamRefreshToken).asString
  let refreshExpire ← env.fromIsoExtendedString (← (payload.at khlJsonParamRefreshExpire).asString)
  some ⟨accessToken, refreshToken, accessExpire, refreshExpire, payload⟩

end Surroundings

namespace Server

/-- `find_token`. A token in the map is returned whatever kind is asked for. -/
def findToken (env : Surroundings) (isAccessToken : Bool) (tokenId : List UInt8) :
    Act (Option Nat) :=
  if tokenId = [] then pure none
  else do
    match (← getThe Server).tokens tokenId with
    | some token => pure (some token)
    | none =>
      let context := env.tokenContext isAccessToken tokenId
      let found ← exist env context
      syncCommit env
      if found then
        let value ← get env context
        syncCommit env
        match value with
        | some payload =>
          let token ← makeToken (← orThrow (env.tokenOf payload))
          appendToken token
          pure (some token)
        | none => pure none
      else
        removeTokenId tokenId
        pure none

def escapeString (s : List UInt8) : List UInt8 :=
  s.flatMap fun c =>
    if c = 39 then [92, 39]
    else if c = lf then [92, 110]
    else if c = cr then []
    else [c]

def tokenMask : List UInt8 := ascii "Bearer" ++ ascii " "

/-- The id that a request presents; `none` is a bad format. -/
def requestTokenId (http : HttpHeader) : Option (List UInt8) :=
  match http.getHeaderParameter (ascii "Authorization") none with
  | some headerAuthorization =>
    let tokenId := escapeString headerAuthorization
    if tokenId.length ≤ tokenMask.length ∨ tokenId.take tokenMask.length ≠ tokenMask then none
    else some (tokenId.drop tokenMask.length)
  | none => some (escapeString ((http.getParameter (ascii "token") (some [])).getD []))

def parseToken (env : Surroundings) (http : HttpHeader) (isAccessToken : Bool)
    (check : Option Int) : Act (Option Nat) :=
  match requestTokenId http with
  | none => pure none
  | some id => do
    match ← findToken env isAccessToken id with
    | some token =>
      let t := (← getThe Server).heap token
      if t.isExpired isAccessToken check then
        removeToken t.accessToken t.refreshToken
        pure none
      else pure (some token)
    | none => pure none

/-- `get_parameter` for numbers. -/
def getIntParameter (http : HttpHeader) (key : List UInt8) (defaultValue : Int) : Int :=
  match http.getParameter key none with
  | some value => atoi value
  | none => defaultValue

def khlTokenAppendTime : Int := 2 * 60

/-- Addition of two numbers of type `int`. -/
def addInt (a b : Int) : Int := (a + b).bmod (2 ^ 32)

def seconds (n : Int) : Int := n * 1000000

/-- The members that `fill_json_token` writes; `token_type` is always the same. -/
structure TokenJson where
  accessToken : List UInt8
  refreshToken : List UInt8
  accessExpiresIn : Int
  refreshExpiresIn : Int
deriving DecidableEq

/-- Assigns to a token object. -/
def modifyToken (token : Nat) (f : Token → Token) : Act Unit := fun s =>
  .ok () { s with heap := fun i => if i = token then f (s.heap i) else s.heap i }

/-- The `try` block of `action_refresh_token`, with the time and the two random
strings that it draws. -/
def refreshToken (env : Surroundings) (http : HttpHeader) (now : Int)
    (accessToken refreshToken : List UInt8) : Act (Option TokenJson) := do
  match ← parseToken env http false (some now) with
  | none => pure none
  | some token =>
    let t := (← getThe Server).heap token
    let timeRefresh := getIntParameter http (ascii "time_refresh") (← orThrow t.getRefreshDuration)
    let timeAccess := getIntParameter http (ascii "time_access") (← orThrow t.getAccessDuration)
    let prevAccessToken := t.accessToken
    let prevRefreshToken := t.refreshToken
    let accessLife := addInt timeAccess khlTokenAppendTime
    let refreshLife := addInt timeRefresh khlTokenAppendTime
    modifyToken token fun t =>
      ((t.setAccessToken accessToken).setAccessDuration timeAccess).setAccessExpire env
        (now + seconds accessLife)
    modifyToken token fun t =>
      ((t.setRefreshToken refreshToken).setRefreshDuration timeRefresh).setRefreshExpire env
        (now + seconds refreshLife)
    let t := (← getThe Server).heap token
    let cacheSetValue ← orThrow (t.payload.at env.cacheSetTag).asString
    del env [prevAccessToken, prevRefreshToken]
    srem env (env.cacheDbContext ++ ascii "tt:" ++ cacheSetValue) prevRefreshToken
    setex env (env.tokenContext true accessToken) accessLife t.payload
    setex env (env.tokenContext false refreshToken) refreshLife t.payload
    sadd env (env.cacheDbContext ++ ascii "tt:" ++ cacheSetValue) refreshToken
    syncCommit env
    updateTokens token prevAccessToken prevRefreshToken
    let t := (← getThe Server).heap token
    pure (some ⟨t.accessToken, t.refreshToken, ← orThrow t.getAccessDuration,
      ← orThrow t.getRefreshDuration⟩)

/-- What the client is sent: the token, or a status. -/
inductive Reply
  | token (json : TokenJson)
  | status (code : Nat) (reason : List UInt8)
deriving DecidableEq

/-- `action_refresh_token`. An exception sets a status that the missing token
then replaces. -/
def actionRefreshToken (env : Surroundings) (http : HttpHeader) (now : Int)
    (accessToken refreshToken : List UInt8) (s : Server) : Reply × Server :=
  let (json, s) := match Server.refreshToken env http now accessToken refreshToken s with
    | .ok json s => (json, s)
    | .error _ s => (none, s)
  match json with
  | some json => (.token json, s)
  | none => (.status 401 (ascii "Unauthorized"), s)

end Server

end Khorost
