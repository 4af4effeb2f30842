import Khorost.App.Tokens
import Khorost.Net.Session
import Khorost.Util.JsonValue

namespace Khorost

/-- A row of `admin.khl_tokens`. For an id of the type `uuid` stand its 32 digits, for
a `jsonb` its members; a time is the number of microseconds since the epoch. -/
structure TokenRow where
  accessToken : List UInt8
  accessTime : Int
  refreshToken : List UInt8
  refreshTime : Int
  payload : Payload

/-- What the database has for a transaction: its time, and the ids that
`uuid_generate_v4` draws. -/
structure TokenMoment where
  now : Int
  accessToken : List UInt8
  refreshToken : List UInt8

abbrev TokenRows := List TokenRow

namespace TokenRow

/-- The token that a row is read into. -/
def token (r : TokenRow) : Token :=
  ⟨r.accessToken, r.refreshToken, r.accessTime, r.refreshTime, r.payload⟩

/-- The id of the row that a token of the kind has. -/
def id (isAccessToken : Bool) (r : TokenRow) : List UInt8 :=
  if isAccessToken then r.accessToken else r.refreshToken

end TokenRow

namespace TokenRows

/-- So many seconds. The sum is one of `int`: where it overflows, which the language
leaves undefined, the operation is modelled as one that throws. -/
def interval (timeout appendTime : Int) : Option Int :=
  if JsonValue.minInt ≤ timeout + appendTime ∧ timeout + appendTime ≤ JsonValue.maxInt then
    some (fromTimeT (timeout + appendTime))
  else none

/-- The payload with the timeouts of a token. -/
def tokenPayload (accessTimeout refreshTimeout : Int) (payload : Payload) : Payload :=
  Maps.set (Maps.set payload khlJsonParamDeltaAccessTime (.ofInt accessTimeout))
    khlJsonParamDeltaRefreshTime (.ofInt refreshTimeout)

/-- `create_token`; `none` is an exception, here and below, with the table as it was. -/
def createToken (m : TokenMoment) (accessTimeout refreshTimeout appendTime : Int)
    (payload : Payload) (rows : TokenRows) : Option (Token × TokenRows) := do
  let accessInterval ← interval accessTimeout appendTime
  let refreshInterval ← interval refreshTimeout appendTime
  let row : TokenRow := ⟨m.accessToken, m.now + accessInterval, m.refreshToken,
    m.now + refreshInterval, tokenPayload accessTimeout refreshTimeout payload⟩
  some (row.token, rows ++ [row])

/-- `load_token`; `uuid` is how the database reads the text of an id. -/
def loadToken (uuid : List UInt8 → Option (List UInt8)) (isAccessToken : Bool)
    (tokenId : List UInt8) (rows : TokenRows) : Option (Option Token) := do
  let id ← uuid tokenId
  some ((rows.find? fun r => r.id isAccessToken = id).map (·.token))

/-- A timeout of zero stands for the one in the payload of the row. -/
def renewed (timeout : Int) (key : List UInt8) (appendTime : Int) (r : TokenRow) : Option Int :=
  if timeout ≠ 0 then interval timeout appendTime
  else (r.payload key).bind fun delta => delta.asInt.bind fun n => interval n appendTime

/-- `UPDATE`: the times of the old row end now. -/
def endNow (now : Int) (id : List UInt8) (rows : TokenRows) : TokenRows :=
  rows.map fun r => if r.refreshToken = id then { r with accessTime := now, refreshTime := now } else r

/-- `refresh_token`. The payload goes over to the new row, and the token gets the new
ids and times. -/
def refreshToken (env : Surroundings) (uuid : List UInt8 → Option (List UInt8)) (m : TokenMoment)
    (accessTimeout refreshTimeout appendTime : Int) (token : Token) (rows : TokenRows) :
    Option (Token × TokenRows) := do
  let preRefreshToken ← uuid token.refreshToken
  match rows.find? fun r => r.refreshToken = preRefreshToken with
  | none => some (token, rows)
  | some r =>
    let accessInterval ← renewed accessTimeout khlJsonParamDeltaAccessTime appendTime r
    let refreshInterval ← renewed refreshTimeout khlJsonParamDeltaRefreshTime appendTime r
    let row : TokenRow := ⟨m.accessToken, m.now + accessInterval, m.refreshToken,
      m.now + refreshInterval, r.payload⟩
    let token := (token.setAccessToken row.accessToken).setAccessExpire env row.accessTime
    let token := (token.setRefreshToken row.refreshToken).setRefreshExpire env row.refreshTime
    some (token, endNow m.now preRefreshToken rows ++ [row])

end TokenRows

end Khorost
