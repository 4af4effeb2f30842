import Khorost.Net.MultiPart

namespace Khorost

/-- A number in decimal. -/
def decimalText (n : Nat) : List UInt8 := (Nat.toDigits 10 n).map (fun c => UInt8.ofNat c.toNat)

/-- `sprintf("%d")`. -/
def signedText (n : Int) : List UInt8 :=
  if n < 0 then 45 :: decimalText n.natAbs else decimalText n.natAbs

/-- `connection::send_number`: an `unsigned int` printed as an `int`. -/
def numberText (n : Int) : List UInt8 := signedText (n.bmod (2 ^ 32))

/-- `struct tm`, with the year and the month as they are printed. -/
structure Tm where
  year : Int
  month : Nat
  day : Nat
  hour : Nat
  minute : Nat
  second : Nat
  weekday : Nat

/-- `gmtime`, with years that begin in March. -/
def gmtime (t : Int) : Tm :=
  let days := t / 86400
  let rest := (t % 86400).toNat
  let era := (days + 719468) / 146097
  let dayOfEra := ((days + 719468) % 146097).toNat
  let yearOfEra := (dayOfEra - dayOfEra / 1460 + dayOfEra / 36524 - dayOfEra / 146096) / 365
  let dayOfYear := dayOfEra - (365 * yearOfEra + yearOfEra / 4 - yearOfEra / 100)
  let m := (5 * dayOfYear + 2) / 153
  let month := if m < 10 then m + 3 else m - 9
  { year := yearOfEra + era * 400 + (if month ≤ 2 then 1 else 0)
    month := month
    day := dayOfYear - (153 * m + 2) / 5 + 1
    hour := rest / 3600
    minute := rest / 60 % 60
    second := rest % 60
    weekday := ((days + 4) % 7).toNat }

def weekdayText (n : Nat) : List UInt8 :=
  ascii (["Sun", "Mon", "Tue", "Wed", "Thu", "Fri", "Sat"].getD n "?")

def monthText (n : Nat) : List UInt8 :=
  ascii (["Jan", "Feb", "Mar", "Apr", "May", "Jun", "Jul", "Aug", "Sep", "Oct", "Nov", "Dec"].getD
    (n - 1) "?")

/-- A number in at least two digits. -/
def twoDigits (n : Nat) : List UInt8 := if n < 10 then 48 :: decimalText n else decimalText n

/-- The conversions that the formats of the source use. -/
def conversion (tm : Tm) : UInt8 → List UInt8
  | 97 => weekdayText tm.weekday
  | 98 => monthText tm.month
  | 100 => twoDigits tm.day
  | 89 => signedText tm.year
  | 72 => twoDigits tm.hour
  | 77 => twoDigits tm.minute
  | 83 => twoDigits tm.second
  | _ => []

def strftime (tm : Tm) : List UInt8 → List UInt8
  | 37 :: c :: format => conversion tm c ++ strftime tm format
  | c :: format => c :: strftime tm format
  | [] => []

example : strftime (gmtime 784111777) (ascii "%a, %d %b %Y %H:%M:%S GMT") =
    ascii "Sun, 06 Nov 1994 08:49:37 GMT" := by decide +kernel

/-- `response::cookie`. Of a point in time only its seconds since the epoch are
read, here and below. -/
structure Cookie where
  nameCookie : List UInt8
  value : List UInt8
  expire : Int
  domain : List UInt8
  httpOnly : Bool

/-- `response`. A `m_last_modify` that is not a date is `none`. -/
structure Response where
  headerParams : List (List UInt8 × List UInt8)
  cookies : List Cookie
  autoClose : Bool
  code : Int
  codeReason : List UInt8
  contentType : List UInt8
  contentTypeCodepage : List UInt8
  lastModify : Option Int
  contentDisposition : List UInt8
  redirectUrl : List UInt8
  contentLength : Nat

namespace Response

/-- The response of a new parser, after `clear`. -/
def cleared : Response where
  headerParams := []
  cookies := []
  autoClose := true
  code := 200
  codeReason := ascii "Ok"
  contentType := ascii "text/html"
  contentTypeCodepage := ascii "UTF-8"
  lastModify := none
  contentDisposition := []
  redirectUrl := []
  contentLength := 0

/-- An insertion into a `std::map`: in the order of the keys, and without effect
if the key is there. -/
def insertParam (key value : List UInt8) :
    List (List UInt8 × List UInt8) → List (List UInt8 × List UInt8)
  | [] => [(key, value)]
  | (k, v) :: params =>
    if key < k then (key, value) :: (k, v) :: params
    else if k < key then (k, v) :: insertParam key value params
    else (k, v) :: params

def setHeaderParam (r : Response) (key value : List UInt8) : Response :=
  { r with headerParams := insertParam key value r.headerParams }

end Response

/-- `http_text_protocol_header` with its response and what `get_host` remembers. -/
structure HttpProcessor where
  header : HttpHeader
  host : Option Nat
  port : Option Nat
  response : Response

/-- Where the loop of `calculate_host_port` stops, and whether at a colon. -/
def hostEnd : List UInt8 → Option (Nat × Bool)
  | [] => none
  | c :: memory =>
    if c = nul then some (0, false)
    else if c = colon then some (0, true)
    else (hostEnd memory).map (fun r => (r.1 + 1, r.2))

/-- What `process_http` may do with a request before it sends the response. A
cookie without a domain gets that of `get_host`. -/
inductive ResponseCall
  | getHost
  | getPort
  | setCookie (cookie value : List UInt8) (expire : Int) (domain : Option (List UInt8))
      (httpOnly : Bool)
  | setResponseStatus (code : Int) (codeReason : List UInt8)
  | setRedirect (code : Int) (redirectUrl : List UInt8)
  | setContentType (contentType contentTypeCodepage : List UInt8)
  | setContentDisposition (contentDisposition : List UInt8)
  | setLastModify (lastModify : Option Int)
  | setHeaderParam (key value : List UInt8)

/-- What `send_response` hands to `send_data`. -/
structure SentResponse where
  head : List (List UInt8)
  body : List (List UInt8)
  processor : HttpProcessor

namespace HttpProcessor

def ofRequest (h : HttpHeader) : HttpProcessor := ⟨h, none, none, .cleared⟩

def getHeaderIndex (p : HttpProcessor) (key : List UInt8) : Option Nat :=
  (p.header.headerValues.find? (fun v => strcaseEq key (p.header.headerText v.1))).map (·.2)

def calculateHostPort (p : HttpProcessor) : Option HttpProcessor :=
  match p.getHeaderIndex (ascii "Host") with
  | none => some p
  | some idx => do
    let (n, atColon) ← hostEnd (p.header.abHeader.buffer.drop idx)
    if atColon then
      some { p with
        header := { p.header with abHeader := p.header.abHeader.set (idx + n) nul }
        host := some idx
        port := some (idx + n + 1) }
    else some { p with host := some idx, port := some 0 }

/-- `if (m_host_ == std::string::npos) calculate_host_port()`. -/
def withHost (p : HttpProcessor) : Option HttpProcessor :=
  if p.host.isNone then p.calculateHostPort else some p

def getHost (p : HttpProcessor) : Option (List UInt8 × HttpProcessor) := do
  let p ← p.withHost
  match p.host with
  | none => some ([], p)
  | some idx => some (p.header.headerText idx, p)

def getPort (p : HttpProcessor) : Option (List UInt8 × HttpProcessor) := do
  let p ← p.withHost
  match p.port with
  | none | some 0 => some ([], p)
  | some idx => some (p.header.headerText idx, p)

def addCookie (p : HttpProcessor) (cookie : Cookie) : HttpProcessor :=
  { p with response := { p.response with cookies := p.response.cookies ++ [cookie] } }

def setResponseStatus (p : HttpProcessor) (code : Int) (codeReason : List UInt8) : HttpProcessor :=
  { p with response := { p.response with code := code, codeReason := codeReason } }

def perform (p : HttpProcessor) : ResponseCall → Option HttpProcessor
  | .getHost => p.getHost.map (·.2)
  | .getPort => p.getPort.map (·.2)
  | .setCookie cookie value expire (some domain) httpOnly =>
    some (p.addCookie ⟨cookie, value, expire, domain, httpOnly⟩)
  | .setCookie cookie value expire none httpOnly =>
    p.getHost.map (fun (domain, p) => p.addCookie ⟨cookie, value, expire, domain, httpOnly⟩)
  | .setResponseStatus code codeReason => some (p.setResponseStatus code codeReason)
  | .setRedirect code redirectUrl =>
    some ({ p with response := { p.response with
      redirectUrl := redirectUrl } }.setResponseStatus code (ascii "Redirect"))
  | .setContentType contentType contentTypeCodepage => some { p with response := { p.response with
      contentType := contentType
      contentTypeCodepage := contentTypeCodepage } }
  | .setContentDisposition contentDisposition =>
    some { p with response := { p.response with contentDisposition := contentDisposition } }
  | .setLastModify lastModify =>
    some { p with response := { p.response with lastModify := lastModify } }
  | .setHeaderParam key value => some { p with response := p.response.setHeaderParam key value }

def isSendData (p : HttpProcessor) : Option Bool :=
  p.header.getQueryMethod.map (fun method => !strcaseEq method (ascii "HEAD"))

def cookieText (c : Cookie) : List UInt8 :=
  ascii "Set-Cookie: " ++ c.nameCookie ++ ascii "=" ++ c.value ++ ascii "; Expires=" ++
    strftime (gmtime c.expire) (ascii "%a, %d-%b-%Y %H:%M:%S GMT") ++ ascii "; Domain=." ++
    c.domain ++ ascii "; Path=/" ++ (if c.httpOnly then ascii "; HttpOnly " else []) ++ endl

/-- What the `Connection` header says, or what it stands for without one. -/
def connectionText (p : HttpProcessor) (version : List UInt8) : List UInt8 :=
  (p.header.getHeaderParameter (ascii "Connection") none).getD
    (if version = ascii "HTTP/1.1" then ascii "keep-alive" else ascii "close")

/-- The sends of `send_response` up to the empty line, `now` being the time. -/
def headSends (r : Response) (version connection : List UInt8) (now : Int) : List (List UInt8) :=
  [version, [space], numberText r.code, [space], r.codeReason, endl,
    ascii "Server: phreeber" ++ endl,
    ascii "Date: ", strftime (gmtime now) (ascii "%a, %d %b %Y %H:%M:%S GMT"), endl] ++
  (if r.redirectUrl ≠ [] then [ascii "Location: ", r.redirectUrl, endl] else []) ++
  [ascii "Connection: " ++ connection ++ endl] ++
  r.cookies.map cookieText ++
  [ascii "Content-Type: " ++ r.contentType] ++
  (if r.contentTypeCodepage ≠ [] then [ascii "; charset=" ++ r.contentTypeCodepage] else []) ++
  [endl] ++
  (if r.contentDisposition ≠ [] then [ascii "Content-Disposition: " ++ r.contentDisposition, endl]
    else []) ++
  [ascii "Content-Length: ", numberText r.contentLength, endl] ++
  (match r.lastModify with
    | some lastModify => [ascii "Last-Modified: ",
        strftime (gmtime lastModify) (ascii "%a, %d-%b-%Y %H:%M:%S GMT"), endl]
    | none => []) ++
  r.headerParams.flatMap (fun param => [param.1, ascii ": ", param.2, endl]) ++
  [endl]

/-- `send_string` with a length: what is sent of the memory behind `response`. -/
def sendBody (p : HttpProcessor) (response : Option (List UInt8)) :
    Option (List (List UInt8)) := do
  let sendData ← p.isSendData
  match response with
  | none => some []
  | some memory =>
    let length := p.response.contentLength
    if sendData = false then some []
    else if length = npos then some [cStr memory]
    else if length ≤ memory.length then some [memory.take length]
    else none

/-- The fields of the response that `send_response` sets itself. -/
def respond (p : HttpProcessor) (connection : List UInt8) (length : Nat) : HttpProcessor :=
  { p with response := { p.response with
    contentLength := length
    autoClose := connection ≠ ascii "keep-alive" } }

/-- `send_response`, with the memory behind `response` unless it is null. A
version that is not valid has no text. -/
def sendResponse (p : HttpProcessor) (now : Int) (response : Option (List UInt8))
    (length : Nat) : Option SentResponse := do
  let version ← p.header.getQueryVersion
  let connection := p.connectionText version
  let p := p.respond connection length
  let body ← p.sendBody response
  some ⟨headSends p.response version connection now, body, p⟩

end HttpProcessor

end Khorost
