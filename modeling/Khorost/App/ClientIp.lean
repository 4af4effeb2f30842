import Khorost.Net.Accessors

namespace Khorost

/-- A socket address: its family, and the address and the port of the two
families that are known. -/
structure SockAddr where
  saFamily : Nat
  address : List UInt8
  port : UInt16

def afInet : Nat := 2

def afInet6 : Nat := 10

/-- What is used of libevent. `inetNtop` writes an address as a text or fails.
`snprintf` prints into a buffer as far as there is room and terminates it. -/
structure Libevent where
  inetNtop : Nat → List UInt8 → Option (List UInt8)
  snprintf : List UInt8 → List UInt8 → List UInt8
  prints : ∀ {out}, out ≠ [] → ∀ text, ∃ stale,
    snprintf out text = text.take (out.length - 1) ++ nul :: stale
  room : ∀ out text, (snprintf out text).length = out.length

/-- `strncpy(buffer, source, buffer_size)` for the string `source`. -/
def strncpy (buffer source : List UInt8) : List UInt8 :=
  source.take buffer.length ++ List.replicate (buffer.length - source.length) nul

/-- `x_evutil_format_sockaddr_port`, with what it leaves in `out`. -/
def xEvutilFormatSockaddrPort (ev : Libevent) (sa : SockAddr) (out : List UInt8) : List UInt8 :=
  let port := numberText sa.port.toNat
  let res := if sa.saFamily = afInet ∨ sa.saFamily = afInet6 then
    ev.inetNtop sa.saFamily sa.address else none
  match res with
  | some b =>
    if sa.saFamily = afInet then ev.snprintf out (b ++ ascii ":" ++ port)
    else ev.snprintf out (ascii "[" ++ b ++ ascii "]:" ++ port)
  | none =>
    ev.snprintf out (ascii "<addr with socktype " ++ numberText sa.saFamily ++ ascii ">")

/-- The loop of `get_client_ip`. -/
def endAtColon : List UInt8 → List UInt8
  | [] => []
  | c :: buffer =>
    if c = nul then c :: buffer else if c = colon then nul :: buffer else c :: endAtColon buffer

/-- `connection::get_client_ip`. -/
def connectionGetClientIp (ev : Libevent) (sa : SockAddr) (buffer : List UInt8) : List UInt8 :=
  endAtColon (xEvutilFormatSockaddrPort ev sa buffer)

namespace HttpHeader.Checked

def getHeaderIndex (h : HttpHeader) (key : List UInt8) : Option (Option Nat) :=
  (h.abHeader.findName key h.headerValues).map fun found => found.map (·.2)

/-- `get_client_proxy_ip`; the inner `none` is a null pointer. -/
def getClientProxyIp (h : HttpHeader) : Option (Option (List UInt8)) := do
  match ← getHeaderIndex h (ascii "X-Forwarded-For") with
  | some idx => (h.abHeader.stringAt idx).map some
  | none =>
    match ← getHeaderIndex h (ascii "X-Real-IP") with
    | some idx => (h.abHeader.stringAt idx).map some
    | none => some none

/-- `http_connection::get_client_ip`, with what it leaves in the buffer. `none` is
a read outside of the header. -/
def getClientIp (ev : Libevent) (h : HttpHeader) (sa : SockAddr) (buffer : List UInt8) :
    Option (List UInt8) := do
  match ← getClientProxyIp h with
  | some cpi => some (strncpy buffer cpi)
  | none => some (connectionGetClientIp ev sa buffer)

end HttpHeader.Checked

end Khorost
