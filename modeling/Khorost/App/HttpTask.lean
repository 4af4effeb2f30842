import Khorost.App.HttpConnection

namespace Khorost

/-- What happens on a connection, in the order in which it happens. -/
inductive ConnectionEvent
  | dispatched (request : HttpHeader)
  | sent (bytes : List UInt8)
  | closed

namespace ConnectionEvent

def isClosed : ConnectionEvent → Bool
  | .closed => true
  | _ => false

/-- A request goes to `process_http` or bytes go to the peer. -/
def isLoud : ConnectionEvent → Bool
  | .closed => false
  | _ => true

end ConnectionEvent

/-- `bufferevent`: the bytes that have not left yet, whether `stub_conn_read`
is still called, and whether `stub_conn_write` is. -/
structure Bufferevent where
  output : List UInt8
  read : Bool
  write : Bool

/-- What `process_http` does with a request: what it hands to `send_data`, and
the value that `is_auto_close` has afterwards. -/
structure Answer (σ : Type) where
  server : σ
  sends : List (List UInt8)
  autoClose : Bool

/-- `server2_h::process_http` on a state of the server. -/
abbrev ProcessHttp (σ : Type) := σ → HttpHeader → Answer σ

/-- The side of a connection that answers. `m_bev` is null once it has been
freed; a call through it then ends the program. -/
structure Answers (σ : Type) where
  server : σ
  bev : Option Bufferevent
  crashed : Bool
  trace : List ConnectionEvent

namespace Answers

/-- `open_connection`. -/
def opened (server : σ) : Answers σ := ⟨server, some ⟨[], true, false⟩, false, []⟩

def sendData (a : Answers σ) (bytes : List UInt8) : Answers σ :=
  match a.bev with
  | none => { a with crashed := true }
  | some bev => { a with
      bev := some { bev with output := bev.output ++ bytes }
      trace := a.trace ++ [.sent bytes] }

/-- `connection::close_connection`: with bytes left it stops reading and waits
until they are gone, else it frees the bufferevent at once. -/
def closeConnection (a : Answers σ) : Answers σ :=
  match a.bev with
  | none => { a with crashed := true }
  | some bev =>
    if bev.output.length ≠ 0 then { a with
      bev := some { bev with read := false, write := true }
      trace := a.trace ++ [.closed] }
    else { a with bev := none, trace := a.trace ++ [.closed] }

def processing (processHttp : ProcessHttp σ) (a : Answers σ) (h : HttpHeader) : Answers σ :=
  let answer := processHttp a.server h
  let a := answer.sends.foldl sendData
    { a with server := answer.server, trace := a.trace ++ [.dispatched h] }
  if answer.autoClose then a.closeConnection else a

/-- The peer has taken `n` bytes. `stub_conn_write` deletes the connection when
none are left. -/
def flushed (a : Answers σ) (n : Nat) : Answers σ :=
  match a.bev with
  | none => a
  | some bev =>
    let output := bev.output.drop n
    if bev.write ∧ output.length = 0 then { a with bev := none }
    else { a with bev := some { bev with output := output } }

/-- Whether an arrival is given to `stub_conn_read`. -/
def reading (a : Answers σ) : Bool := a.bev.any (·.read)

end Answers

/-- `server2_h::http_connection` with the answers to its requests. -/
structure Conversation (σ : Type) where
  http : HttpConnection
  answers : Answers σ

namespace Conversation

/-- `http_connection::data_processing`. A program that has ended goes no further:
the loop is left as if nothing had been processed. -/
def dataProcessing (u : Uninitialised) (processHttp : ProcessHttp σ) :
    DataProcessing (Conversation σ) :=
  fun c buffer bufferSize => do
    let d := c.http
    let (h, processBytes) ← (d.processor u).processData buffer bufferSize (u.chunkSize d.calls)
    if processBytes ≠ 0 ∧ h.isReady then
      let answers := c.answers.processing processHttp h
      some (⟨⟨none, d.processed ++ [(h, d.taken + processBytes)], d.calls + 1, d.createdAfter, 0⟩,
        answers⟩, if answers.crashed then 0 else processBytes)
    else
      some (⟨⟨some h, d.processed, d.calls + 1, d.createdAfter, d.taken + processBytes⟩,
        c.answers⟩, processBytes)

/-- What the event loop does with a connection. -/
inductive Happening
  | arrived (data : List UInt8)
  | flushed (n : Nat)
  | ended

def step (u : Uninitialised) (processHttp : ProcessHttp σ) (c : Connection (Conversation σ)) :
    Happening → Connection (Conversation σ)
  | .arrived data =>
    if c.derived.answers.reading then c.stubConnRead (dataProcessing u processHttp) data else c
  | .flushed n => { c with derived := { c.derived with answers := c.derived.answers.flushed n } }
  -- `stub_conn_event` deletes the connection
  | .ended => { c with derived :=
      { c.derived with answers := { c.derived.answers with bev := none } } }

/-- A connection from `open_connection` on. -/
def run (u : Uninitialised) (processHttp : ProcessHttp σ) (fresh : Nat → UInt8) (server : σ)
    (happenings : List Happening) : Connection (Conversation σ) :=
  happenings.foldl (step u processHttp) (Connection.idle fresh ⟨HttpConnection.start, .opened server⟩)

/-- The connection without its answers. -/
def parsing (c : Connection (Conversation σ)) : Connection HttpConnection :=
  ⟨c.socketBuffer, c.receiveBytes, c.fault, c.derived.http⟩

end Conversation

end Khorost
