import Khorost.App.HttpTask

namespace Khorost

/-- `http_controller`: the connections that it has accepted, in their order, and the
server that they share. One thread serves them all, so that a callback ends before
the next one begins. -/
structure HttpController (σ : Type) where
  server : σ
  connections : List (Connection (Conversation σ))

/-- The connection with the server as it is now. -/
def Connection.withServer (server : σ) (c : Connection (Conversation σ)) :
    Connection (Conversation σ) :=
  { c with derived := { c.derived with answers := { c.derived.answers with server := server } } }

namespace HttpController

/-- The callbacks of the event loop, and what is done to the server elsewhere. -/
inductive Event (τ : Type)
  | accepted (fresh : Nat → UInt8)
  | happened (index : Nat) (happening : Conversation.Happening)
  | elsewhere (event : τ)

def addConnection (fresh : Nat → UInt8) (s : HttpController σ) : HttpController σ :=
  { s with connections := s.connections ++
    [Connection.idle fresh ⟨HttpConnection.start, .opened s.server⟩] }

/-- Something happens on one of the connections. -/
def happen (u : Nat → Uninitialised) (processHttp : ProcessHttp σ) (index : Nat)
    (happening : Conversation.Happening) (s : HttpController σ) : HttpController σ :=
  match s.connections[index]? with
  | none => s
  | some c =>
    let c := Conversation.step (u index) processHttp (c.withServer s.server) happening
    ⟨c.derived.answers.server, s.connections.set index c⟩

def step (u : Nat → Uninitialised) (processHttp : ProcessHttp σ) (elsewhere : τ → σ → σ)
    (s : HttpController σ) : Event τ → HttpController σ
  | .accepted fresh => s.addConnection fresh
  | .happened index happening => s.happen u processHttp index happening
  | .elsewhere event => { s with server := elsewhere event s.server }

/-- From `start_listen` on. -/
def run (u : Nat → Uninitialised) (processHttp : ProcessHttp σ) (elsewhere : τ → σ → σ)
    (server : σ) (events : List (Event τ)) : HttpController σ :=
  events.foldl (step u processHttp elsewhere) ⟨server, []⟩

end HttpController

end Khorost
