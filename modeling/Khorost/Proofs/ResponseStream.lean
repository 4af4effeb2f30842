import Khorost.App.HttpController
import Khorost.Lib.Messages
import Khorost.Proofs.Announced

namespace Khorost

open Messages

def lengthName : List UInt8 := ascii "Content-Length: "

/-- The number of a `Content-Length` line behind the status line. -/
def announcedLength (lines : List (List UInt8)) : Option Nat :=
  ((lines.drop 1).find? lengthName.isPrefixOf).bind fun line =>
    let number := line.drop lengthName.length
    if number ≠ [] ∧ number.all isDigit then some (digitsValue number) else none

/-- The client knows that a response to a HEAD has no content. -/
def HttpHeader.isHead (h : HttpHeader) : Bool :=
  h.getQueryMethod.any fun method => strcaseEq method (ascii "HEAD")

def HttpHeader.responseLength (h : HttpHeader) : Length UInt8 :=
  if h.isHead then fun _ => some 0 else announcedLength

/-- What is sent is one message that the client of the request can read. -/
def IsResponse (h : HttpHeader) (sends : List (List UInt8)) : Prop :=
  ∃ m, Fits cr lf h.responseLength m ∧ sends.flatten = m.text cr lf

/-- The requests that have been dispatched on a connection. -/
def dispatchedOn (trace : List ConnectionEvent) : List HttpHeader :=
  trace.filterMap fun
    | .dispatched request => some request
    | _ => none

def sentOn (trace : List ConnectionEvent) : List UInt8 :=
  trace.flatMap fun
    | .sent bytes => bytes
    | _ => []

/-- The client of the connection reads a response to each of the requests, and
nothing else. -/
def ReadsResponses (trace : List ConnectionEvent) : Prop :=
  ∃ ms, ms.length = (dispatchedOn trace).length ∧
    readAll cr lf ((dispatchedOn trace).map (·.responseLength)) (sentOn trace) = some (ms, [])

/-- A server that answers every request with one response, as long as it is alive;
`Inv` holds of all its states. -/
structure Responds (processHttp : ProcessHttp σ) (Inv Alive : σ → Prop) : Prop where
  keeps : ∀ s h, Inv s → Inv (processHttp s h).server
  was : ∀ s h, Alive (processHttp s h).server → Alive s
  response : ∀ s h, Inv s → Alive (processHttp s h).server → h.ReachedForward →
    h.isReady = true → IsResponse h (processHttp s h).sends

/-- The sent bytes are the texts of responses to the dispatched requests. -/
def Framed (trace : List ConnectionEvent) : Prop :=
  ∃ ms, List.Forall₂ (Fits cr lf) ((dispatchedOn trace).map (·.responseLength)) ms ∧
    sentOn trace = ms.flatMap (·.text cr lf)

theorem Framed.reads (h : Framed trace) : ReadsResponses trace := by
  obtain ⟨ms, hfits, hsent⟩ := h
  refine ⟨ms, ?_, ?_⟩
  · simpa using hfits.length_eq.symm
  · rw [hsent]
    simpa using read_all hfits []

theorem dispatched_append (trace later : List ConnectionEvent) :
    dispatchedOn (trace ++ later) = dispatchedOn trace ++ dispatchedOn later :=
  List.filterMap_append

theorem sent_append (trace later : List ConnectionEvent) :
    sentOn (trace ++ later) = sentOn trace ++ sentOn later := List.flatMap_append

theorem dispatched_sends (sends : List (List UInt8)) :
    dispatchedOn (sends.map .sent) = [] := by
  induction sends with
  | nil => rfl
  | cons bytes sends ih => exact ih

theorem sent_sends (sends : List (List UInt8)) : sentOn (sends.map .sent) = sends.flatten := by
  induction sends with
  | nil => rfl
  | cons bytes sends ih => exact congrArg (bytes ++ ·) ih

theorem closes_silent (h : ∀ e ∈ closes, e = ConnectionEvent.closed) :
    dispatchedOn closes = [] ∧ sentOn closes = [] := by
  induction closes with
  | nil => exact ⟨rfl, rfl⟩
  | cons e closes ih =>
    obtain ⟨rfl, hrest⟩ := List.forall_mem_cons.mp h
    exact ih hrest

theorem Framed.answered (h : Framed trace) (hresponse : IsResponse request sends)
    (hclosed : ∀ e ∈ closes, e = ConnectionEvent.closed) :
    Framed (trace ++ (.dispatched request :: sends.map .sent ++ closes)) := by
  obtain ⟨ms, hfits, hsent⟩ := h
  obtain ⟨m, hm, htext⟩ := hresponse
  obtain ⟨hnone, hsilent⟩ := closes_silent hclosed
  have hdispatched : dispatchedOn (.dispatched request :: sends.map .sent ++ closes) =
      [request] := by
    rw [dispatched_append, hnone, List.append_nil]
    exact congrArg (request :: ·) (dispatched_sends sends)
  have hbytes : sentOn (.dispatched request :: sends.map .sent ++ closes) = m.text cr lf := by
    rw [sent_append, hsilent, List.append_nil, ← htext]
    exact sent_sends sends
  refine ⟨ms ++ [m], ?_, ?_⟩
  · rw [dispatched_append, hdispatched, List.map_append]
    exact List.rel_append hfits (.cons hm .nil)
  · rw [sent_append, hbytes, hsent]
    simp

namespace Answers

variable {processHttp : ProcessHttp σ} {a : Answers σ}

theorem send_crashed (h : a.crashed = true) (bytes : List UInt8) :
    (a.sendData bytes).crashed = true := by
  unfold sendData
  cases a.bev with
  | none => rfl
  | some bev => exact h

theorem sends_crashed (h : a.crashed = true) (sends : List (List UInt8)) :
    (sends.foldl sendData a).crashed = true := by
  induction sends generalizing a with
  | nil => exact h
  | cons bytes sends ih => exact ih (send_crashed h bytes)

theorem close_crashed (h : a.crashed = true) : a.closeConnection.crashed = true := by
  unfold closeConnection
  cases a.bev with
  | none => rfl
  | some bev =>
    dsimp only
    split
    · exact h
    · exact h

/-- A request that has been answered on a connection that was still there. -/
theorem processing_trace (hsends : (processHttp a.server h).sends ≠ [])
    (hcrash : (a.processing processHttp h).crashed = false) :
    a.crashed = false ∧ ∃ closes, (∀ e ∈ closes, e = ConnectionEvent.closed) ∧
      (a.processing processHttp h).trace = a.trace ++
        (.dispatched h :: (processHttp a.server h).sends.map .sent ++ closes) := by
  have hbefore : a.crashed = false := by
    cases hc : a.crashed with
    | false => rfl
    | true =>
      have hafter : (a.processing processHttp h).crashed = true := by
        have hsent := sends_crashed (a := { a with
          server := (processHttp a.server h).server
          trace := a.trace ++ [.dispatched h] }) hc (processHttp a.server h).sends
        rw [processing]
        split
        · exact close_crashed hsent
        · exact hsent
      rw [hafter] at hcrash
      exact hcrash
  refine ⟨hbefore, ?_⟩
  cases hbev : a.bev with
  | none =>
    obtain ⟨bytes, sends, hcons⟩ := List.exists_cons_of_ne_nil hsends
    have hafter : (a.processing processHttp h).crashed = true := by
      have hsent : ((processHttp a.server h).sends.foldl sendData { a with
          server := (processHttp a.server h).server
          trace := a.trace ++ [.dispatched h] }).crashed = true := by
        rw [hcons, List.foldl_cons]
        apply sends_crashed
        rw [sendData, hbev]
      rw [processing]
      split
      · exact close_crashed hsent
      · exact hsent
    rw [hafter] at hcrash
    cases hcrash
  | some bev =>
    obtain ⟨output, r, w⟩ := bev
    have hsent := send_all (a := { a with
      server := (processHttp a.server h).server
      trace := a.trace ++ [.dispatched h] }) hbev (processHttp a.server h).sends
    rw [processing, hsent]
    dsimp only
    split
    · refine ⟨[.closed], by simp, ?_⟩
      rw [(close_some rfl).1]
      simp
    · refine ⟨[], by simp, ?_⟩
      simp

/-- A flush touches the bytes that have not left, and nothing else. -/
theorem flushed_kept (a : Answers σ) (n : Nat) : (a.flushed n).server = a.server ∧
    (a.flushed n).crashed = a.crashed ∧ (a.flushed n).trace = a.trace := by
  unfold flushed
  cases a.bev with
  | none => exact ⟨rfl, rfl, rfl⟩
  | some bev =>
    dsimp only
    split
    · exact ⟨rfl, rfl, rfl⟩
    · exact ⟨rfl, rfl, rfl⟩

end Answers

namespace Conversation

/-- What happens leads to no call of the parser that moves the fill of the header buffer
back. -/
def Forward (u : Uninitialised) (c : Connection (Conversation σ)) : Happening → Prop
  | .arrived data => c.derived.answers.reading = true →
    (parsing c).ReadCalls (HttpConnection.StaysForward u) (HttpConnection.dataProcessing u) data
  | .flushed _ => True
  | .ended => True

/-- The parser of a conversation is called as one without answers. -/
theorem call_http {c c' : Conversation σ} (h : dataProcessing u processHttp c m k = some (c', n))
    (hn : n ≠ 0) : HttpConnection.dataProcessing u c.http m k = some (c'.http, n) := by
  obtain ⟨⟨request, processed⟩, hprocess, h⟩ := Option.bind_eq_some_iff.mp h
  dsimp only at h
  split at h
  · next hready =>
    cases hcrash : (c.answers.processing processHttp request).crashed with
    | true =>
      rw [hcrash] at h
      cases h
      exact absurd rfl hn
    | false =>
      rw [hcrash] at h
      cases h
      exact HttpConnection.processing_serves hprocess hready
  · next hready =>
    cases h
    exact HttpConnection.processing_waits hprocess hready

theorem Forward.calls {c : Connection (Conversation σ)} (h : Forward u c (.arrived data))
    (hreading : c.derived.answers.reading = true) (processHttp : ProcessHttp σ) :
    c.ReadCalls (fun d => HttpConnection.StaysForward u d.http) (dataProcessing u processHttp) data :=
  fun hfault hdata => (h hreading hfault hdata).lift fun _ _ _ _ _ he hn => call_http he hn

variable {processHttp : ProcessHttp σ} {Inv Alive : σ → Prop} {u : Uninitialised}

/-- What holds of a conversation at all times. -/
structure Streams (Inv Alive : σ → Prop) (c : Conversation σ) : Prop where
  reached : ∀ h ∈ c.http.httpProcessor, h.ReachedForward
  inv : Inv c.answers.server
  framed : Alive c.answers.server → c.answers.crashed = false → Framed c.answers.trace

theorem text_nonempty (m : Message UInt8) : m.text cr lf ≠ [] := by
  simp [Message.text, Lines.block]

theorem Streams.answered (hserver : Responds processHttp Inv Alive) {c : Conversation σ}
    (hs : Streams Inv Alive c) (he : h.ReachedForward) (hready : h.isReady = true) :
    Inv (c.answers.processing processHttp h).server ∧
      (Alive (c.answers.processing processHttp h).server →
        (c.answers.processing processHttp h).crashed = false →
          Framed (c.answers.processing processHttp h).trace) := by
  have hnext := (Answers.processing_kept processHttp c.answers h).2.2
  rw [hnext]
  refine ⟨hserver.keeps _ _ hs.inv, fun halive hcrash => ?_⟩
  have hresponse := hserver.response _ _ hs.inv halive he hready
  have hsends : (processHttp c.answers.server h).sends ≠ [] := by
    intro hnil
    obtain ⟨m, -, htext⟩ := hresponse
    rw [hnil] at htext
    exact text_nonempty m htext.symm
  obtain ⟨hbefore, closes, hclosed, htrace⟩ := Answers.processing_trace hsends hcrash
  rw [htrace]
  exact (hs.framed (hserver.was _ _ halive) hbefore).answered hresponse hclosed

theorem streams_kept (hserver : Responds processHttp Inv Alive) (c : Conversation σ)
    (p stale : List UInt8) (c' : Conversation σ) (n : Nat) (hs : Streams Inv Alive c)
    (hu : HttpConnection.StaysForward u c.http p stale)
    (h : dataProcessing u processHttp c (p ++ stale) p.length = some (c', n)) :
    Streams Inv Alive c' := by
  have hold : (c.http.processor u).ReachedForward := by
    unfold HttpConnection.processor
    cases hh : c.http.httpProcessor with
    | none => exact .new _
    | some h => exact hs.reached h hh
  simp only [dataProcessing, Option.bind_eq_bind, Option.bind_eq_some_iff] at h
  obtain ⟨⟨request, processed⟩, hprocess, h⟩ := h
  have hnew : request.ReachedForward := hold.processed (by rwa [List.take_left]) hprocess
  split at h
  · next hready =>
    obtain ⟨rfl, -⟩ := Prod.mk.inj (Option.some.inj h)
    obtain ⟨hinv, hframed⟩ := hs.answered hserver hnew hready.2
    exact ⟨by simp, hinv, hframed⟩
  · obtain ⟨rfl, -⟩ := Prod.mk.inj (Option.some.inj h)
    exact ⟨by simpa using hnew, hs.inv, hs.framed⟩

theorem step_streams (hserver : Responds processHttp Inv Alive) (c : Connection (Conversation σ))
    (hs : Streams Inv Alive c.derived) (happening : Happening) (hu : Forward u c happening) :
    Streams Inv Alive (step u processHttp c happening).derived := by
  cases happening with
  | arrived data =>
    change Streams Inv Alive (if c.derived.answers.reading = true then
      Connection.stubConnRead (dataProcessing u processHttp) c data else c).derived
    split
    · next hreading => exact (hu.calls hreading processHttp).keep (streams_kept hserver) hs
    · exact hs
  | flushed n =>
    obtain ⟨hsame, hcrash, htrace⟩ := Answers.flushed_kept c.derived.answers n
    refine ⟨hs.reached, ?_, ?_⟩
    · exact hsame ▸ hs.inv
    · intro halive hcrashed
      have hframed := hs.framed (hsame ▸ halive) (hcrash ▸ hcrashed)
      exact htrace ▸ hframed
  | ended => exact ⟨hs.reached, hs.inv, hs.framed⟩

/-- A server that is alive after something has happened was so before. -/
theorem step_was (hserver : Responds processHttp Inv Alive) (c : Connection (Conversation σ))
    (happening : Happening) (h : Alive (step u processHttp c happening).derived.answers.server) :
    Alive c.derived.answers.server := by
  cases happening with
  | arrived data =>
    change Alive (if c.derived.answers.reading = true then
      Connection.stubConnRead (dataProcessing u processHttp) c data else c).derived.answers.server at h
    split at h
    · apply read_keep (J := fun d => Alive d.answers.server → Alive c.derived.answers.server)
        _ c data id h
      intro d memory size d' n hkept hd halive
      simp only [dataProcessing, Option.bind_eq_bind, Option.bind_eq_some_iff] at hd
      obtain ⟨⟨request, processed⟩, -, hd⟩ := hd
      split at hd
      · obtain ⟨rfl, -⟩ := Prod.mk.inj (Option.some.inj hd)
        have hnext := (Answers.processing_kept processHttp d.answers request).2.2
        exact hkept (hserver.was _ _ (hnext ▸ halive))
      · obtain ⟨rfl, -⟩ := Prod.mk.inj (Option.some.inj hd)
        exact hkept halive
    · exact h
  | flushed n =>
    have hsame := (Answers.flushed_kept c.derived.answers n).1
    change Alive (c.derived.answers.flushed n).server at h
    exact hsame ▸ h
  | ended => exact h

end Conversation

namespace HttpController

variable {processHttp : ProcessHttp σ} {elsewhere : τ → σ → σ} {Inv Alive : σ → Prop}
  {u : Nat → Uninitialised}

/-- What is done to the server elsewhere keeps `Inv`, and does not bring it back to
life. -/
structure Undisturbed (elsewhere : τ → σ → σ) (Inv Alive : σ → Prop) : Prop where
  keeps : ∀ event s, Inv s → Inv (elsewhere event s)
  was : ∀ event s, Alive (elsewhere event s) → Alive s

/-- No event of a run leads to a call that moves the fill of a header buffer back. -/
def RunForward (u : Nat → Uninitialised) (processHttp : ProcessHttp σ) (elsewhere : τ → σ → σ) :
    HttpController σ → List (Event τ) → Prop
  | _, [] => True
  | s, event :: events =>
    (∀ index happening, event = .happened index happening → ∀ c ∈ s.connections[index]?,
      Conversation.Forward (u index) c happening) ∧
    RunForward u processHttp elsewhere (s.step u processHttp elsewhere event) events

theorem forward_of_zero (hu : ∀ index n, (u index).chunkSize n = 0) (s : HttpController σ)
    (events : List (Event τ)) : s.RunForward u processHttp elsewhere events := by
  induction events generalizing s with
  | nil => trivial
  | cons event events ih =>
    refine ⟨fun index happening _ c _ => ?_, ih _⟩
    cases happening with
    | arrived data => exact fun _ => Connection.forward_of_zero (hu index) _ _
    | flushed | ended => trivial

/-- What holds of all conversations at all times, with the server as it is. -/
structure Streams (Inv Alive : σ → Prop) (s : HttpController σ) : Prop where
  inv : Inv s.server
  reached : ∀ c ∈ s.connections, ∀ h ∈ c.derived.http.httpProcessor, h.ReachedForward
  framed : Alive s.server → ∀ c ∈ s.connections, c.derived.answers.crashed = false →
    Framed c.derived.answers.trace

/-- The other connections do not notice what happens to the server. -/
theorem Streams.moved {s : HttpController σ} (hs : Streams Inv Alive s) {server : σ}
    (hinv : Inv server) (hwas : Alive server → Alive s.server) :
    Streams Inv Alive { s with server := server } :=
  ⟨hinv, hs.reached, fun halive => hs.framed (hwas halive)⟩

theorem Streams.conversation {s : HttpController σ} (hs : Streams Inv Alive s)
    (hc : c ∈ s.connections) : Conversation.Streams Inv Alive (c.withServer s.server).derived :=
  ⟨hs.reached c hc, hs.inv, fun halive => hs.framed halive c hc⟩

theorem Streams.add {s : HttpController σ} (hs : Streams Inv Alive s) (fresh : Nat → UInt8) :
    Streams Inv Alive (s.addConnection fresh) := by
  refine ⟨hs.inv, fun c hc => ?_, fun halive c hc => ?_⟩
  · rcases List.mem_append.mp hc with hold | hnew
    · exact hs.reached c hold
    · obtain rfl := List.mem_singleton.mp hnew
      intro h hh
      cases hh
  · rcases List.mem_append.mp hc with hold | hnew
    · exact hs.framed halive c hold
    · obtain rfl := List.mem_singleton.mp hnew
      exact fun _ => ⟨[], .nil, rfl⟩

theorem Streams.happen (hserver : Responds processHttp Inv Alive) {s : HttpController σ}
    (hs : Streams Inv Alive s) (index : Nat) (happening : Conversation.Happening)
    (hu : ∀ c ∈ s.connections[index]?, Conversation.Forward (u index) c happening) :
    Streams Inv Alive (s.happen u processHttp index happening) := by
  unfold HttpController.happen
  cases hfound : s.connections[index]? with
  | none => exact hs
  | some c =>
    have hforward : Conversation.Forward (u index) (c.withServer s.server) happening := by
      have hhere := hu c hfound
      cases happening with
      | arrived data => exact hhere
      | flushed | ended => trivial
    have hc := Conversation.step_streams (u := u index) hserver _
      (hs.conversation (List.mem_of_getElem? hfound)) happening hforward
    have hwas := Conversation.step_was (u := u index) hserver (c.withServer s.server) happening
    have hmoved := hs.moved hc.inv hwas
    refine ⟨hc.inv, fun d hd => ?_, fun halive d hd => ?_⟩
    · rcases List.mem_or_eq_of_mem_set hd with hold | rfl
      · exact hmoved.reached d hold
      · exact hc.reached
    · rcases List.mem_or_eq_of_mem_set hd with hold | rfl
      · exact hmoved.framed halive d hold
      · exact hc.framed halive

theorem Streams.step (hserver : Responds processHttp Inv Alive)
    (helse : Undisturbed elsewhere Inv Alive) {s : HttpController σ} (hs : Streams Inv Alive s)
    (event : Event τ) (hu : ∀ index happening, event = .happened index happening →
      ∀ c ∈ s.connections[index]?, Conversation.Forward (u index) c happening) :
    Streams Inv Alive (s.step u processHttp elsewhere event) := by
  cases event with
  | accepted fresh => exact hs.add fresh
  | happened index happening => exact hs.happen hserver index happening (hu index happening rfl)
  | elsewhere event => exact hs.moved (helse.keeps _ _ hs.inv) (helse.was _ _)

theorem Streams.run (hserver : Responds processHttp Inv Alive)
    (helse : Undisturbed elsewhere Inv Alive) {s : HttpController σ} (hs : Streams Inv Alive s)
    (events : List (Event τ)) (hu : s.RunForward u processHttp elsewhere events) :
    Streams Inv Alive (events.foldl (HttpController.step u processHttp elsewhere) s) := by
  induction events generalizing s with
  | nil => exact hs
  | cons event events ih => exact ih (hs.step hserver helse event hu.1) hu.2

end HttpController

end Khorost
