import Khorost.Proofs.Arrivals
import Khorost.Proofs.Closing
import Khorost.Proofs.HbResponses
import Khorost.Proofs.Places

namespace Khorost

open HttpConnection Messages Request

/-- A request as a client writes it: in pieces, none of which ends at a place where the
parser goes wrong. -/
structure Writing where
  request : Request
  pieces : List (List UInt8)
  nonempty : ∀ piece ∈ pieces, piece ≠ []
  whole : pieces.flatten = request.serialize
  off_line_end : ∀ front, front <+: pieces → ∀ left, ¬ LineCut request front.flatten left
  off_uri_end : ∀ front, front <+: pieces → ¬ UriCut request front.flatten

def written (ws : List Writing) : List (List UInt8) := ws.flatMap Writing.pieces

theorem written_append (ws later : List Writing) :
    written (ws ++ later) = written ws ++ written later :=
  List.flatMap_append

theorem Writing.pieces_nonempty (w : Writing) : w.pieces ≠ [] := by
  intro hnil
  have hwhole := w.whole
  rw [hnil] at hwhole
  exact w.request.serialize_nonempty hwhole.symm

/-- Where the parser of a connection stands: the requests `ws` have not been served,
and the pieces `toCome` of them have not arrived. -/
inductive Awaits (u : Uninitialised) :
    List Writing → List (List UInt8) → Connection HttpConnection → Prop
  | all (between : Between c) : Awaits u [] [] c
  | within {front behind : List (List UInt8)} (split : w.pieces = front ++ behind)
      (more : behind ≠ []) (stands : Stands w.request u c.derived.processed True front.flatten c) :
      Awaits u (w :: ws) (behind ++ written ws) c

variable {u : Uninitialised} {w : Writing} {ws : List Writing}
  {front behind toCome : List (List UInt8)}
  {data : List UInt8}

theorem Awaits.of_between (hb : Between c) (ws : List Writing) : Awaits u ws (written ws) c := by
  cases ws with
  | nil => exact .all hb
  | cons w ws =>
    exact .within (List.nil_append w.pieces).symm w.pieces_nonempty (hb.stands w.request u True)

theorem Awaits.suffix (h : Awaits u ws toCome c) : toCome <:+ written ws := by
  cases h with
  | all => exact List.suffix_rfl
  | @within _ w ws front behind split _ _ =>
    refine ⟨front, ?_⟩
    change front ++ (behind ++ written ws) = w.pieces ++ written ws
    rw [split, List.append_assoc]

theorem Awaits.short (h : Awaits u (w :: ws) toCome c) : (written ws).length < toCome.length := by
  cases h with
  | within _ more _ =>
    have hpos := List.length_pos_iff.mpr more
    rw [List.length_append]
    omega

theorem stands_next (hs : Stands w.request u done True front.flatten c)
    (hsplit : w.pieces = front ++ data :: behind) (hu : Request.Forward u c data) :
    Stands w.request u done True (front ++ [data]).flatten
      (c.stubConnRead (dataProcessing u) data) := by
  have hfront : front ++ [data] <+: w.pieces := ⟨behind, by simp [hsplit]⟩
  have hflat : (front ++ [data]).flatten = front.flatten ++ data := by simp
  have hfits : front.flatten ++ data <+: w.request.serialize := by
    rw [← w.whole, hsplit]
    exact ⟨behind.flatten, by simp⟩
  have hlines := w.off_line_end _ hfront
  have huri := w.off_uri_end _ hfront
  rw [hflat] at hlines huri ⊢
  refine hs.read (w.nonempty data (by simp [hsplit])) (hfits.trans (List.prefix_append _ [])) ?_
    (.inr hfits.length_le) (fun _ => hlines) fun _ => hu
  exact ⟨fun left hcut => absurd hcut (hlines left), fun hcut => absurd hcut huri,
    fun _ => hfits.length_le⟩

theorem stands_short (hsplit : w.pieces = front ++ behind) (hrest : behind ≠ []) :
    front.flatten.length < w.request.serialize.length := by
  obtain ⟨piece, behind, rfl⟩ := List.exists_cons_of_ne_nil hrest
  have hpos := List.length_pos_iff.mpr (w.nonempty piece (by simp [hsplit]))
  rw [← w.whole, hsplit]
  simp only [List.flatten_append, List.flatten_cons, List.length_append]
  omega

theorem Request.Stands.between (hs : Stands r u done tidy arrived c)
    (hlen : arrived.length = r.serialize.length) : Between c := by
  cases hs with
  | underway short _ _ _ => omega
  | finished _ fault content served => exact ⟨fault, content, served.idle, served.taken⟩
  | passed beyond _ => omega

/-- One piece arrives: the request it belongs to is served if it is the last one. -/
theorem Awaits.read (h : Awaits u ws (data :: toCome) c) (hu : Request.Forward u c data) :
    Conversation.completed c (c.stubConnRead (dataProcessing u) data) = [] ∧
      Awaits u ws toCome (c.stubConnRead (dataProcessing u) data) ∨
    ∃ w later request, ws = w :: later ∧
      Conversation.completed c (c.stubConnRead (dataProcessing u) data) = [request] ∧
      Request.Answers request w.request ∧
      Awaits u later toCome (c.stubConnRead (dataProcessing u) data) := by
  generalize hall : data :: toCome = pieces at h
  cases h with
  | all => cases hall
  | @within _ w ws front behind split more stands =>
    obtain ⟨piece, behind, rfl⟩ := List.exists_cons_of_ne_nil more
    obtain ⟨rfl, rfl⟩ := List.cons.inj hall
    have hnext := stands_next stands split hu
    have hsplit : w.pieces = (front ++ [data]) ++ behind := by simp [split]
    cases behind with
    | nil =>
      have hlen : (front ++ [data]).flatten.length = w.request.serialize.length := by
        rw [← w.whole, hsplit, List.append_nil]
      obtain ⟨request, hprocessed, hanswers⟩ := hnext.whole hlen
      refine .inr ⟨w, ws, request, rfl, ?_, hanswers, .of_between (hnext.between hlen) ws⟩
      rw [Conversation.completed, hprocessed, List.drop_left]
      rfl
    | cons next behind =>
      have hsame := hnext.short (stands_short hsplit (by simp))
      refine .inl ⟨?_, .within hsplit (by simp) (hsame ▸ hnext)⟩
      rw [Conversation.completed, hsame, List.drop_length]
      rfl

namespace Answers

variable {processHttp : ProcessHttp σ} {a : Answers σ}

theorem Open.dispatched (ho : Open a) (h : HttpHeader) :
    dispatchedOn (a.processing processHttp h).trace = dispatchedOn a.trace ++ [h] := by
  obtain ⟨output, hbev⟩ := ho.bev
  have htrace : dispatchedOn (a.answered processHttp h output).trace =
      dispatchedOn a.trace ++ [h] := by
    rw [answered, dispatched_append]
    exact congrArg (dispatchedOn a.trace ++ h :: ·) (dispatched_sends _)
  rw [processing_eq hbev]
  split
  · obtain ⟨hclosed, -, -, -⟩ := close_some (rfl : (a.answered processHttp h output).bev = some _)
    rw [hclosed, dispatched_append, htrace]
    exact List.append_nil _
  · exact htrace

theorem Open.flushed (ho : Open a) (n : Nat) : Open (a.flushed n) := by
  obtain ⟨output, hbev⟩ := ho.bev
  have hflush : a.flushed n = { a with bev := some ⟨output.drop n, true, false⟩ } := by
    rw [Answers.flushed, hbev]
    exact if_neg (fun h => by cases h.1)
  rw [hflush]
  exact ⟨⟨_, rfl⟩, ho.crashed, ho.trace⟩

end Answers

namespace Conversation

variable {processHttp : ProcessHttp σ} {answered left all : List Writing}
  {arrived : List (List UInt8)} {gone : Prop} {c : Connection (Conversation σ)}

/-- How far a conversation has come of which the pieces `arrived` are there: the
requests `answered` have been served, and no other. If it does not go on with those
`left`, the server has closed the connection or the peer has `gone`. -/
structure Exchanges (u : Uninitialised) (answered left : List Writing) (arrived : List (List UInt8))
    (gone : Prop) (c : Connection (Conversation σ)) : Prop where
  crashed : c.derived.answers.crashed = false
  dispatched : List.Forall₂ (fun h w => Request.Answers h w.request)
    (dispatchedOn c.derived.answers.trace) answered
  whole : written answered <+: arrived
  going : c.derived.answers.Open ∧ (∃ toCome, arrived ++ toCome = written (answered ++ left) ∧
      Awaits u left toCome (parsing c)) ∨
    c.derived.answers.reading = false ∧ (HasClosed c.derived.answers.trace ∨ gone)

theorem Exchanges.start (u : Uninitialised) (all : List Writing) (fresh : Nat → UInt8)
    (server : σ) :
    Exchanges u [] all [] gone (Connection.idle fresh ⟨HttpConnection.start, .opened server⟩) :=
  ⟨rfl, .nil, List.nil_prefix, .inl ⟨Answers.opened_open server, written all, rfl,
    .of_between ⟨rfl, rfl, rfl, rfl⟩ all⟩⟩

/-- What is done to a conversation that does not go on changes nothing. -/
theorem Exchanges.ended (h : Exchanges u answered left arrived gone c)
    (hread : c.derived.answers.reading = false) (happening : Happening) (more : List (List UInt8)) :
    Exchanges u answered left (arrived ++ more) gone (step u processHttp c happening) := by
  obtain ⟨hread', htrace⟩ := step_closed u processHttp c hread happening
  have hcrash : (step u processHttp c happening).derived.answers.crashed = false := by
    cases happening with
    | arrived data =>
      rw [step, if_neg (by simp [hread])]
      exact h.crashed
    | flushed n => exact (Answers.flushed_kept c.derived.answers n).2.1.trans h.crashed
    | ended => exact h.crashed
  refine ⟨hcrash, htrace ▸ h.dispatched, h.whole.trans (List.prefix_append _ _), .inr ⟨hread', ?_⟩⟩
  rcases h.going with ⟨hopen, -⟩ | ⟨-, hwhy⟩
  · rw [hopen.reading] at hread
    cases hread
  · rw [htrace]
    exact hwhy

theorem answer_one (a : Answers σ) (h : HttpHeader) :
    a.answerAll processHttp [h] = a.processing processHttp h := by
  rw [Answers.answerAll]
  split
  · rfl
  · rfl

theorem Exchanges.read (h : Exchanges u answered left arrived gone c)
    (hopen : c.derived.answers.Open)
    (hcome : arrived ++ data :: toCome = written (answered ++ left))
    (hawaits : Awaits u left (data :: toCome) (parsing c)) (hu : Forward u c (.arrived data)) :
    ∃ answered' left', answered' ++ left' = answered ++ left ∧
      Exchanges u answered' left' (arrived ++ [data]) gone
        (step u processHttp c (.arrived data)) := by
  have hstep : step u processHttp c (.arrived data) =
      c.stubConnRead (dataProcessing u processHttp) data := if_pos hopen.reading
  obtain ⟨hanswers, hparsing⟩ := read_answers u processHttp c data h.crashed
  rw [hstep]
  rcases hawaits.read (hu hopen.reading) with ⟨hnone, hnext⟩ | ⟨w, later, request, rfl, hone, hfor, hnext⟩
  · rw [hnone] at hanswers
    have hsame := hanswers.trans
      (rfl : c.derived.answers.answerAll processHttp [] = c.derived.answers)
    have hcrash := congrArg Answers.crashed hsame
    refine ⟨answered, left, rfl, hcrash.trans h.crashed, ?_, h.whole.trans (List.prefix_append _ _),
      .inl ⟨?_, toCome, ?_, ?_⟩⟩
    · rw [hsame]
      exact h.dispatched
    · rw [hsame]
      exact hopen
    · simpa using hcome
    · rw [hparsing (hcrash.trans h.crashed)]
      exact hnext
  · rw [hone, answer_one] at hanswers
    have hserved : List.Forall₂ (fun h w => Request.Answers h w.request)
        (dispatchedOn (c.derived.answers.processing processHttp request).trace)
        (answered ++ [w]) := by
      rw [hopen.dispatched]
      exact List.rel_append h.dispatched (.cons hfor .nil)
    have hthere : (arrived ++ [data]) ++ toCome = written ((answered ++ [w]) ++ later) := by
      simpa using hcome
    have hwhole : written (answered ++ [w]) <+: arrived ++ [data] := by
      obtain ⟨front, hfront⟩ := hnext.suffix
      rw [written_append, ← hfront, ← List.append_assoc] at hthere
      exact ⟨front, (List.append_cancel_right hthere).symm⟩
    refine ⟨answered ++ [w], later, by simp, ?_⟩
    cases hauto : (processHttp c.derived.answers.server request).autoClose with
    | false =>
      have hstays := hopen.processing hauto
      have hcrash := (congrArg Answers.crashed hanswers).trans hstays.crashed
      refine ⟨hcrash, hanswers ▸ hserved, hwhole, .inl ⟨hanswers ▸ hstays, toCome, hthere, ?_⟩⟩
      rw [hparsing hcrash]
      exact hnext
    | true =>
      obtain ⟨hread, hcrash, hclosed, -⟩ := hopen.processing_close hauto
      rw [← hanswers] at hread hcrash hclosed hserved
      exact ⟨hcrash, hserved, hwhole, .inr ⟨hread, .inl hclosed⟩⟩

/-- Some of the requests that are written have been served, in their order. -/
def Follows (u : Uninitialised) (all : List Writing) (arrived : List (List UInt8)) (gone : Prop)
    (c : Connection (Conversation σ)) : Prop :=
  ∃ answered left, answered ++ left = all ∧ Exchanges u answered left arrived gone c

theorem Follows.mono (h : Follows u all arrived gone c) (hgone : gone → gone') :
    Follows u all arrived gone' c := by
  obtain ⟨answered, left, hall, h⟩ := h
  exact ⟨answered, left, hall, h.crashed, h.dispatched, h.whole,
    h.going.imp_right fun ⟨hread, hwhy⟩ => ⟨hread, hwhy.imp_right hgone⟩⟩

def arriving : Happening → List (List UInt8)
  | .arrived data => [data]
  | _ => []

theorem Follows.step (h : Follows u all arrived gone c) (happening : Happening)
    (hfits : arrived ++ arriving happening <+: written all) (hu : Forward u c happening) :
    Follows u all (arrived ++ arriving happening) (gone ∨ happening = .ended)
      (step u processHttp c happening) := by
  obtain ⟨answered, left, rfl, h⟩ := h
  rcases h.going with ⟨hopen, toCome, hcome, hawaits⟩ | ⟨hread, -⟩
  · cases happening with
    | arrived data =>
      obtain ⟨later, hlater⟩ := hfits
      have hpieces : toCome = data :: later := by
        rw [← hlater, arriving, List.append_assoc] at hcome
        exact List.append_cancel_left hcome
      subst hpieces
      obtain ⟨answered', left', hsame, hnext⟩ := h.read hopen hcome hawaits hu
      exact Follows.mono ⟨answered', left', hsame, hnext⟩ .inl
    | flushed n =>
      obtain ⟨-, hcrash, htrace⟩ := Answers.flushed_kept c.derived.answers n
      refine ⟨answered, left, rfl, hcrash.trans h.crashed, htrace ▸ h.dispatched, ?_,
        .inl ⟨hopen.flushed n, toCome, ?_, hawaits⟩⟩
      · simpa [arriving] using h.whole
      · simpa [arriving] using hcome
    | ended =>
      refine ⟨answered, left, rfl, h.crashed, h.dispatched, ?_, .inr ⟨rfl, .inr (.inr rfl)⟩⟩
      simpa [arriving] using h.whole
  · exact Follows.mono ⟨answered, left, rfl, h.ended hread happening _⟩ .inl

end Conversation

namespace HttpController

variable {processHttp : ProcessHttp σ} {elsewhere : τ → σ → σ} {u : Nat → Uninitialised}
  {k : Nat} {s : HttpController σ} {all : List Writing} {arrived : List (List UInt8)} {gone : Prop}

/-- How many connections there are after an event. -/
def connectionsAfter (n : Nat) : Event τ → Nat
  | .accepted _ => n + 1
  | _ => n

/-- What arrives on one of `n` connections at an event. -/
def arrivedAt (k n : Nat) : Event τ → List (List UInt8)
  | .happened index happening => if index = k ∧ k < n then Conversation.arriving happening else []
  | _ => []

/-- What arrives on it at some events, from its acceptance on. -/
def arrivedOn (k : Nat) : Nat → List (Event τ) → List (List UInt8)
  | _, [] => []
  | n, event :: events => arrivedAt k n event ++ arrivedOn k (connectionsAfter n event) events

theorem step_connections (u : Nat → Uninitialised) (processHttp : ProcessHttp σ)
    (elsewhere : τ → σ → σ) (s : HttpController σ) (event : Event τ) :
    (s.step u processHttp elsewhere event).connections.length =
      connectionsAfter s.connections.length event := by
  cases event with
  | accepted fresh => simp [step, addConnection, connectionsAfter]
  | happened index happening =>
    change (s.happen u processHttp index happening).connections.length = s.connections.length
    unfold happen
    split
    · rfl
    · exact List.length_set
  | elsewhere event => rfl

/-- What holds of one place among the connections, also before one is accepted there. -/
def Follows (u : Nat → Uninitialised) (k : Nat) (all : List Writing)
    (arrived : List (List UInt8)) (gone : Prop) (s : HttpController σ) : Prop :=
  Place k (Conversation.Follows (u k) all arrived gone) (arrived = []) s

theorem quiet_arrives {event : Event τ} (h : Quiet k s event) :
    arrivedAt k s.connections.length event = [] := by
  cases event with
  | happened index happening =>
    refine if_neg ?_
    rintro ⟨rfl, hlt⟩
    exact absurd (h happening rfl) (Nat.not_le_of_lt hlt)
  | accepted | elsewhere => rfl

theorem Follows.step (h : Follows u k all arrived gone s) (event : Event τ)
    (hfits : arrived ++ arrivedAt k s.connections.length event <+: written all)
    (hu : ∀ index happening, event = .happened index happening → ∀ c ∈ s.connections[index]?,
      Conversation.Forward (u index) c happening) :
    Follows u k all (arrived ++ arrivedAt k s.connections.length event)
      (gone ∨ event = .happened k .ended) (s.step u processHttp elsewhere event) := by
  refine Place.step h event ?_ ?_ ?_
  · rintro rfl fresh server
    exact ⟨[], all, rfl, .start _ all fresh server⟩
  · rintro happening c rfl hc ⟨answered, left, hall, hold⟩
    have hlt : k < s.connections.length := (List.getElem?_eq_some_iff.mp hc).1
    have hhere : arrivedAt k s.connections.length (.happened k happening : Event τ) =
        Conversation.arriving happening := if_pos ⟨rfl, hlt⟩
    rw [hhere] at hfits ⊢
    have hserver : Conversation.Follows (u k) all arrived gone (c.withServer s.server) :=
      ⟨answered, left, hall, hold.crashed, hold.dispatched, hold.whole, hold.going.imp_left
        fun ⟨hopen, hcome⟩ => ⟨⟨hopen.bev, hopen.crashed, hopen.trace⟩, hcome⟩⟩
    have hforward : Conversation.Forward (u k) (c.withServer s.server) happening := by
      have hthere := hu k happening rfl c hc
      cases happening with
      | arrived data => exact hthere
      | flushed | ended => trivial
    exact (hserver.step happening hfits hforward).mono fun hleft => hleft.imp_right fun he => by rw [he]
  · intro hquiet
    rw [quiet_arrives hquiet, List.append_nil]
    exact ⟨fun c hc => hc.mono .inl, id⟩

theorem Follows.run (h : Follows u k all arrived gone s) (events : List (Event τ))
    (hfits : arrived ++ arrivedOn k s.connections.length events <+: written all)
    (hu : s.RunForward u processHttp elsewhere events) :
    Follows u k all (arrived ++ arrivedOn k s.connections.length events)
      (gone ∨ .happened k .ended ∈ events)
      (events.foldl (HttpController.step u processHttp elsewhere) s) := by
  induction events generalizing arrived gone s with
  | nil => simpa [arrivedOn] using h
  | cons event events ih =>
    rw [arrivedOn, ← List.append_assoc] at hfits ⊢
    have hnext : Follows u k all _ _ (s.step u processHttp elsewhere event) :=
      h.step event ((List.prefix_append _ _).trans hfits) hu.1
    rw [← step_connections u processHttp elsewhere] at hfits ⊢
    have hgone : (gone ∨ event = .happened k .ended) ∨ .happened k .ended ∈ events ↔
        gone ∨ .happened k .ended ∈ event :: events := by
      rw [List.mem_cons, or_assoc, eq_comm (a := event)]
    simpa only [hgone, List.foldl_cons] using ih hnext hfits hu.2

end HttpController

/-- How the client reads the response to a request that it has written. -/
def Request.responseLength (r : Request) : Length UInt8 :=
  if strcaseEq r.method (ascii "HEAD") then fun _ => some 0 else announcedLength

namespace HbService

end HbService

end Khorost
