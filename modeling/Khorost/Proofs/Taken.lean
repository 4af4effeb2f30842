import Khorost.Proofs.HbResponses
import Khorost.Proofs.Places

namespace Khorost

namespace Answers

variable {processHttp : ProcessHttp σ} {a : Answers σ} {taken : List UInt8} {left left' : Prop}

/-- Of the bytes sent the peer has `taken` the first ones. The others wait in the
bufferevent, if it is there; else all have been taken and the server has closed the
connection, unless the peer has `left`. -/
structure Kept (taken : List UInt8) (left : Prop) (a : Answers σ) : Prop where
  first : taken <+: sentOn a.trace
  whole : ∀ bev ∈ a.bev, sentOn a.trace = taken ++ bev.output
  waits : ∀ bev ∈ a.bev, bev.write = true → bev.output ≠ [] ∧ .closed ∈ a.trace
  freed : a.bev = none → ¬ left → sentOn a.trace = taken ∧ .closed ∈ a.trace

theorem Kept.mono (h : Kept taken left a) (hleft : left → left') : Kept taken left' a :=
  ⟨h.first, h.whole, h.waits, fun hnone hstays => h.freed hnone fun hl => hstays (hleft hl)⟩

theorem Kept.opened (server : σ) : Kept [] left (Answers.opened server) := by
  refine ⟨List.nil_prefix, ?_, ?_, ?_⟩
  · simp [Answers.opened, sentOn]
  · simp [Answers.opened]
  · simp [Answers.opened]

theorem Kept.noted (h : Kept taken left a) (server : σ) (event : ConnectionEvent)
    (hsilent : sentOn [event] = []) :
    Kept taken left { a with server := server, trace := a.trace ++ [event] } := by
  have hsent : sentOn (a.trace ++ [event]) = sentOn a.trace := by
    rw [sent_append, hsilent, List.append_nil]
  refine ⟨?_, ?_, ?_, ?_⟩
  · simpa [hsent] using h.first
  · simpa [hsent] using h.whole
  · intro bev hbev hwrite
    obtain ⟨hsome, hclosed⟩ := h.waits bev hbev hwrite
    exact ⟨hsome, List.mem_append_left _ hclosed⟩
  · intro hnone hstays
    obtain ⟨hall, hclosed⟩ := h.freed hnone hstays
    exact ⟨hsent.trans hall, List.mem_append_left _ hclosed⟩

theorem Kept.send (h : Kept taken left a) (bytes : List UInt8) :
    Kept taken left (a.sendData bytes) := by
  unfold sendData
  cases hbev : a.bev with
  | none => exact ⟨h.first, by simp, by simp, fun _ => h.freed hbev⟩
  | some bev =>
    have hsent : sentOn (a.trace ++ [.sent bytes]) = taken ++ (bev.output ++ bytes) := by
      rw [sent_append, h.whole bev hbev, List.append_assoc]
      simp [sentOn]
    refine ⟨?_, ?_, ?_, ?_⟩
    · simp [hsent]
    · simp [hsent]
    · intro _ hsame hwrite
      obtain rfl := Option.some.inj hsame
      obtain ⟨hsome, hclosed⟩ := h.waits bev hbev hwrite
      exact ⟨List.append_ne_nil_of_left_ne_nil hsome _, List.mem_append_left _ hclosed⟩
    · simp

theorem Kept.sends (h : Kept taken left a) (sends : List (List UInt8)) :
    Kept taken left (sends.foldl sendData a) := by
  induction sends generalizing a with
  | nil => exact h
  | cons bytes sends ih => exact ih (h.send bytes)

/-- A close frees the bufferevent if nothing is left in it, else it waits. -/
theorem Kept.close (h : Kept taken left a) : Kept taken left a.closeConnection := by
  unfold closeConnection
  cases hbev : a.bev with
  | none => exact ⟨h.first, by simp, by simp, fun _ => h.freed hbev⟩
  | some bev =>
    have hwhole := h.whole bev hbev
    have hsent : sentOn (a.trace ++ [.closed]) = taken ++ bev.output := by
      rw [sent_append, hwhole]
      simp [sentOn]
    dsimp only
    split
    · next hleft =>
      refine ⟨by simp [hsent], by simp [hsent], ?_, by simp⟩
      simpa using hleft
    · next hempty =>
      have hnil : bev.output = [] := by simpa using hempty
      refine ⟨by simp [hsent], by simp, by simp, ?_⟩
      simp [hsent, hnil]

theorem Kept.processing (h : Kept taken left a) (processHttp : ProcessHttp σ) (request : HttpHeader) :
    Kept taken left (a.processing processHttp request) := by
  have hsent := (h.noted (processHttp a.server request).server (.dispatched request) rfl).sends
    (processHttp a.server request).sends
  unfold Answers.processing
  dsimp only
  split
  · exact hsent.close
  · exact hsent

def pending (a : Answers σ) : List UInt8 := a.bev.elim [] (·.output)

theorem Kept.flushed (h : Kept taken left a) (n : Nat) :
    Kept (taken ++ a.pending.take n) left (a.flushed n) := by
  unfold Answers.flushed pending
  cases hbev : a.bev with
  | none => simpa [hbev] using h
  | some bev =>
    have hwhole : sentOn a.trace = taken ++ bev.output.take n ++ bev.output.drop n := by
      rw [List.append_assoc, List.take_append_drop, h.whole bev hbev]
    have hfirst : taken ++ bev.output.take n <+: sentOn a.trace := by
      rw [hwhole]
      exact List.prefix_append _ _
    dsimp only [Option.elim_some]
    split
    · next hlast =>
      obtain ⟨hwrite, hempty⟩ := hlast
      refine ⟨hfirst, by simp, by simp, fun _ _ => ⟨?_, (h.waits bev hbev hwrite).2⟩⟩
      rw [hwhole, List.eq_nil_of_length_eq_zero hempty, List.append_nil]
    · next hmore =>
      refine ⟨hfirst, ?_, ?_, by simp⟩
      · intro _ hsame
        obtain rfl := Option.some.inj hsame
        exact hwhole
      · intro _ hsame hwrite
        obtain rfl := Option.some.inj hsame
        refine ⟨?_, (h.waits bev hbev hwrite).2⟩
        intro hnil
        exact hmore ⟨hwrite, congrArg List.length hnil⟩

end Answers

namespace Conversation

variable {processHttp : ProcessHttp σ} {u : Uninitialised} {taken : List UInt8} {left : Prop}

theorem processed_kept (c : Conversation σ) (memory : List UInt8) (size : Nat)
    (c' : Conversation σ) (n : Nat) (hc : c.answers.Kept taken left)
    (h : dataProcessing u processHttp c memory size = some (c', n)) : c'.answers.Kept taken left := by
  simp only [dataProcessing, Option.bind_eq_bind, Option.bind_eq_some_iff] at h
  obtain ⟨⟨request, processed⟩, -, h⟩ := h
  split at h
  · obtain ⟨rfl, -⟩ := Prod.mk.inj (Option.some.inj h)
    exact hc.processing processHttp request
  · obtain ⟨rfl, -⟩ := Prod.mk.inj (Option.some.inj h)
    exact hc

/-- The bytes that the peer takes when something happens. -/
def takenAt (c : Connection (Conversation σ)) : Happening → List UInt8
  | .flushed n => c.derived.answers.pending.take n
  | _ => []

theorem step_kept (c : Connection (Conversation σ)) (hc : c.derived.answers.Kept taken left)
    (happening : Happening) : (step u processHttp c happening).derived.answers.Kept
      (taken ++ takenAt c happening) (left ∨ happening = .ended) := by
  cases happening with
  | arrived data =>
    change ((if c.derived.answers.reading = true then
      Connection.stubConnRead (dataProcessing u processHttp) c data else c).derived).answers.Kept _ _
    simp only [takenAt, List.append_nil]
    apply Answers.Kept.mono _ Or.inl
    split
    · exact read_keep (J := fun d => d.answers.Kept taken left) processed_kept c data hc
    · exact hc
  | flushed n => exact (hc.flushed n).mono .inl
  | ended =>
    have hsame : taken ++ takenAt c .ended = taken := List.append_nil taken
    rw [hsame]
    refine ⟨hc.first, by simp [step], by simp [step], ?_⟩
    intro _ hstays
    exact absurd (.inr rfl) hstays

end Conversation

namespace HttpController

variable {processHttp : ProcessHttp σ} {elsewhere : τ → σ → σ} {u : Nat → Uninitialised}
  {taken : List UInt8} {left : Prop} {k : Nat} {s : HttpController σ}

/-- The bytes that the peer of a connection takes at an event. -/
def takenAt (k : Nat) (s : HttpController σ) : Event τ → List UInt8
  | .happened index happening =>
    if index = k then s.connections[k]?.elim [] fun c => Conversation.takenAt c happening else []
  | _ => []

/-- The bytes that it has taken after some events. -/
def takenOn (u : Nat → Uninitialised) (processHttp : ProcessHttp σ) (elsewhere : τ → σ → σ) (k : Nat)
    (s : HttpController σ) : List (Event τ) → List UInt8
  | [] => []
  | event :: events => takenAt k s event ++
    takenOn u processHttp elsewhere k (s.step u processHttp elsewhere event) events

/-- What holds of one place among the connections, also before one is accepted there. -/
def Takes (k : Nat) (taken : List UInt8) (left : Prop) (s : HttpController σ) : Prop :=
  Place k (fun c => c.derived.answers.Kept taken left) (taken = []) s

theorem quiet_takes {event : Event τ} (h : Quiet k s event) : takenAt k s event = [] := by
  cases event with
  | happened index happening =>
    by_cases hk : index = k
    · subst hk
      simp [takenAt, List.getElem?_eq_none_iff.mpr (h happening rfl)]
    · simp [takenAt, hk]
  | accepted | elsewhere => rfl

theorem Takes.step (h : Takes k taken left s) (event : Event τ) :
    Takes k (taken ++ takenAt k s event) (left ∨ event = .happened k .ended)
      (s.step u processHttp elsewhere event) := by
  refine Place.step h event ?_ ?_ ?_
  · rintro rfl fresh server
    exact .opened server
  · rintro happening c rfl hc hold
    have htaken : takenAt k s (.happened k happening : Event τ) =
        Conversation.takenAt c happening := by
      simp [takenAt, hc]
    rw [htaken]
    have hserver : (c.withServer s.server).derived.answers.Kept taken left :=
      ⟨hold.first, hold.whole, hold.waits, hold.freed⟩
    exact (Conversation.step_kept (u := u k) _ hserver happening).mono
      fun hleft => hleft.imp_right fun he => by rw [he]
  · intro hquiet
    rw [quiet_takes hquiet, List.append_nil]
    exact ⟨fun c hc => hc.mono .inl, id⟩

theorem Takes.run (h : Takes k taken left s) (events : List (Event τ)) :
    Takes k (taken ++ takenOn u processHttp elsewhere k s events)
      (left ∨ .happened k .ended ∈ events)
      (events.foldl (HttpController.step u processHttp elsewhere) s) := by
  induction events generalizing taken left s with
  | nil => simpa [takenOn] using h
  | cons event events ih =>
    have hnext : Takes k _ _ (s.step u processHttp elsewhere event) := h.step event
    have hrest := ih hnext
    rw [List.append_assoc] at hrest
    have hleft : (left ∨ event = .happened k .ended) ∨ .happened k .ended ∈ events ↔
        left ∨ .happened k .ended ∈ event :: events := by
      rw [List.mem_cons, or_assoc, eq_comm (a := event)]
    simpa only [takenOn, hleft, List.foldl_cons] using hrest

/-- What a peer has taken are the first of the bytes sent to it, in their order. The
others wait, and a close waits for them: unless the peer goes first, the server frees a
connection only when all of them have been taken. -/
theorem sent_bytes_taken (u : Nat → Uninitialised) (processHttp : ProcessHttp σ)
    (elsewhere : τ → σ → σ) (server : σ) (events : List (Event τ))
    (hc : (HttpController.run u processHttp elsewhere server events).connections[k]? = some c) :
    takenOn u processHttp elsewhere k ⟨server, []⟩ events <+: sentOn c.derived.answers.trace ∧
      (∀ bev ∈ c.derived.answers.bev, sentOn c.derived.answers.trace =
        takenOn u processHttp elsewhere k ⟨server, []⟩ events ++ bev.output ∧
          (bev.write = true → bev.output ≠ [])) ∧
      (c.derived.answers.bev = none → .happened k .ended ∉ events →
        sentOn c.derived.answers.trace = takenOn u processHttp elsewhere k ⟨server, []⟩ events ∧
          .closed ∈ c.derived.answers.trace) := by
  have hstart : Takes k [] False (⟨server, []⟩ : HttpController σ) := ⟨by simp, fun _ => rfl⟩
  have hrun : Takes k _ _ (HttpController.run u processHttp elsewhere server events) :=
    hstart.run events
  have hkept := hrun.there c hc
  rw [List.nil_append, false_or] at hkept
  exact ⟨hkept.first, fun bev hbev => ⟨hkept.whole bev hbev, fun hwrite =>
    (hkept.waits bev hbev hwrite).1⟩, hkept.freed⟩

/-- A request, and seventeen bytes of the response to it have left. -/
def annFlushed : List (Event HbService.Elsewhere) :=
  HbService.annEvents ++ [.happened 1 (.flushed 17)]

theorem ann_taken : ∃ c, (HttpController.run (fun _ => ⟨fun _ _ => 0, fun _ => 0⟩)
      (HbService.serve Server2hb.annEnv Server2hb.annMoment) HbService.elsewhere
      ⟨some Server2hb.annServer, 0, true⟩ annFlushed).connections[1]? = some c ∧
    takenOn (fun _ => ⟨fun _ _ => 0, fun _ => 0⟩)
      (HbService.serve Server2hb.annEnv Server2hb.annMoment) HbService.elsewhere 1
      ⟨⟨some Server2hb.annServer, 0, true⟩, []⟩ annFlushed <+: sentOn c.derived.answers.trace := by
  have hthere : ((HttpController.run (fun _ => ⟨fun _ _ => 0, fun _ => 0⟩)
      (HbService.serve Server2hb.annEnv Server2hb.annMoment) HbService.elsewhere
      ⟨some Server2hb.annServer, 0, true⟩ annFlushed).connections[1]?).isSome = true := by
    decide +kernel
  obtain ⟨c, hc⟩ := Option.isSome_iff_exists.mp hthere
  exact ⟨c, hc, (sent_bytes_taken _ _ _ _ _ hc).1⟩

end HttpController

end Khorost
