import Khorost.Proofs.HbRequests
import Khorost.Proofs.MethodText
import Khorost.Proofs.ResponseStream

namespace Khorost

open Messages Throwing

/-- A line that begins otherwise is not one of the given name. -/
theorem other_name (h : ¬ name <+: front) (h' : ¬ front <+: name) (s : List UInt8) :
    name.isPrefixOf (front ++ s) = false := by
  rw [Bool.eq_false_iff]
  intro hp
  rcases List.prefix_or_prefix_of_prefix (List.isPrefixOf_iff_prefix.mp hp)
    (List.prefix_append front s) with hp | hp
  · exact h hp
  · exact h' hp

theorem decimal_digits (n : Nat) : decimalText n ≠ [] ∧ (decimalText n).all isDigit = true := by
  constructor
  · simp [decimalText]
  · apply List.all_eq_true.mpr
    intro c hc
    obtain ⟨d, hd, rfl⟩ := List.mem_map.mp hc
    obtain ⟨hvalue, hlow, hhigh⟩ := digit_byte hd
    have hlow' : 48 ≤ UInt8.ofNat d.toNat := by
      rw [UInt8.le_iff_toNat_le, hvalue]
      exact hlow
    have hhigh' : UInt8.ofNat d.toNat ≤ 57 := by
      rw [UInt8.le_iff_toNat_le, hvalue]
      exact hhigh
    simp [isDigit, hlow', hhigh']

namespace HttpProcessor

/-- The lines between the first one and that of the length. -/
def linesFront (r : Response) (connection : List UInt8) (now : Int) : List (List UInt8) :=
  [ascii "Server: phreeber",
    ascii "Date: " ++ strftime (gmtime now) (ascii "%a, %d %b %Y %H:%M:%S GMT")] ++
  (if r.redirectUrl ≠ [] then [ascii "Location: " ++ r.redirectUrl] else []) ++
  [ascii "Connection: " ++ connection] ++
  r.cookies.map cookieLine ++
  [ascii "Content-Type: " ++ r.contentType ++
    (if r.contentTypeCodepage ≠ [] then ascii "; charset=" ++ r.contentTypeCodepage else [])] ++
  (if r.contentDisposition ≠ [] then [ascii "Content-Disposition: " ++ r.contentDisposition]
    else [])

theorem head_lines_split (r : Response) (version connection : List UInt8) (now : Int) :
    ∃ behind, (headLines r version connection now).drop 1 =
      linesFront r connection now ++ (lengthName ++ numberText r.contentLength) :: behind := by
  simp only [headLines, linesFront, lengthName, List.append_assoc, List.cons_append, List.nil_append,
    List.drop_succ_cons, List.drop_zero]
  exact ⟨_, rfl⟩

theorem length_front (h : line ∈ linesFront r connection now) :
    lengthName.isPrefixOf line = false := by
  simp only [linesFront, List.mem_append, List.mem_cons, List.not_mem_nil, or_false] at h
  rcases h with ((((((rfl | rfl) | h) | rfl) | h) | rfl) | h)
  · decide
  · exact other_name (by decide) (by decide) _
  · split at h
    · obtain rfl := List.mem_singleton.mp h
      exact other_name (by decide) (by decide) _
    · cases h
  · exact other_name (by decide) (by decide) _
  · obtain ⟨c, -, rfl⟩ := List.mem_map.mp h
    simp only [cookieLine, List.append_assoc]
    exact other_name (by decide) (by decide) _
  · rw [List.append_assoc]
    exact other_name (by decide) (by decide) _
  · split at h
    · obtain rfl := List.mem_singleton.mp h
      exact other_name (by decide) (by decide) _
    · cases h

theorem head_announced {r : Response} (hlength : r.contentLength < 2 ^ 31)
    (version connection : List UInt8) (now : Int) :
    announcedLength (headLines r version connection now) = some r.contentLength := by
  have hnumber := (number_text_iff r.contentLength).mpr hlength
  obtain ⟨hsome, hdigits⟩ := decimal_digits r.contentLength
  obtain ⟨behind, hlines⟩ := head_lines_split r version connection now
  have hfound : ((headLines r version connection now).drop 1).find? lengthName.isPrefixOf =
      some (lengthName ++ numberText r.contentLength) := by
    rw [hlines, List.find?_append, List.find?_eq_none.mpr fun line hin => by
      simp [length_front hin], Option.none_or, List.find?_cons_of_pos (by simp)]
  rw [announcedLength, hfound, Option.bind_some, hnumber]
  simp only [List.drop_left]
  rw [if_pos ⟨hsome, hdigits⟩, digits_value_text]

/-- The request that is answered has the method that the client has sent. -/
structure Serves (h : HttpHeader) (p : HttpProcessor) : Prop where
  sound : p.Sound
  first : p.header.MethodFirst
  method : p.header.getQueryMethod = h.getQueryMethod

variable {h : HttpHeader} {p p' : HttpProcessor}

theorem calculate_method (hf : p.header.MethodFirst) (h : p.calculateHostPort = some p') :
    p'.header.MethodFirst ∧ p'.header.getQueryMethod = p.header.getQueryMethod := by
  unfold calculateHostPort at h
  cases hindex : p.getHeaderIndex (ascii "Host") with
  | none =>
    rw [hindex] at h
    cases h
    exact ⟨hf, rfl⟩
  | some idx =>
    rw [hindex] at h
    obtain ⟨v, hfind, rfl⟩ := Option.map_eq_some_iff.mp hindex
    obtain ⟨⟨n, atColon⟩, -, h⟩ := Option.bind_eq_some_iff.mp h
    dsimp only at h
    split at h
    · cases h
      exact hf.set_nul (List.mem_of_find?_eq_some hfind) n
    · cases h
      exact ⟨hf, rfl⟩

theorem with_host_method (hf : p.header.MethodFirst) (h : p.withHost = some p') :
    p'.header.MethodFirst ∧ p'.header.getQueryMethod = p.header.getQueryMethod := by
  unfold withHost at h
  split at h
  · exact calculate_method hf h
  · cases h
    exact ⟨hf, rfl⟩

theorem get_host_method (hf : p.header.MethodFirst) (h : p.getHost = some (domain, p')) :
    p'.header.MethodFirst ∧ p'.header.getQueryMethod = p.header.getQueryMethod := by
  obtain ⟨q, hq, h⟩ := Option.bind_eq_some_iff.mp h
  have hkept := with_host_method hf hq
  split at h
  · cases h
    exact hkept
  · cases h
    exact hkept

theorem get_port_method (hf : p.header.MethodFirst) (h : p.getPort = some (text, p')) :
    p'.header.MethodFirst ∧ p'.header.getQueryMethod = p.header.getQueryMethod := by
  obtain ⟨q, hq, h⟩ := Option.bind_eq_some_iff.mp h
  have hkept := with_host_method hf hq
  split at h
  · cases h
    exact hkept
  · cases h
    exact hkept
  · cases h
    exact hkept

theorem perform_method (hf : p.header.MethodFirst) (h : p.perform call = some p') :
    p'.header.MethodFirst ∧ p'.header.getQueryMethod = p.header.getQueryMethod := by
  cases call with
  | getHost =>
    obtain ⟨⟨domain, q⟩, hget, rfl⟩ := Option.map_eq_some_iff.mp h
    exact get_host_method hf hget
  | getPort =>
    obtain ⟨⟨port, q⟩, hget, rfl⟩ := Option.map_eq_some_iff.mp h
    exact get_port_method hf hget
  | setCookie cookie value expire domain httpOnly =>
    cases domain with
    | none =>
      obtain ⟨⟨domain, q⟩, hget, rfl⟩ := Option.map_eq_some_iff.mp h
      have hkept : q.header.MethodFirst ∧ q.header.getQueryMethod = p.header.getQueryMethod :=
        get_host_method hf hget
      exact hkept
    | some domain =>
      cases h
      exact ⟨hf, rfl⟩
  | setResponseStatus | setRedirect | setContentType | setContentDisposition | setLastModify |
    setHeaderParam =>
    cases h
    exact ⟨hf, rfl⟩

theorem Serves.perform (hs : Serves h p) (call : ResponseCall) (hcall : call.IsPlain) :
    ∃ p', p.perform call = some p' ∧ Serves h p' := by
  obtain ⟨p', hp', hsound⟩ := hs.sound.perform hcall
  obtain ⟨hfirst, hmethod⟩ := perform_method hs.first hp'
  exact ⟨p', hp', hsound, hfirst, hmethod.trans hs.method⟩

theorem Serves.perform_all (hs : Serves h p) (calls : List ResponseCall)
    (hcalls : ∀ call ∈ calls, call.IsPlain) :
    ∃ p', calls.foldlM HttpProcessor.perform p = some p' ∧ Serves h p' := by
  induction calls generalizing p with
  | nil => exact ⟨p, rfl, hs⟩
  | cons call calls ih =>
    obtain ⟨p₁, hp₁, hs₁⟩ := hs.perform call (hcalls call List.mem_cons_self)
    obtain ⟨p', hp', hs'⟩ := ih hs₁ (fun c hc => hcalls c (List.mem_cons_of_mem _ hc))
    exact ⟨p', by rw [List.foldlM_cons, hp₁]; exact hp', hs'⟩

theorem Serves.send_data (hs : Serves h p) : p.isSendData = some (!h.isHead) := by
  obtain ⟨position, hposition⟩ := Option.isSome_iff_exists.mp hs.sound.method
  have hmethod : p.header.getQueryMethod = some (p.header.headerText position) := by
    rw [HttpHeader.getQueryMethod, hposition]
    rfl
  rw [isSendData, HttpHeader.isHead, ← hs.method, hmethod]
  rfl

def Suits (h : HttpHeader) (content : List UInt8) (length : Nat) : Prop :=
  content.length = (if h.isHead then 0 else length) ∧ (h.isHead = true ∨ length < 2 ^ 31)

theorem Serves.response (hs : Serves h p) (hsent : p.sendResponse now memory length = some sent)
    (hcontent : Suits h content.flatten length) : IsResponse h (sent.head ++ content) := by
  obtain ⟨version, hversion, -, hprocessor, hhead⟩ := send_response_cases hsent
  obtain ⟨version', hversion', hplain⟩ := hs.sound.version_text
  cases hversion.symm.trans hversion'
  have hresponse : sent.processor.response.IsPlain := by
    rw [hprocessor]
    exact { hs.sound.response with }
  have hlength : sent.processor.response.contentLength = length := by
    rw [hprocessor]
    rfl
  refine ⟨⟨headLines sent.processor.response version (p.connectionText version) now,
    content.flatten⟩, ⟨?_, ?_⟩, ?_⟩
  · exact head_line hresponse hplain (hs.sound.connection_text version) now
  · unfold HttpHeader.responseLength
    obtain ⟨hsize, hfits⟩ := hcontent
    split
    · next hhead' => simp [hsize, hhead']
    · next hget =>
      rw [head_announced (hlength ▸ hfits.resolve_left hget), hlength, hsize, if_neg hget]
  · rw [Message.text, List.flatten_append, hhead, head_sends_block]

theorem Serves.body (hs : Serves h p) (memory : Option (List UInt8))
    (hsent : p.sendResponse now memory (memory.getD []).length = some sent)
    (hfits : h.isHead = true ∨ (memory.getD []).length < 2 ^ 31) :
    Suits h sent.body.flatten (memory.getD []).length := by
  obtain ⟨version, -, hbody, -, -⟩ := send_response_cases hsent
  have hdata : (p.respond (p.connectionText version) (memory.getD []).length).isSendData =
      some (!h.isHead) := hs.send_data
  have hlength : (p.respond (p.connectionText version)
      (memory.getD []).length).response.contentLength = (memory.getD []).length := rfl
  refine ⟨?_, hfits⟩
  simp only [sendBody, hdata, hlength, Option.bind_eq_bind, Option.bind_some] at hbody
  cases memory with
  | none =>
    rw [← Option.some.inj hbody]
    simp
  | some memory =>
    cases hhead : h.isHead with
    | true =>
      rw [hhead] at hbody
      rw [← Option.some.inj hbody]
      rfl
    | false =>
      have hshort := hfits.resolve_left (by simp [hhead])
      have hnpos : (memory.length : Nat) ≠ npos := by
        have hlong : 2 ^ 31 < npos := by decide
        simp only [Option.getD_some] at hshort
        omega
      simp only [hhead, Option.getD_some, if_neg hnpos, Nat.le_refl, if_true, Bool.not_false,
        Bool.true_eq_false, if_false, Option.some.injEq] at hbody
      rw [← hbody]
      simp

theorem Serves.no_body (hs : Serves h p) (hsent : p.sendResponse now none length = some sent) :
    sent.body = [] := by
  obtain ⟨version, -, hbody, -, -⟩ := send_response_cases hsent
  have hdata : (p.respond (p.connectionText version) length).isSendData = some (!h.isHead) :=
    hs.send_data
  simp only [sendBody, hdata, Option.bind_eq_bind, Option.bind_some, Option.some.injEq] at hbody
  exact hbody.symm

theorem Serves.not_found {file : SentFile} (hs : Serves h p) (hfile : p.notFound now = some file) :
    IsResponse h (file.sent.head ++ file.sent.body ++ file.data) := by
  obtain ⟨sent, hsent, hfile⟩ := Option.bind_eq_some_iff.mp hfile
  obtain rfl := Option.some.inj hfile
  obtain ⟨q, hq, hs⟩ := hs.perform (.setResponseStatus 404 (ascii "Not found"))
    (by decide : PlainText (ascii "Not found"))
  obtain rfl := Option.some.inj hq
  have hbody := hs.body (some (ascii "File not found")) hsent (.inr (by decide))
  rw [List.append_nil]
  exact hs.response hsent hbody

/-- The length that has been announced can be read, or nobody reads it. -/
def Announcable (h : HttpHeader) (sent : SentResponse) : Prop :=
  h.isHead = true ∨ sent.processor.response.contentLength < 2 ^ 31

instance : Decidable (Announcable h sent) := inferInstanceAs (Decidable (_ ∨ _))

end HttpProcessor

namespace Server2hb

variable {env : HbEnv} {m : Moment} {http : HttpHeader} {session : Session S2hData}
  {s s' : Server2hb}

/-- The ids of all sessions in the memory can stand in a cookie. -/
def PlainIds (s : S2hSessions) : Prop :=
  ∀ id session, s.sessionMemory.lookup id = some session → PlainText session.sessionId

theorem PlainIds.found {s kept : S2hSessions} (h : PlainIds s) (hid : PlainText m.sessionId)
    {cookie : Option (List UInt8)}
    (hsession : s.processingSession m.now m.sessionId cookie = (some (session, created), kept)) :
    PlainText session.sessionId ∧ PlainIds kept := by
  have hcreated : ∀ s₁ : S2hSessions, PlainIds s₁ →
      SessionController.createSession s2hSession (some s2hCreator) m.now m.sessionId s₁ =
        (some (session, created), kept) → PlainText session.sessionId ∧ PlainIds kept := by
    intro s₁ h₁ hcreate
    cases hcreate
    refine ⟨hid, fun id held hheld => ?_⟩
    change (Table.insertNew _ _ s₁.sessionMemory).lookup id = some held at hheld
    rw [Table.lookup_insert_new] at hheld
    split at hheld
    · cases hfound : s₁.sessionMemory.lookup m.sessionId with
      | none =>
        have hnew : s₁.sessionMemory.lookup (s2hCreator m.sessionId (fromTimeT m.now)
            (fromTimeT m.now + minutes Session.defaultExpireMinutes)).sessionId = none := hfound
        rw [hnew] at hheld
        cases hheld
        exact hid
      | some found =>
        have hold : s₁.sessionMemory.lookup (s2hCreator m.sessionId (fromTimeT m.now)
            (fromTimeT m.now + minutes Session.defaultExpireMinutes)).sessionId = some found :=
          hfound
        rw [hold] at hheld
        cases hheld
        exact h₁ _ _ hfound
    · exact h₁ _ _ hheld
  unfold S2hSessions.processingSession SessionController.getSession at hsession
  split at hsession
  · next held hfound =>
    split at hsession
    · cases hsession
      have hplain : PlainText held.sessionId := h _ _ hfound
      refine ⟨hplain, fun id session' hlookup => ?_⟩
      rw [Table.lookup_insert] at hlookup
      split at hlookup
      · cases hlookup
        exact hplain
      · exact h _ _ hlookup
    · refine hcreated _ (fun id session' hlookup => ?_) hsession
      rw [Table.lookup_erase] at hlookup
      split at hlookup
      · cases hlookup
      · exact h _ _ hlookup
  · exact hcreated _ h hsession

theorem PlainIds.erased {s : S2hSessions} (h : PlainIds s) (id : List UInt8)
    (db : SessionDb SessionObject) :
    PlainIds { s with sessionMemory := s.sessionMemory.erase id, sessionDb := db } :=
  fun key session hlookup => h key session (Table.lookup_erase_some.mp hlookup).2

theorem PlainIds.alive {s : S2hSessions} (h : PlainIds s) (now : Int) :
    PlainIds (s.checkAliveSessions now) := by
  have hall : ∀ entries s, PlainIds s → PlainIds (SessionController.checkAlive now entries s) := by
    intro entries
    induction entries with
    | nil => exact fun s h => h
    | cons entry entries ih =>
      intro s h
      unfold SessionController.checkAlive
      split
      · exact ih _ (h.erased _ _)
      · exact ih _ h
  exact hall _ s h

theorem PlainIds.assigned {s : S2hSessions} (h : PlainIds s) (hid : PlainText session.sessionId) :
    PlainIds (s.assign session) := by
  intro id held hheld
  rw [SessionController.assign, Table.lookup_assign] at hheld
  split at hheld
  · obtain ⟨_, -, rfl⟩ := Option.map_eq_some_iff.mp hheld
    exact hid
  · exact h _ _ hheld

theorem PlainIds.served (h : PlainIds s.sessions) (hid : PlainText m.sessionId)
    (hserved : Served env m http s made s') : PlainIds s'.sessions := by
  cases hserved with
  | nothing => exact h
  | @action session _ _ _ haction kept hsession hacted =>
    obtain ⟨hplain, hkept⟩ := h.found hid hsession
    cases hacted with
    | nothing | change | refresh => exact hkept
    | login user => exact hkept.assigned hplain
    | logout =>
      have hassigned : PlainIds (kept.assign ({ session with data := S2hData.initial }.setExpired
        (fromTimeT m.now))) := hkept.assigned hplain
      intro id held hheld
      change AList.lookup id (AList.erase _ _) = _ at hheld
      rw [Table.lookup_erase] at hheld
      split at hheld
      · cases hheld
      · exact hassigned _ _ hheld

/-- The calls on the response that actions make for a session with the id. -/
inductive ActionCall (id : List UInt8) : ResponseCall → Prop
  | cookie (expire : Int) : ActionCall id (.setCookie sessionCode id expire none true)
  | content : ActionCall id jsContent
  | token : ActionCall id (.setContentType (ascii "application/json") (ascii "UTF-8"))
  | unauthorized : ActionCall id (.setResponseStatus 401 (ascii "Unauthorized"))
  | notFound : ActionCall id (.setResponseStatus 404 (ascii "Not found"))

theorem ActionCall.plain {id : List UInt8} (h : ActionCall id call) (hid : PlainText id) :
    call.IsPlain := by
  cases h with
  | cookie expire => exact ⟨(by decide : PlainText sessionCode), hid, by simp⟩
  | content =>
    exact ⟨(by decide : PlainText (ascii "application/javascript")),
      (by decide : PlainText (ascii "UTF-8"))⟩
  | token =>
    exact ⟨(by decide : PlainText (ascii "application/json")), (by decide : PlainText (ascii "UTF-8"))⟩
  | unauthorized => exact (by decide : PlainText (ascii "Unauthorized"))
  | notFound => exact (by decide : PlainText (ascii "Not found"))

def Calls (id : List UInt8) (x : HbAct ActionReply) : Prop :=
  Triple (fun _ => True) x (fun reply _ => ∀ call ∈ reply.calls, ActionCall id call) fun _ => True

end Server2hb

/-- `server2_hb` behind a connection: the requests are numbered, and `announcable`
says whether all lengths so far could be announced. There is no server when it has
ended with an exception. -/
structure HbService where
  server : Option Server2hb
  served : Nat
  announcable : Bool

namespace HbService

def serve (env : HbEnv) (moments : Nat → Moment) : ProcessHttp HbService := fun s http =>
  match s.server with
  | none => ⟨s, [], false⟩
  | some server =>
    match Server2hb.processHttp env (moments s.served) http server with
    | .ok file server =>
      file.sent.answer file.data ⟨some server, s.served + 1,
        s.announcable && decide (HttpProcessor.Announcable http file.sent)⟩
    | .error _ _ => ⟨{ s with server := none }, [], false⟩

/-- The server runs, and no length has been too great to be announced. -/
def Alive (s : HbService) : Prop := s.server.isSome ∧ s.announcable = true

def PlainIds (s : HbService) : Prop := ∀ server ∈ s.server, Server2hb.PlainIds server.sessions

/-- What is done to the server besides its requests: the pass of its timer, and
whatever is done to the database of the users. -/
inductive Elsewhere
  | timer (now : Nat)
  | administer (storage : S2hbStorage)

def elsewhere : Elsewhere → HbService → HbService
  | .timer now, s => { s with server := s.server.map fun server =>
      { server with sessions := server.sessions.checkAliveSessions now } }
  | .administer storage, s => { s with server := s.server.map fun server =>
      { server with storage := storage } }

/-- A login in two pieces, a pass of the timer and a request of another client
between them, and a request behind it for a file that is not there. -/
def annEvents : List (HttpController.Event Elsewhere) :=
  [.accepted fun _ => 0, .accepted fun _ => 0,
    .happened 0 (.arrived (ascii "POST /api/auth/login HTTP/1.1\r\nHost: a.b:80\r\nContent-Le")),
    .elsewhere (.timer 1), .happened 1 (.arrived (ascii "GET /api/none HTTP/1.1\r\n\r\n")),
    .happened 0 (.arrived (ascii "ngth: 2\r\n\r\n\x7b\x7dHEAD /none HTTP/1.1\r\n\r\n"))]

end HbService

end Khorost
