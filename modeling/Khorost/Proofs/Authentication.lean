import Khorost.Lib.Journal
import Khorost.Proofs.HbRequests

namespace Khorost.Server2hb

open Journal Throwing

abbrev Logins := List UInt8 → Option S2hData

def Mark.effect : Mark → Option S2hData → Option S2hData
  | created _ => fun _ => some S2hData.initial
  | login _ user => Option.map (S2hSessions.login user)
  | logout _ => fun _ => none

/-- What the marks make of the sessions that were there. -/
def logins (start : Logins) (history : List Mark) : Logins :=
  replay Mark.id Mark.effect start history

def stored (driver : SessionDb SessionObject) : Logins := fun id =>
  (driver.lookup id).bind fun row => S2hData.importData row.data

/-- All that memory and table know of a session is what has been made of it. -/
structure Holds (who : Logins) (s : S2hSessions) : Prop where
  keyed : SessionController.Keyed s.sessionMemory
  memory : ∀ id session, s.sessionMemory.lookup id = some session → who id = some session.data
  rows : ∀ id row, s.sessionDb.lookup id = some row →
    ∃ data, S2hData.importData row.data = some data ∧ who id = some data

/-- What happens to the server: a request, one that it does not survive, its timer,
an orderly restart, the end of its process at any time, and whatever else is done to
the database of the users. After an end it is started again. -/
inductive Event
  | request (m : Moment) (http : HttpHeader)
  | fatal (m : Moment) (http : HttpHeader) (now : Nat)
  | timer (now : Nat)
  | restart (now : Nat)
  | killed (now : Nat)
  | administer (storage : S2hbStorage)

def relaunch (versions : SessionVersions) (now : Nat) (db : SessionDb SessionObject)
    (s : Server2hb) : Option Server2hb :=
  (S2hSessions.setSessionDriver versions now db .new).map fun sessions =>
    { s with sessions := sessions, tokens := { s.tokens with tokens := fun _ => none } }

def step (env : HbEnv) (versions : SessionVersions) (s : Server2hb) : Event → Option Server2hb
  | .request m http =>
    match processHttp env m http s with
    | .ok _ s => some s
    | .error _ _ => none
  | .fatal m http now =>
    match processHttp env m http s with
    | .ok _ _ => none
    | .error _ s => relaunch versions now s.sessions.sessionDb s
  | .timer now => some { s with sessions := s.sessions.checkAliveSessions now }
  | .restart now => relaunch versions now (S2hSessions.shutdown now s.sessions) s
  | .killed now => relaunch versions now s.sessions.sessionDb s
  | .administer storage => some { s with storage := storage }

def eventMarks (env : HbEnv) (s : Server2hb) : Event → List Mark
  | .request m http | .fatal m http _ => marks env m http s
  | _ => []

/-- An id that is generated is not that of another session. -/
def Event.Fresh (s : Server2hb) : Event → Prop
  | .request m _ | .fatal m _ _ => m.sessionId ∉ s.sessions.sessionMemory
  | _ => True

/-- The runs of a server that has been started on a table, with their marks. -/
inductive Run (env : HbEnv) (versions : SessionVersions) (driver : SessionDb SessionObject) :
    List Mark → Server2hb → Prop
  | start (storage : S2hbStorage) (tokens : Server) {now : Nat}
    (h : S2hSessions.setSessionDriver versions now driver .new = some opened) :
    Run env versions driver [] ⟨opened, storage, tokens⟩
  | step (event : Event) (hr : Run env versions driver history s) (hfresh : event.Fresh s)
    (h : step env versions s event = some s') :
    Run env versions driver (history ++ eventMarks env s event) s'

variable {env : HbEnv} {versions : SessionVersions} {driver : SessionDb SessionObject}
  {m : Moment} {http : HttpHeader} {session : Session S2hData} {s s' : Server2hb}
  {who who' : Logins} {id : List UInt8} {sessions kept : S2hSessions} {history : List Mark} {mark : Mark}

theorem Holds.erased (h : Holds who sessions) (he : S2hSessions.Erased keys sessions kept)
    (hsame : ∀ id, id ∉ keys → who' id = who id) : Holds who' kept := by
  refine ⟨fun id session hm => h.keyed id session (he.memory.mp hm).2, fun id session hm => ?_,
    fun id row hrow => ?_⟩
  · obtain ⟨hkey, hold⟩ := he.memory.mp hm
    rw [hsame id hkey]
    exact h.memory id session hold
  · obtain ⟨hkey, hold⟩ := he.db.mp hrow
    rw [hsame id hkey]
    exact h.rows id row hold

theorem Holds.saved {now : Nat} (h : Holds who sessions)
    (hs : S2hSessions.Saved now session sessions kept)
    (hsame : ∀ id, id ≠ session.sessionId → who' id = who id)
    (hown : who' session.sessionId = some session.data) : Holds who' kept := by
  refine ⟨fun id held hm => ?_, fun id held hm => ?_, fun id row hrow => ?_⟩
  · by_cases hid : id = session.sessionId
    · subst hid
      rw [hs.own held hm]
    · exact h.keyed id held (hs.others id hid ▸ hm)
  · by_cases hid : id = session.sessionId
    · subst hid
      rw [hown, hs.own held hm]
    · rw [hsame id hid]
      exact h.memory id held (hs.others id hid ▸ hm)
  · rcases hs.row_cases hrow with ⟨rfl, -, -, hdata⟩ | ⟨hid, hold⟩
    · refine ⟨session.data, ?_, hown⟩
      rw [hdata, S2hData.import_export]
    · rw [hsame id hid]
      exact h.rows id row hold

theorem Holds.shifted (h : Holds who sessions)
    (hfound : sessions.sessionMemory.lookup id = some session) (value : Int) : Holds who
      { sessions with sessionMemory := sessions.sessionMemory.insert id (session.setExpired value) } := by
  have hid := h.keyed id session hfound
  refine ⟨fun key held hm => ?_, fun key held hm => ?_, h.rows⟩
  · rw [Table.lookup_insert] at hm
    split at hm
    · next hkey =>
      cases hm
      exact hid.trans hkey.symm
    · exact h.keyed key held hm
  · rw [Table.lookup_insert] at hm
    split at hm
    · next hkey =>
      cases hm
      rw [hkey]
      exact h.memory id session hfound
    · exact h.memory key held hm

theorem logins_single (who : Logins) (mark : Mark) (id : List UInt8) :
    logins who [mark] id = if id = mark.id then mark.effect (who id) else who id := rfl

theorem logins_append (who : Logins) (history later : List Mark) :
    logins who (history ++ later) = logins (logins who history) later := replay_append ..

/-- There is no session under an id that has not been generated. -/
theorem logins_none (hwho : who id = none) (hnew : .created id ∉ history) :
    logins who history id = none := by
  apply replay_keep (P := fun data => data = none) _ hwho
  intro mark hmark hid data hdata
  subst hdata
  cases mark with
  | created id' =>
    obtain rfl : id' = id := hid
    exact absurd hmark hnew
  | login | logout => rfl

theorem Holds.new_session (h : Holds who sessions) (now : Nat)
    (hfresh : generated ∉ sessions.sessionMemory) : Holds (logins who [.created generated])
      (SessionController.createSession s2hSession (some s2hCreator) now generated sessions).2 := by
  apply h.saved (S2hSessions.created_saved hfresh)
  · intro id hid
    exact if_neg hid
  · exact if_pos rfl

theorem Holds.found (h : Holds who sessions) (hfresh : m.sessionId ∉ sessions.sessionMemory)
    {cookie : Option (List UInt8)}
    (hsession : sessions.processingSession m.now m.sessionId cookie =
      (some (session, created), kept)) :
    Holds (logins who (if created then [.created session.sessionId] else [])) kept ∧
      logins who (if created then [.created session.sessionId] else []) session.sessionId =
        some session.data ∧
      session.sessionId = if created then m.sessionId else cookie.getD [] := by
  have ho := SessionController.get_outcome s2hSession h.keyed (some s2hCreator) m.now m.sessionId
    (cookie.getD [])
  unfold S2hSessions.processingSession at hsession
  rw [hsession] at ho
  generalize hresult : (some (session, created), kept) = result at ho
  cases ho with
  | @live found shifted hfound hlive hshifted =>
    cases hresult
    subst hshifted
    have hid : found.sessionId = cookie.getD [] := h.keyed _ found hfound
    refine ⟨h.shifted hfound _, ?_, hid⟩
    change who found.sessionId = some found.data
    rw [hid]
    exact h.memory _ found hfound
  | expired hfound hexpired =>
    have hnew : m.sessionId ∉ (sessions.forget (cookie.getD [])).sessionMemory :=
      fun hmem => hfresh (SessionController.forget_mem.mp hmem).2
    have hkept := (h.erased (S2hSessions.forgotten _ sessions) fun _ _ => rfl).new_session
      m.now hnew
    cases hresult
    exact ⟨hkept, if_pos rfl, rfl⟩
  | absent hnone =>
    have hkept := h.new_session m.now hfresh
    cases hresult
    exact ⟨hkept, if_pos rfl, rfl⟩

theorem logged_out {now : Nat} (session : Session S2hData) (sessions : S2hSessions) :
    S2hSessions.Erased [session.sessionId] sessions (sessions.actionLogout now session) := by
  refine ⟨?_, Table.lookup_erase_some, rfl⟩
  intro id held
  change AList.lookup id (AList.erase session.sessionId
    (Table.assign session.sessionId _ sessions.sessionMemory)) = _ ↔ _
  rw [Table.lookup_erase_some, Table.lookup_assign]
  refine and_congr_right fun hid => ?_
  rw [if_neg (List.mem_singleton.not.mp hid)]

theorem Holds.acted (h : Holds who s.sessions) (hown : who session.sessionId = some session.data)
    (ha : Acted env m http session s made s') : Holds (logins who made) s'.sessions := by
  cases ha with
  | nothing | change | refresh => exact h
  | login user hauth huser =>
    apply h.saved (S2hSessions.assigned_saved
      { session with data := S2hSessions.login user session.data } s.sessions)
    · intro id hid
      exact if_neg hid
    · have hlogged : logins who [.login session.sessionId user] session.sessionId =
          some (S2hSessions.login user session.data) := by
        simp [logins_single, Mark.id, Mark.effect, hown]
      exact hlogged
  | logout =>
    apply h.erased (logged_out session s.sessions)
    intro id hid
    exact if_neg (List.mem_singleton.not.mp hid)

theorem Holds.served (h : Holds who s.sessions) (hfresh : m.sessionId ∉ s.sessions.sessionMemory)
    (hs : Served env m http s made s') : Holds (logins who made) s'.sessions := by
  cases hs with
  | nothing => exact h
  | action haction kept hsession hacted =>
    obtain ⟨hkept, hown, -⟩ := h.found hfresh hsession
    rw [logins_append]
    exact Holds.acted (s := { s with sessions := kept }) hkept hown hacted

theorem Holds.request (h : Holds who s.sessions) (env : HbEnv) (http : HttpHeader)
    (hfresh : m.sessionId ∉ s.sessions.sessionMemory) :
    Holds (logins who (marks env m http s)) (after (processHttp env m http s)).sessions :=
  h.served hfresh (process_http_served env m http s)

theorem load_imports {rows : List ((_ : List UInt8) × Row SessionObject)}
    {memory memory' : SessionMemory S2hData}
    (h : SessionDb.loadRows s2hSession (some s2hCreator) rows memory = some memory') :
    ∀ entry ∈ rows, ∃ data, S2hData.importData entry.2.data = some data := by
  induction rows generalizing memory with
  | nil => simp
  | cons entry rows ih =>
    obtain ⟨sid, row⟩ := entry
    obtain ⟨session, himport, -, hrest⟩ := SessionController.load_row (fun _ _ _ => rfl) h
    obtain ⟨data, hdata, -⟩ := Option.map_eq_some_iff.mp himport
    simp only [List.forall_mem_cons]
    exact ⟨⟨data, hdata⟩, ih hrest⟩

/-- A process knows of its sessions what the table says. -/
theorem opened_holds {now : Nat}
    (h : S2hSessions.setSessionDriver versions now driver .new = some sessions)
    (hrows : ∀ id row data, driver.lookup id = some row → S2hData.importData row.data = some data →
      who id = some data) : Holds who sessions := by
  have ho := S2hSessions.opened h
  obtain ⟨memory, hload, h⟩ := Option.bind_eq_some_iff.mp h
  cases h
  have himports := load_imports hload
  have hrow : ∀ id row, (S2hSessions.remaining versions now driver).lookup id = some row →
      ∃ data, S2hData.importData row.data = some data ∧ who id = some data := by
    intro id row hrow
    obtain ⟨data, hdata⟩ := himports _ (AList.mem_lookup_iff.mp hrow)
    exact ⟨data, hdata, hrows id row data (S2hSessions.remaining_some hrow).1 hdata⟩
  refine ⟨ho.keyed fun _ _ hm => absurd hm S2hSessions.new_empty, fun id session hm => ?_, hrow⟩
  have hlookup := SessionController.load_lookup (fun _ _ _ => rfl) id hload
  rw [hm] at hlookup
  obtain ⟨row, hthere, himport⟩ := Option.bind_eq_some_iff.mp hlookup.symm
  obtain ⟨data, hdata, rfl⟩ := Option.map_eq_some_iff.mp himport
  exact hrows id row data (S2hSessions.remaining_some hthere).1 hdata

theorem Holds.relaunched {now : Nat} {db : SessionDb SessionObject}
    (hrows : ∀ id row, db.lookup id = some row →
      ∃ data, S2hData.importData row.data = some data ∧ who id = some data)
    (h : relaunch versions now db s = some s') : Holds who s'.sessions := by
  obtain ⟨opened, hopen, rfl⟩ := Option.map_eq_some_iff.mp h
  apply opened_holds hopen
  intro id row data hrow hdata
  obtain ⟨data', hdata', hwho⟩ := hrows id row hrow
  rw [hwho, ← hdata', hdata]

theorem Holds.alive (h : Holds who sessions) (now : Nat) :
    Holds who (sessions.checkAliveSessions now) :=
  h.erased (S2hSessions.shutdown_erased now h.keyed) fun _ _ => rfl

theorem Holds.step (h : Holds who s.sessions) (event : Event) (hfresh : event.Fresh s)
    (hs : step env versions s event = some s') :
    Holds (logins who (eventMarks env s event)) s'.sessions := by
  cases event with
  | request m http =>
    have hkept := h.request env http hfresh
    simp only [Server2hb.step] at hs
    cases hr : processHttp env m http s with
    | ok file s₁ =>
      rw [hr] at hs hkept
      cases hs
      exact hkept
    | error e s₁ =>
      rw [hr] at hs
      cases hs
  | fatal m http now =>
    have hkept := h.request env http hfresh
    simp only [Server2hb.step] at hs
    cases hr : processHttp env m http s with
    | ok file s₁ =>
      rw [hr] at hs
      cases hs
    | error e s₁ =>
      rw [hr] at hs hkept
      exact .relaunched hkept.rows hs
  | timer now =>
    cases hs
    exact h.alive now
  | restart now => exact .relaunched (h.alive now).rows hs
  | killed now => exact .relaunched h.rows hs
  | administer storage =>
    cases hs
    exact h

/-- Whatever requests, timers, restarts, crashes and changes of the users there have
been, a session that the server knows is what the logins and the logout under its id
have made of it. -/
theorem Run.holds (hr : Run env versions driver history s) :
    Holds (logins (stored driver) history) s.sessions := by
  induction hr with
  | start storage tokens h =>
    apply opened_holds h
    intro id row data hrow hdata
    change (AList.lookup id driver).bind _ = _
    rw [hrow]
    exact hdata
  | step event hr hfresh h ih =>
    rw [logins_append]
    exact ih.step event hfresh h

/-- The mark that has come behind `before` is one of a request that the server has
processed in the state `s`. -/
def MarkedBy (env : HbEnv) (versions : SessionVersions) (driver : SessionDb SessionObject)
    (before : List Mark) (mark : Mark) (m : Moment) (http : HttpHeader) (s : Server2hb) : Prop :=
  ∃ earlier front behind, Run env versions driver earlier s ∧
    m.sessionId ∉ s.sessions.sessionMemory ∧
    marks env m http s = front ++ mark :: behind ∧ before = earlier ++ front

theorem Run.marked (hr : Run env versions driver history s)
    (hsplit : history = before ++ mark :: later) :
    ∃ m http s₀, MarkedBy env versions driver before mark m http s₀ := by
  induction hr generalizing before later with
  | start => simp at hsplit
  | @step history s _ event hr hfresh h ih =>
    have hnew : ∀ front behind, before = history ++ front →
        eventMarks env s event = front ++ mark :: behind →
        ∃ m http s₀, MarkedBy env versions driver before mark m http s₀ := by
      intro front behind hbefore hmarks
      cases event with
      | request m http => exact ⟨m, http, s, history, front, behind, hr, hfresh, hmarks, hbefore⟩
      | fatal m http now => exact ⟨m, http, s, history, front, behind, hr, hfresh, hmarks, hbefore⟩
      | timer | restart | killed | administer =>
        have hempty := congrArg List.length hmarks
        simp [eventMarks] at hempty
    rcases List.append_eq_append_iff.mp hsplit with ⟨front, hbefore, hmarks⟩ | ⟨rest, hold, hmarks⟩
    · exact hnew front later hbefore hmarks
    · cases rest with
      | nil =>
        rw [List.append_nil] at hold
        exact hnew [] later (by simp [hold]) hmarks.symm
      | cons first rest =>
        obtain ⟨rfl, -⟩ := List.cons.inj hmarks
        exact ih hold

/-- The marks of a request are those of its action behind that of a new session. -/
theorem marks_cases (hmark : mark ∈ marks env m http s) : ∃ session created kept,
    s.sessions.processingSession m.now m.sessionId (http.getCookie sessionCode none) =
      (some (session, created), kept) ∧ mark.id = session.sessionId ∧
    (mark = .created session.sessionId ∧ created = true ∨
      mark ∈ actionMarks env http s.storage session.sessionId) := by
  obtain ⟨session, created, kept, hsession⟩ := session_found m http s.sessions
  refine ⟨session, created, kept, hsession, ?_⟩
  unfold marks at hmark
  split at hmark
  · rw [hsession] at hmark
    rcases List.mem_append.mp hmark with hcreated | haction
    · cases created with
      | false => cases hcreated
      | true =>
        obtain rfl := List.mem_singleton.mp hcreated
        exact ⟨rfl, .inl ⟨rfl, rfl⟩⟩
    · refine ⟨?_, .inr haction⟩
      unfold actionMarks at haction
      split at haction
      · split at haction
        · obtain rfl := List.mem_singleton.mp haction
          rfl
        · cases haction
      · split at haction
        · obtain rfl := List.mem_singleton.mp haction
          rfl
        · cases haction
  · cases hmark

theorem created_unmarked {storage : S2hbStorage} : .created id ∉ actionMarks env http storage id' := by
  unfold actionMarks
  split
  · split
    · simp
    · simp
  · split
    · simp
    · simp

theorem login_marked {storage : S2hbStorage} (h : .login id user ∈ actionMarks env http storage id') :
    authAction http = some (ascii "login") ∧ loginUser env http storage = some (some user) := by
  unfold actionMarks at h
  split at h
  · next hauth =>
    split at h
    · next found huser =>
      cases List.mem_singleton.mp h
      exact ⟨hauth, huser⟩
    · cases h
  · split at h
    · cases List.mem_singleton.mp h
    · cases h

/-- The password that the request names is the one of the user. -/
def Proves (env : HbEnv) (http : HttpHeader) (storage : S2hbStorage) (user : User) : Prop :=
  ∃ login password info, storage.accounts.getUserInfoByLogin login = some (some info) ∧
    recalcPasswordHash env.md5 login password info.salt = info.passwordHash ∧
    user.id = info.userId ∧ user.nickname = info.nickname ∧
    ∃ auth, env.parseJson http.getBody = some auth ∧
      (auth.member (ascii "login")).bind JsonValue.asString = some login ∧
      (auth.member (ascii "password")).bind JsonValue.asString = some password

theorem login_proves {storage : S2hbStorage} (h : loginUser env http storage = some (some user)) :
    Proves env http storage user := by
  unfold loginUser at h
  split at h
  · cases h
  · next auth hauth =>
    simp only [Option.bind_eq_bind, Option.bind_eq_some_iff] at h
    obtain ⟨value, hvalue, login, hlogin, value', hvalue', password, hpassword, found, hfound, h⟩ := h
    obtain ⟨row, hrow, rfl⟩ := Option.map_eq_some_iff.mp hfound
    cases hinfo : row.filter fun info =>
        recalcPasswordHash env.md5 login password info.salt = info.passwordHash with
    | none =>
      rw [hinfo] at h
      cases h
    | some info =>
      rw [hinfo] at h
      obtain ⟨roles, -, h⟩ := Option.bind_eq_some_iff.mp h
      cases h
      obtain ⟨hthere, hhash⟩ := Option.filter_eq_some_iff.mp hinfo
      refine ⟨login, password, info, hrow.trans (congrArg some hthere), by simpa using hhash, rfl,
        rfl, auth, hauth, ?_, ?_⟩
      · exact Option.bind_eq_some_iff.mpr ⟨value, hvalue, hlogin⟩
      · exact Option.bind_eq_some_iff.mpr ⟨value', hvalue', hpassword⟩

/-- The last thing that has been done under the id is a login with the password of
its user, by a request that has had the session. -/
def LoggedInBy (env : HbEnv) (versions : SessionVersions) (driver : SessionDb SessionObject)
    (history : List Mark) (id : List UInt8) (session : Session S2hData) : Prop :=
  ∃ before user later m http s₀, history = before ++ .login id user :: later ∧
    (∀ mark ∈ later, mark.id ≠ id) ∧ session.data.idUser = user.id ∧
    MarkedBy env versions driver before (.login id user) m http s₀ ∧
    authAction http = some (ascii "login") ∧ Proves env http s₀.storage user ∧
    (id = (http.getCookie sessionCode none).getD [] ∨ id = m.sessionId)

/-- A session is logged in only by a login with the password of its user, which
nothing has come after; or it was so in the table at the start, and nothing has been
done under its id. -/
theorem authenticated_by_login (hr : Run env versions driver history s)
    (hm : s.sessions.sessionMemory.lookup id = some session)
    (ha : session.data.authenticate = true) :
    (stored driver id = some session.data ∧ ∀ mark ∈ history, mark.id ≠ id) ∨
      LoggedInBy env versions driver history id session := by
  have hwho := hr.holds.memory id session hm
  rcases replay_last Mark.id Mark.effect (stored driver) history id with
    ⟨hnone, hstart⟩ | ⟨before, mark, later, hsplit, rfl, hlater, heffect⟩
  · exact .inl ⟨hstart.symm.trans hwho, hnone⟩
  · right
    have hdata := heffect.symm.trans hwho
    cases mark with
    | created id =>
      rw [← Option.some.inj hdata] at ha
      cases ha
    | logout id => cases hdata
    | login id' user =>
      obtain ⟨data, -, hlogin⟩ := Option.map_eq_some_iff.mp hdata
      obtain ⟨m, http, s₀, hmarked⟩ := hr.marked hsplit
      obtain ⟨earlier, front, behind, hearlier, hfresh, hmarks, hbefore⟩ := hmarked
      have hmem : Mark.login id' user ∈ marks env m http s₀ := by simp [hmarks]
      obtain ⟨found, created, kept, hsession, hid, hcases⟩ := marks_cases hmem
      obtain ⟨-, -, hfound⟩ := hearlier.holds.found hfresh hsession
      have haction := hcases.resolve_left (by simp)
      obtain ⟨hauth, huser⟩ := login_marked haction
      refine ⟨before, user, later, m, http, s₀, hsplit, hlater, ?_,
        ⟨earlier, front, behind, hearlier, hfresh, hmarks, hbefore⟩, hauth, login_proves huser, ?_⟩
      · rw [← hlogin]
        rfl
      · rw [hid, hfound]
        cases created with
        | true => exact .inr rfl
        | false => exact .inl rfl

def annLoggedIn : Server2hb :=
  (step annEnv sessionVersions annServer (.request (annMoment 0) annLogin)).getD annServer

theorem ann_steps : step annEnv sessionVersions annServer (.request (annMoment 0) annLogin) =
    some annLoggedIn := by
  have hsome : (step annEnv sessionVersions annServer
      (.request (annMoment 0) annLogin)).isSome = true := by decide +kernel
  obtain ⟨s, hs⟩ := Option.isSome_iff_exists.mp hsome
  rw [annLoggedIn, hs]
  rfl

theorem ann_start : Run annEnv sessionVersions ∅ [] annServer := by
  apply Run.start annServer.storage annServer.tokens
  exact (rfl : S2hSessions.setSessionDriver sessionVersions (0 : Nat) ∅ .new =
    some annServer.sessions)

theorem ann_run : Run annEnv sessionVersions ∅
    (marks annEnv (annMoment 0) annLogin annServer) annLoggedIn := by
  have hfresh : (Event.request (annMoment 0) annLogin).Fresh annServer :=
    AList.notMem_empty (annMoment 0).sessionId
  have hr := ann_start.step _ hfresh ann_steps
  rw [List.nil_append, eventMarks] at hr
  exact hr

theorem ann_authenticated : ∃ session,
    annLoggedIn.sessions.sessionMemory.lookup (ascii "sid0") = some session ∧
      ((stored ∅ (ascii "sid0") = some session.data ∧
          ∀ mark ∈ marks annEnv (annMoment 0) annLogin annServer, mark.id ≠ ascii "sid0") ∨
        LoggedInBy annEnv sessionVersions ∅ (marks annEnv (annMoment 0) annLogin annServer)
          (ascii "sid0") session) := by
  have hthere : (annLoggedIn.sessions.sessionMemory.lookup (ascii "sid0")).any
      (·.data.authenticate) = true := by decide +kernel
  obtain ⟨session, hm, ha⟩ := (Option.any_eq_true _ _).mp hthere
  exact ⟨session, hm, authenticated_by_login ann_run hm ha⟩

/-- After a logout nothing is left of a session, and nobody can use it, until its id
is generated once more. -/
theorem logout_final (hr : Run env versions driver (before ++ .logout id :: later) s)
    (hnew : .created id ∉ later) :
    s.sessions.sessionMemory.lookup id = none ∧ s.sessions.sessionDb.lookup id = none ∧
    ∀ m : Moment, ∃ session kept,
      s.sessions.processingSession m.now m.sessionId (some id) = (some (session, true), kept) ∧
        session.sessionId = m.sessionId ∧ session.data = .initial := by
  have hwho : logins (stored driver) (before ++ .logout id :: later) id = none := by
    have hsplit : before ++ Mark.logout id :: later = (before ++ [.logout id]) ++ later := by simp
    rw [hsplit, logins_append]
    apply logins_none _ hnew
    rw [logins_append]
    exact if_pos rfl
  have hmemory : s.sessions.sessionMemory.lookup id = none := by
    cases hm : s.sessions.sessionMemory.lookup id with
    | none => rfl
    | some session =>
      have hknown := hr.holds.memory id session hm
      rw [hwho] at hknown
      cases hknown
  refine ⟨hmemory, ?_, fun m => ?_⟩
  · cases hrow : s.sessions.sessionDb.lookup id with
    | none => rfl
    | some row =>
      obtain ⟨data, -, hknown⟩ := hr.holds.rows id row hrow
      rw [hwho] at hknown
      cases hknown
  · have hget : s.sessions.processingSession m.now m.sessionId (some id) =
        SessionController.createSession s2hSession (some s2hCreator) m.now m.sessionId s.sessions := by
      simp only [S2hSessions.processingSession, SessionController.getSession, Option.getD_some,
        hmemory]
    exact ⟨_, _, hget, rfl, rfl⟩

theorem ann_logged_out : ∃ s,
    step annEnv sessionVersions annLoggedIn (.request (annMoment 1) annLogout) = some s ∧
      s.sessions.sessionMemory.lookup (ascii "sid0") = none ∧
      s.sessions.sessionDb.lookup (ascii "sid0") = none ∧
      ∀ m : Moment, ∃ session kept,
        s.sessions.processingSession m.now m.sessionId (some (ascii "sid0")) =
          (some (session, true), kept) ∧ session.sessionId = m.sessionId ∧
          session.data = .initial := by
  have hsome : (step annEnv sessionVersions annLoggedIn
      (.request (annMoment 1) annLogout)).isSome = true := by decide +kernel
  obtain ⟨s, hs⟩ := Option.isSome_iff_exists.mp hsome
  have hmarks : marks annEnv (annMoment 1) annLogout annLoggedIn = [.logout (ascii "sid0")] := by
    decide +kernel
  have hfresh : (annMoment 1).sessionId ∉ annLoggedIn.sessions.sessionMemory := by decide +kernel
  have hr := ann_run.step (.request (annMoment 1) annLogout) hfresh hs
  rw [eventMarks, hmarks] at hr
  exact ⟨s, hs, logout_final hr (by simp)⟩

/-- An id that is known was in the table at the start, or a session has been created
under it. -/
theorem known_id (hr : Run env versions driver history s)
    (hm : s.sessions.sessionMemory.lookup id = some session) :
    (∃ row, driver.lookup id = some row) ∨ .created id ∈ history := by
  have hwho := hr.holds.memory id session hm
  by_cases hcreated : .created id ∈ history
  · exact .inr hcreated
  · left
    cases hrow : driver.lookup id with
    | some row => exact ⟨row, rfl⟩
    | none =>
      have hstart : stored driver id = none := by
        rw [stored, hrow]
        rfl
      rw [logins_none hstart hcreated] at hwho
      cases hwho

/-- No request brings an id of its own: the server has generated every id that it
knows, or has found it in the table at the start. -/
theorem ids_generated (hr : Run env versions driver history s)
    (hm : s.sessions.sessionMemory.lookup id = some session) :
    (∃ row, driver.lookup id = some row) ∨
    ∃ before later m http s₀, history = before ++ .created id :: later ∧
      MarkedBy env versions driver before (.created id) m http s₀ ∧ id = m.sessionId := by
  rcases known_id hr hm with hrow | hcreated
  · exact .inl hrow
  · obtain ⟨before, later, hsplit⟩ := List.append_of_mem hcreated
    obtain ⟨m, http, s₀, hmarked⟩ := hr.marked hsplit
    obtain ⟨earlier, front, behind, hearlier, hfresh, hmarks, hbefore⟩ := hmarked
    have hmem : Mark.created id ∈ marks env m http s₀ := by simp [hmarks]
    obtain ⟨found, created, kept, hsession, hid, hcases⟩ := marks_cases hmem
    obtain ⟨-, -, hfound⟩ := hearlier.holds.found hfresh hsession
    obtain ⟨-, rfl⟩ := hcases.resolve_right created_unmarked
    exact .inr ⟨before, later, m, http, s₀, hsplit,
      ⟨earlier, front, behind, hearlier, hfresh, hmarks, hbefore⟩, hid.trans hfound⟩

theorem ann_generated : ∃ session,
    annLoggedIn.sessions.sessionMemory.lookup (ascii "sid0") = some session ∧
      ((∃ row, AList.lookup (ascii "sid0") (∅ : SessionDb SessionObject) = some row) ∨
        ∃ before later m http s₀, marks annEnv (annMoment 0) annLogin annServer =
            before ++ .created (ascii "sid0") :: later ∧
          MarkedBy annEnv sessionVersions ∅ before (.created (ascii "sid0")) m http s₀ ∧
          ascii "sid0" = m.sessionId) := by
  have hthere : (annLoggedIn.sessions.sessionMemory.lookup (ascii "sid0")).isSome = true := by
    decide +kernel
  obtain ⟨session, hm⟩ := Option.isSome_iff_exists.mp hthere
  exact ⟨session, hm, ids_generated ann_run hm⟩

end Khorost.Server2hb
