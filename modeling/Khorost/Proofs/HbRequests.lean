import Khorost.App.Server2hb
import Khorost.Lib.Throwing
import Khorost.Proofs.Reached
import Khorost.Proofs.Restart

namespace Khorost.Server2hb

open Throwing

def isAction (http : HttpHeader) : Bool :=
  http.getQueryUri.any fun uri => uri.take urlPrefixAction.length = urlPrefixAction

/-- The name of the action of `auth` that the request is for. -/
def authAction (http : HttpHeader) : Option (List UInt8) := do
  let uri ← http.getQueryUri
  if uri.take urlPrefixAction.length = urlPrefixAction then
    let (action, params) := parseAction (uri.drop urlPrefixAction.length)
    if action = ascii "auth" then some (parseAction params).1 else none
  else none

/-- What becomes of a session, by its id. -/
inductive Mark
  | created (id : List UInt8)
  | login (id : List UInt8) (user : User)
  | logout (id : List UInt8)

deriving instance DecidableEq for User, Mark

def Mark.id : Mark → List UInt8
  | created id | login id _ | logout id => id

/-- What the action makes of the session with the id. -/
def actionMarks (env : HbEnv) (http : HttpHeader) (storage : S2hbStorage) (id : List UInt8) :
    List Mark :=
  if authAction http = some (ascii "login") then
    match loginUser env http storage with
    | some (some user) => [.login id user]
    | _ => []
  else if authAction http = some (ascii "logout") then [.logout id]
  else []

def marks (env : HbEnv) (m : Moment) (http : HttpHeader) (s : Server2hb) : List Mark :=
  if isAction http then
    match (s.sessions.processingSession m.now m.sessionId (http.getCookie sessionCode none)).1 with
    | some (session, created) =>
      (if created then [.created session.sessionId] else []) ++
        actionMarks env http s.storage session.sessionId
    | none => []
  else []

/-- What an action does to the server once the session of the request is there. -/
inductive Acted (env : HbEnv) (m : Moment) (http : HttpHeader) (session : Session S2hData)
    (s : Server2hb) : List Mark → Server2hb → Prop
  | nothing : Acted env m http session s [] s
  | login (user : User) (hauth : authAction http = some (ascii "login"))
    (huser : loginUser env http s.storage = some (some user)) :
    Acted env m http session s [.login session.sessionId user]
      { s with sessions := s.sessions.actionLogin m.now (some user) session }
  | logout : Acted env m http session s [.logout session.sessionId]
      { s with sessions := s.sessions.actionLogout m.now session }
  | change : Acted env m http session s []
      { s with storage := { s.storage with
        accounts := after (UserStorage.actionChange env.md5 http session.data s.storage.accounts) } }
  | refresh : Acted env m http session s []
      { s with tokens := (Server.actionRefreshToken env.tokens http m.microseconds m.accessToken
        m.refreshToken s.tokens).2 }

/-- Everything that a request can do to the server. -/
inductive Served (env : HbEnv) (m : Moment) (http : HttpHeader) (s : Server2hb) :
    List Mark → Server2hb → Prop
  | nothing (hno : isAction http = false) : Served env m http s [] s
  | action (haction : isAction http = true) (kept : S2hSessions)
    (hsession : s.sessions.processingSession m.now m.sessionId (http.getCookie sessionCode none) =
      (some (session, created), kept))
    (h : Acted env m http session { s with sessions := kept } acted s') :
    Served env m http s ((if created then [.created session.sessionId] else []) ++ acted) s'

variable {env : HbEnv} {m : Moment} {http : HttpHeader} {session : Session S2hData}
  {s s' : Server2hb}

@[simp] theorem after_or_throw (r : Option α) (s : Server2hb) : after (orThrow r s) = s := by
  cases r with
  | none => rfl
  | some a => rfl

theorem after_bind {x : HbAct α} {f : α → HbAct β} (hf : ∀ a s, after (f a s) = s)
    (s : Server2hb) : after ((x >>= f) s) = after (x s) := by
  cases hx : x s with
  | ok a s₁ =>
    rw [bind_ok hx]
    exact hf a s₁
  | error e s₁ =>
    rw [bind_error hx]
    rfl

theorem login_acted (hauth : authAction http = some (ascii "login")) (s : Server2hb) :
    Acted env m http session s (actionMarks env http s.storage session.sessionId)
      (after (login env m http session s)) := by
  have hfirst : login env m http session s = (orThrow (loginUser env http s.storage) >>=
      fun found => found.elim (pure session) fun user => do
        modify fun s => { s with sessions := s.sessions.actionLogin m.now (some user) session }
        pure { session with data := S2hSessions.login user session.data }) s := by
    apply congrArg (fun rest => (orThrow (loginUser env http s.storage) >>= rest) s)
    funext found
    cases found <;> rfl
  rw [hfirst, actionMarks, if_pos hauth]
  cases huser : loginUser env http s.storage with
  | none => exact .nothing
  | some user =>
    cases user with
    | none => exact .nothing
    | some user => exact .login user hauth huser

theorem change_acted (s : Server2hb) :
    Acted env m http session s [] (after (change env http session s)) := by
  have h : Acted env m http session s [] _ := .change
  unfold change
  cases hr : UserStorage.actionChange env.md5 http session.data s.storage.accounts with
  | ok root accounts =>
    rw [hr] at h
    exact h
  | error e accounts =>
    rw [hr] at h
    exact h

theorem no_marks (hlogin : authAction http ≠ some (ascii "login"))
    (hlogout : authAction http ≠ some (ascii "logout")) (storage : S2hbStorage)
    (id : List UInt8) : actionMarks env http storage id = [] := by
  rw [actionMarks, if_neg hlogin, if_neg hlogout]

theorem auth_acted (hauth : authAction http = some (parseAction params).1) (s : Server2hb) :
    Acted env m http session s (actionMarks env http s.storage session.sessionId)
      (after (actionAuth env m params http session s)) := by
  unfold actionAuth
  generalize parseAction params = action at hauth ⊢
  obtain ⟨action, rest⟩ := action
  dsimp only at hauth ⊢
  split
  · next h =>
    rw [after_bind (fun _ _ => rfl)]
    exact login_acted (h ▸ hauth) s
  · next hlogin =>
    split
    · next h =>
      have hmarks : actionMarks env http s.storage session.sessionId =
          [.logout session.sessionId] := by
        rw [actionMarks, hauth, if_neg (by simp [hlogin]), if_pos (by simp [h])]
      rw [hmarks]
      exact .logout
    · next hlogout =>
      rw [no_marks (by simp [hauth, hlogin]) (by simp [hauth, hlogout])]
      split
      · rw [after_bind (fun _ _ => rfl)]
        exact change_acted s
      · exact .nothing

theorem refresh_acted (s : Server2hb) :
    Acted env m http session s [] (after (actionRefreshToken env m http s)) := by
  have h : Acted env m http session s [] _ := .refresh
  unfold actionRefreshToken
  generalize Server.actionRefreshToken env.tokens http m.microseconds m.accessToken
    m.refreshToken s.tokens = result at h ⊢
  obtain ⟨reply, tokens⟩ := result
  cases reply with
  | token json => exact h
  | status code reason => exact h

theorem session_found (m : Moment) (http : HttpHeader) (s : S2hSessions) :
    ∃ session created kept, s.processingSession m.now m.sessionId
      (http.getCookie sessionCode none) = (some (session, created), kept) := by
  unfold S2hSessions.processingSession SessionController.getSession
  split
  · split
    · exact ⟨_, _, _, rfl⟩
    · exact ⟨_, _, _, rfl⟩
  · exact ⟨_, _, _, rfl⟩

theorem action_served (haction : isAction http = true)
    (hauth : authAction http = if action = ascii "auth" then some (parseAction params).1 else none)
    (s : Server2hb) : Served env m http s (marks env m http s)
      (after (processHttpAction env m action params http s)) := by
  obtain ⟨session, created, kept, hsession⟩ := session_found m http s.sessions
  have hfirst : processingSession m http s = .ok session { s with sessions := kept } := by
    rw [processingSession, hsession]
  have hmarks : marks env m http s = (if created then [.created session.sessionId] else []) ++
      actionMarks env http s.storage session.sessionId := by
    rw [marks, if_pos haction, hsession]
  rw [hmarks]
  refine .action haction kept hsession ?_
  rw [processHttpAction, bind_ok hfirst]
  split
  · next h =>
    rw [after_bind fun _ _ => rfl]
    exact auth_acted (hauth.trans (if_pos h)) { s with sessions := kept }
  · next h =>
    rw [no_marks (by simp [hauth, h]) (by simp [hauth, h])]
    split
    · rw [after_bind fun _ _ => rfl]
      exact refresh_acted _
    · exact .nothing

theorem process_http_served (env : HbEnv) (m : Moment) (http : HttpHeader) (s : Server2hb) :
    Served env m http s (marks env m http s) (after (processHttp env m http s)) := by
  unfold processHttp
  cases huri : http.getQueryUri with
  | none =>
    have hno : isAction http = false := by simp [isAction, huri]
    rw [marks, hno]
    exact .nothing hno
  | some uri =>
    rw [bind_ok (rfl : orThrow (some uri) s = .ok uri s)]
    dsimp only
    split
    · next haction =>
      rw [after_bind fun _ _ => (after_bind (fun _ _ => rfl) _).trans (after_or_throw _ _)]
      have hauth : authAction http =
          if (parseAction (uri.drop urlPrefixAction.length)).1 = ascii "auth" then
            some (parseAction (parseAction (uri.drop urlPrefixAction.length)).2).1 else none := by
        rw [authAction, huri]
        exact if_pos haction
      exact action_served (by simp [isAction, huri, haction]) hauth s
    · next haction =>
      have hno : isAction http = false := by simp [isAction, huri, haction]
      rw [after_or_throw, marks, hno]
      exact .nothing hno

def annEnv : HbEnv where
  md5 text := text
  parseJson _ := some (.object
    [(ascii "login", .string (ascii "ann")), (ascii "password", .string (ascii "p1"))])
  jsonString _ := ascii "{}"
  tokenString _ := ascii "{}"
  tokens := ⟨[], [], fun _ => [], fun _ => none, fun _ => false⟩
  docRoot := ascii "/srv/www/"
  storageRoot := ascii "/srv/storage/"

theorem no_names : ∀ name ∈ ([] : List (List UInt8)), IsName name := by simp

/-- What the requests find: a second each, and no files. -/
def annMoment (n : Nat) : Moment where
  now := n
  microseconds := fromTimeT n
  sessionId := ascii "sid" ++ decimalText n
  accessToken := []
  refreshToken := []
  tree := ⟨fun _ => none, [], fun _ _ h => (Option.some_ne_none _ h.symm).elim, no_names⟩
  tm := 0

def annServer : Server2hb where
  sessions := { SessionController.new with versionMin := 4, versionCurrent := 4 }
  storage := ⟨⟨[⟨some 1, some (ascii "ann"), some (ascii "Ann"),
    some (hexUpper (ascii "annp1s1")), some (ascii "s1")⟩], []⟩, [], []⟩
  tokens := ⟨fun _ => ⟨[], [], 0, 0, fun _ => none⟩, 0, fun _ => none, fun _ => none, fun _ => [], 0⟩

/-- Her login, and a logout with the cookie that it is answered with. -/
def annLogin : HttpHeader :=
  .parsed (ascii "POST /api/auth/login HTTP/1.1\r\nContent-Length: 2\r\n\r\n\x7b\x7d")

def annLogout : HttpHeader :=
  .parsed (ascii "GET /api/auth/logout HTTP/1.1\r\nCookie: s2hsession=sid0\r\n\r\n")

end Khorost.Server2hb
