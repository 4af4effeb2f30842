import Khorost.Proofs.Authentication

namespace Khorost.Server2hb

open SessionController

/-- The request is for an action, and its cookie is the id. -/
def brings (id : List UInt8) (http : HttpHeader) : Bool :=
  isAction http && decide ((http.getCookie sessionCode none).getD [] = id)

/-- When the session with the id expires. A request that brings the id gives the
session its lifetime anew. -/
def expiry (id : List UInt8) (lifetime time : Int) : Event → Int
  | .request m http => if brings id http then fromTimeT m.now + lifetime else time
  | _ => time

/-- The process goes on, and what looks at the session comes before it expires. -/
def InTime (id : List UInt8) (time : Int) : Event → Prop
  | .request m http => brings id http = true → fromTimeT m.now < time
  | .timer now => fromTimeT now ≤ time
  | .administer _ => True
  | _ => False

/-- The runs from a state on in which nobody logs in or out under the id, with the
time at which its session expires. -/
inductive Lasts (env : HbEnv) (versions : SessionVersions) (id : List UInt8) (lifetime first : Int)
    (s : Server2hb) : Int → Server2hb → Prop
  | refl : Lasts env versions id lifetime first s first s
  | step (event : Event) (h : Lasts env versions id lifetime first s time s₁)
    (hfresh : event.Fresh s₁) (hs : step env versions s₁ event = some s₂)
    (htime : InTime id time event) (hothers : ∀ mark ∈ eventMarks env s₁ event, mark.id ≠ id) :
    Lasts env versions id lifetime first s (expiry id lifetime time event) s₂

variable {env : HbEnv} {versions : SessionVersions} {driver : SessionDb SessionObject}
  {m : Moment} {http : HttpHeader} {session held : Session S2hData} {s s' : Server2hb}
  {id : List UInt8} {sessions kept : S2hSessions} {time : Int}

/-- A lookup with another id leaves the session as it is. -/
theorem lookup_other (hk : Keyed sessions.sessionMemory)
    (hfresh : m.sessionId ∉ sessions.sessionMemory) {cookie : Option (List UInt8)}
    (hne : id ≠ cookie.getD []) (hm : sessions.sessionMemory.lookup id = some held)
    (h : sessions.processingSession m.now m.sessionId cookie = (some (session, created), kept)) :
    kept.sessionMemory.lookup id = some held := by
  have hgenerated : id ≠ m.sessionId := by
    intro hid
    exact hfresh (hid ▸ Table.mem_iff.mpr ⟨held, hm⟩)
  have ho := get_outcome s2hSession hk (some s2hCreator) m.now m.sessionId (cookie.getD [])
  unfold S2hSessions.processingSession at h
  rw [h] at ho
  generalize hresult : (some (session, created), kept) = result at ho
  cases ho with
  | live hfound hlive hshifted =>
    cases hresult
    rw [Table.lookup_insert, if_neg hne]
    exact hm
  | expired hfound hexpired =>
    have hnew : m.sessionId ∉ (sessions.forget (cookie.getD [])).sessionMemory :=
      fun hmem => hfresh (forget_mem.mp hmem).2
    cases hresult
    have hsaved : S2hSessions.Saved m.now _ _ _ := S2hSessions.created_saved hnew
    exact (hsaved.others id hgenerated).trans
      (Table.lookup_erase_some.mpr ⟨by simpa using hne, hm⟩)
  | absent hnone =>
    cases hresult
    have hsaved : S2hSessions.Saved m.now _ _ _ := S2hSessions.created_saved hfresh
    exact (hsaved.others id hgenerated).trans hm

/-- A lookup with the id itself gives the session, with a new expiry. -/
theorem lookup_own (hm : sessions.sessionMemory.lookup id = some held)
    (hlive : fromTimeT m.now < held.expired) {cookie : Option (List UInt8)}
    (hid : cookie.getD [] = id)
    (hshifted : shifted = held.setExpired (fromTimeT m.now + s2hSession.getExpireShift held)) :
    sessions.processingSession m.now m.sessionId cookie =
      (some (shifted, false),
        { sessions with sessionMemory := sessions.sessionMemory.insert id shifted }) := by
  unfold S2hSessions.processingSession getSession
  rw [hid, hm, hshifted]
  exact if_pos hlive

/-- What an action does to other sessions does not touch the one with the id. -/
theorem Acted.other (ha : Acted env m http session s made s')
    (hothers : ∀ mark ∈ made, mark.id ≠ id) (hm : s.sessions.sessionMemory.lookup id = some held) :
    s'.sessions.sessionMemory.lookup id = some held := by
  cases ha with
  | nothing | change | refresh => exact hm
  | login user hauth huser =>
    have hne : id ≠ session.sessionId := fun h => hothers _ List.mem_cons_self h.symm
    have hsaved : S2hSessions.Saved m.now _ _ _ := S2hSessions.assigned_saved
      { session with data := S2hSessions.login user session.data } s.sessions
    exact (hsaved.others id hne).trans hm
  | logout =>
    have hne : id ≠ session.sessionId := fun h => hothers _ List.mem_cons_self h.symm
    exact (logged_out session s.sessions).memory.mpr ⟨by simpa using hne, hm⟩

/-- A request leaves the session as it is, or gives it its lifetime anew. -/
theorem Served.lasting (hk : Keyed s.sessions.sessionMemory)
    (hfresh : m.sessionId ∉ s.sessions.sessionMemory) (h : Served env m http s made s')
    (hothers : ∀ mark ∈ made, mark.id ≠ id)
    (hm : s.sessions.sessionMemory.lookup id = some (session.setExpired time))
    (htime : brings id http = true → fromTimeT m.now < time) :
    s'.sessions.sessionMemory.lookup id = some (session.setExpired
      (expiry id (s2hSession.getExpireShift session) time (.request m http))) := by
  cases h with
  | nothing hno =>
    have hbrings : brings id http = false := by simp [brings, hno]
    simpa [expiry, hbrings] using hm
  | @action found created acted _ haction kept hsession hacted =>
    have hrest : ∀ mark ∈ acted, mark.id ≠ id :=
      fun mark hmark => hothers mark (List.mem_append_right _ hmark)
    by_cases hcookie : (http.getCookie sessionCode none).getD [] = id
    · have hbrings : brings id http = true := by simp [brings, haction, hcookie]
      have hfound := lookup_own hm (htime hbrings) hcookie rfl
      rw [hsession] at hfound
      obtain ⟨-, hkept⟩ := Prod.mk.inj hfound
      apply hacted.other hrest
      rw [hkept, Table.lookup_insert, if_pos rfl, expiry, if_pos hbrings]
      rfl
    · have hbrings : brings id http = false := by simp [brings, hcookie]
      have hkept := lookup_other hk hfresh (Ne.symm hcookie) hm hsession
      have hlast := hacted.other hrest hkept
      simpa [expiry, hbrings] using hlast

/-- A pass of the timer leaves a session that has not expired. -/
theorem timer_lasting {now : Nat} (hk : Keyed sessions.sessionMemory)
    (hm : sessions.sessionMemory.lookup id = some held) (htime : fromTimeT now ≤ held.expired) :
    (sessions.checkAliveSessions now).sessionMemory.lookup id = some held := by
  apply (S2hSessions.shutdown_erased now hk).memory.mpr
  refine ⟨fun hexpired => ?_, hm⟩
  obtain ⟨session, hsession, hlate⟩ := mem_expired_keys.mp hexpired
  obtain rfl := Option.some.inj (hsession.symm.trans hm)
  exact absurd hlate (Int.not_lt.mpr htime)

theorem step_lasting (hr : Run env versions driver history s) (event : Event)
    (hfresh : event.Fresh s) (hs : step env versions s event = some s')
    (hm : s.sessions.sessionMemory.lookup id = some (session.setExpired time))
    (htime : InTime id time event) (hothers : ∀ mark ∈ eventMarks env s event, mark.id ≠ id) :
    s'.sessions.sessionMemory.lookup id = some (session.setExpired
      (expiry id (s2hSession.getExpireShift session) time event)) := by
  have hk := hr.holds.keyed
  cases event with
  | request m http =>
    have hkept := (process_http_served env m http s).lasting hk hfresh hothers hm htime
    simp only [Server2hb.step] at hs
    cases hanswer : processHttp env m http s with
    | ok file s₁ =>
      rw [hanswer] at hs hkept
      cases hs
      exact hkept
    | error e s₁ =>
      rw [hanswer] at hs
      cases hs
  | timer now =>
    cases hs
    exact timer_lasting hk hm htime
  | administer storage =>
    cases hs
    exact hm
  | fatal | restart | killed => exact htime.elim

/-- The session stays over the whole run, and so does the server. -/
theorem Lasts.stands (hr : Run env versions driver history s)
    (hm : s.sessions.sessionMemory.lookup id = some session)
    (h : Lasts env versions id (s2hSession.getExpireShift session) session.expired s time s') :
    (∃ later, Run env versions driver (history ++ later) s') ∧
      s'.sessions.sessionMemory.lookup id = some (session.setExpired time) := by
  induction h with
  | refl => exact ⟨⟨[], by simpa using hr⟩, hm⟩
  | step event h hfresh hs htime hothers ih =>
    obtain ⟨⟨later, hlater⟩, hstands⟩ := ih
    have hnext := hlater.step event hfresh hs
    rw [List.append_assoc] at hnext
    exact ⟨⟨_, hnext⟩, step_lasting hlater event hfresh hs hstands htime hothers⟩

/-- Who brings the id of a session before it expires is given that session with all
that is in it, through any number of requests, passes of the timer and changes of the
users. Each request of a user who is logged in moves the expiry to a fortnight from
then. -/
theorem stays_logged_in (hr : Run env versions driver history s)
    (hm : s.sessions.sessionMemory.lookup id = some session)
    (h : Lasts env versions id (s2hSession.getExpireShift session) session.expired s time s')
    (m : Moment) (htime : fromTimeT m.now < time) :
    ∃ kept, s'.sessions.processingSession m.now m.sessionId (some id) =
      (some (session.setExpired (fromTimeT m.now + s2hSession.getExpireShift session), false),
        kept) :=
  ⟨_, lookup_own (h.stands hr hm).2 htime rfl rfl⟩

def annLater : Server2hb :=
  { annLoggedIn with sessions := annLoggedIn.sessions.checkAliveSessions (5 : Nat) }

theorem ann_stays : ∃ session kept,
    annLoggedIn.sessions.sessionMemory.lookup (ascii "sid0") = some session ∧
      session.data.authenticate = true ∧
      S2hSessions.processingSession (annMoment 6).now (annMoment 6).sessionId
        (some (ascii "sid0")) annLater.sessions =
          (some (session.setExpired (fromTimeT (annMoment 6).now +
            s2hSession.getExpireShift session), false), kept) := by
  have hthere : (annLoggedIn.sessions.sessionMemory.lookup (ascii "sid0")).any (fun session =>
      session.data.authenticate && decide (fromTimeT 6 < session.expired)) = true := by
    decide +kernel
  obtain ⟨session, hm, hboth⟩ := (Option.any_eq_true _ _).mp hthere
  obtain ⟨ha, htime⟩ := Bool.and_eq_true_iff.mp hboth
  have hlive : fromTimeT 6 < session.expired := of_decide_eq_true htime
  have hlasts : Lasts annEnv sessionVersions (ascii "sid0") (s2hSession.getExpireShift session)
      session.expired annLoggedIn session.expired annLater :=
    .step (.timer 5) .refl trivial rfl (Int.le_of_lt (Int.lt_trans (by decide) hlive))
      (by simp [eventMarks])
  obtain ⟨kept, hkept⟩ := stays_logged_in ann_run hm hlasts (annMoment 6) hlive
  exact ⟨session, kept, hm, ha, hkept⟩

end Khorost.Server2hb
