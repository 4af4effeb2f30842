import Khorost.Proofs.Restart
import Khorost.Proofs.SessionObjects

namespace Khorost

def S2hSessions.ServerOperation.map (f : δ → δ') : ServerOperation δ → ServerOperation δ'
  | .openDriver => .openDriver
  | .restart => .restart
  | .getSession generated cookie => .getSession generated cookie
  | .login user session => .login user (session.map f)
  | .logout session => .logout (session.map f)
  | .updateSession session => .updateSession (session.map f)
  | .removeSession session => .removeSession (session.map f)
  | .checkAliveSessions => .checkAliveSessions

namespace TextSessions

open S2hMembers S2hSessions SessionController

/-- The controller with the objects of the texts. -/
def image (json : JsonCodec) (s : TextSessions) : S2hSessions :=
  s.map data (SessionObject.read json)

def serve (json : JsonCodec) (versions : SessionVersions) (now : Nat) (s : TextSessions) :
    ServerOperation S2hMembers → Option TextSessions
  | .openDriver => setSessionDriver json versions now s.sessionDb s
  | .restart => reopen json versions now s
  | .getSession generated cookie => some (processingSession json now generated cookie s).2
  | .login user session => some (actionLogin json now user session s)
  | .logout session => some (actionLogout now session s)
  | .updateSession session => some (s.updateSession (textSession json) now session)
  | .removeSession session => some (s.removeSession session)
  | .checkAliveSessions => some (s.checkAliveSessions now)

/-- The assumption about JsonCpp: the text of a session that is written is read back.
The id of a user is a number of type `int`. -/
def Readable (json : JsonCodec) : ServerOperation S2hMembers → Prop
  | .getSession _ _ => ∀ created, (new created).ReadBack json
  | .login (some user) session => (login user session.data).ReadBack json ∧
    JsonValue.minInt ≤ user.id ∧ user.id ≤ JsonValue.maxInt
  | .updateSession session => session.data.ReadBack json
  | _ => True

/-- The row has been written by `update_session`, with a text that is read back. -/
structure Exported (json : JsonCodec) (row : Row (List UInt8)) : Prop where
  lower : -2 ^ 31 ≤ row.dtExpire
  upper : row.dtExpire < 2 ^ 31
  data : (textSession json).Legible (ReadBack json) row.data

/-- The runs that move no expiry, by the time of the last operation. -/
inductive Run (json : JsonCodec) (versions : SessionVersions) : Nat → TextSessions → Prop
  | start {now : Nat} (driver : SessionDb (List UInt8))
    (hrows : ∀ id row, driver.lookup id = some row → Exported json row)
    (h : setSessionDriver json versions now driver .new = some s) : Run json versions now s
  | step (op : ServerOperation S2hMembers) (hr : Run json versions clock s) (hle : clock ≤ now)
    (hreadable : Readable json op) (hproper : Proper (s.image json) (op.map data))
    (hunmoved : Unmoved now (s.image json) (op.map data))
    (h : serve json versions now s op = some s') : Run json versions now s'

/-- A process that starts at `t` finds every session that is live at `t`. -/
def Restores (json : JsonCodec) (versions : SessionVersions) (t : Nat) (s : TextSessions) : Prop :=
  ∀ id session, s.sessionMemory.lookup id = some session → fromTimeT t < session.expired →
    ∃ s' session', reopen json versions t s = some s' ∧
      s'.findSession session.sessionId = some session' ∧
      Same (session.map data) (session'.map data)

variable {json : JsonCodec} {versions : SessionVersions} {s s' : TextSessions} {clock now t : Nat}

theorem image_lookup (s : TextSessions) (id : List UInt8) :
    (s.image json).sessionMemory.lookup id =
      (s.sessionMemory.lookup id).map (Session.map data) :=
  Table.lookup_map _ _ _

theorem image_opened (versions : SessionVersions) (driver : SessionDb (List UInt8))
    (hrows : Legible (textSession json) (ReadBack json) driver) (now : Nat) (s : TextSessions) :
    (setSessionDriver json versions now driver s).map (image json) =
      S2hSessions.setSessionDriver versions now
        (Table.map (Row.map (SessionObject.read json)) driver) (s.image json) :=
  map_open (text_image json) creator_image hrows now versions.min versions.current s

theorem legible_shutdown (hl : Legible (textSession json) (ReadBack json) s.sessionDb) (now : Nat) :
    Legible (textSession json) (ReadBack json) (shutdown now s) :=
  Legible.check_alive now s.sessionMemory.entries hl

theorem image_reopened (versions : SessionVersions)
    (hl : Legible (textSession json) (ReadBack json) s.sessionDb) (now : Nat) :
    (reopen json versions now s).map (image json) =
      S2hSessions.reopen versions now (s.image json) := by
  have hcheck : image json (s.checkAliveSessions now) = (s.image json).checkAliveSessions now :=
    map_check now s
  unfold S2hSessions.reopen S2hSessions.shutdown
  rw [← hcheck]
  exact image_opened versions _ (legible_shutdown hl now) now .new

theorem login_data (user : User) (members : S2hMembers)
    (hid : JsonValue.minInt ≤ user.id ∧ user.id ≤ JsonValue.maxInt) :
    (login user members).data = S2hSessions.login user members.data := by
  rw [data, login, int32_kept hid]
  rfl

/-- Each operation does to the objects what it does to the texts. -/
theorem serve_image (hl : Legible (textSession json) (ReadBack json) s.sessionDb)
    {op : ServerOperation S2hMembers} (hreadable : Readable json op) (now : Nat) :
    (serve json versions now s op).map (image json) =
      S2hSessions.serve versions now (s.image json) (op.map data) := by
  have hi := text_image json
  cases op with
  | openDriver => exact image_opened versions s.sessionDb hl now s
  | restart => exact image_reopened versions hl now
  | getSession generated cookie =>
    exact congrArg some (map_get hi creator_image (fun _ created _ => hreadable created) now
      generated (cookie.getD []) s)
  | login user session =>
    cases user with
    | none => rfl
    | some user =>
      obtain ⟨hread, hid⟩ := hreadable
      refine congrArg some ?_
      rw [actionLogin, image, map_update hi hread, map_assign, Session.map, login_data user _ hid]
      rfl
  | logout session =>
    refine congrArg some ?_
    rw [actionLogout, image, map_remove, map_assign]
    rfl
  | updateSession session => exact congrArg some (map_update hi hreadable now s)
  | removeSession session => exact congrArg some (map_remove session s)
  | checkAliveSessions => exact congrArg some (map_check now s)

theorem serve_legible (hl : Legible (textSession json) (ReadBack json) s.sessionDb)
    {op : ServerOperation S2hMembers} (hreadable : Readable json op)
    (h : serve json versions now s op = some s') :
    Legible (textSession json) (ReadBack json) s'.sessionDb := by
  cases op with
  | openDriver => exact hl.opened h
  | restart => exact (legible_shutdown hl now).opened h
  | getSession generated cookie =>
    cases h
    exact hl.get (fun _ created _ => hreadable created) now generated (cookie.getD [])
  | login user session =>
    cases h
    cases user with
    | none => exact hl
    | some user => exact hl.update hreadable.1 now s.versionCurrent
  | logout session =>
    cases h
    exact hl.erase session.sessionId
  | updateSession session =>
    cases h
    exact hl.update hreadable now s.versionCurrent
  | removeSession session =>
    cases h
    exact hl.erase session.sessionId
  | checkAliveSessions =>
    cases h
    exact legible_shutdown hl now

theorem Exported.image {row : Row (List UInt8)} (h : Exported json row) :
    S2hSessions.Exported (row.map (SessionObject.read json)) := by
  obtain ⟨session, hread, htext⟩ := h.data
  refine ⟨h.lower, h.upper, session.data.data, ?_⟩
  rw [Row.map, htext]
  exact read_exported hread

theorem Run.legible (hr : Run json versions clock s) :
    Legible (textSession json) (ReadBack json) s.sessionDb := by
  induction hr with
  | start driver hrows h => exact Legible.opened (fun id row hrow => (hrows id row hrow).data) h
  | step op _ _ hreadable _ _ h ih => exact serve_legible ih hreadable h

/-- A run on texts is one on the objects that they stand for. -/
theorem Run.image (hr : Run json versions clock s) :
    S2hSessions.Run versions Unmoved clock (s.image json) := by
  induction hr with
  | @start s now driver hrows h =>
    refine .start (Table.map (Row.map (SessionObject.read json)) driver) (fun id row hrow => ?_) ?_
    · rw [Table.lookup_map] at hrow
      obtain ⟨text, htext, rfl⟩ := Option.map_eq_some_iff.mp hrow
      exact (hrows id text htext).image
    · have hopened := image_opened versions driver
        (fun id row hrow => (hrows id row hrow).data) now .new
      rw [h] at hopened
      exact hopened.symm
  | step op hr hle hreadable hproper hunmoved h ih =>
    refine .step (op.map data) ih hle hproper hunmoved ?_
    rw [← serve_image hr.legible hreadable, h]
    rfl

theorem restores_image (hl : Legible (textSession json) (ReadBack json) s.sessionDb) :
    Restores json versions t s ↔ S2hSessions.Restores versions t (s.image json) := by
  have hreopen := image_reopened versions hl t
  constructor
  · intro h id object hm hlive
    rw [image_lookup] at hm
    obtain ⟨session, hheld, rfl⟩ := Option.map_eq_some_iff.mp hm
    obtain ⟨s', session', hopen, hfind, hsame⟩ := h id session hheld hlive
    refine ⟨s'.image json, session'.map data, ?_, ?_, hsame⟩
    · rw [← hreopen, hopen]
      rfl
    · exact (image_lookup s' session.sessionId).trans (congrArg _ hfind)
  · intro h id session hm hlive
    have hmapped : (s.image json).sessionMemory.lookup id = some (session.map data) := by
      rw [image_lookup, hm]
      rfl
    obtain ⟨_, _, hopen, hfind, hsame⟩ := h id (session.map data) hmapped hlive
    rw [← hreopen] at hopen
    obtain ⟨s', htext, rfl⟩ := Option.map_eq_some_iff.mp hopen
    obtain ⟨session', hfound, rfl⟩ :=
      Option.map_eq_some_iff.mp ((image_lookup s' session.sessionId).symm.trans hfind)
    exact ⟨s', session', htext, hfound, hsame⟩

/-- What is restored on objects is restored from texts that are read back: every live
session at any time, until a lookup moves the expiry of one. -/
theorem texts_restored (hr : Run json versions clock s) :
    (∀ t, clock ≤ t → Restores json versions t s) ∧
      ∀ now op s', clock ≤ now → Readable json op → Proper (s.image json) (op.map data) →
        serve json versions now s op = some s' →
        ((∀ t, now ≤ t → Restores json versions t s') ↔
          Unmoved now (s.image json) (op.map data)) := by
  constructor
  · intro t hle
    exact (restores_image hr.legible).mpr (hr.image.restores t hle)
  · intro now op s' hle hreadable hproper h
    have himage : S2hSessions.serve versions now (s.image json) (op.map data) =
        some (s'.image json) := by
      rw [← serve_image hr.legible hreadable, h]
      rfl
    constructor
    · intro hall
      have hstored := hr.image.stored
      apply restores_unmoved hstored (hr.image.synced.later hle)
        (effect_of_serve hstored.keyed hproper himage)
      exact (restores_image (serve_legible hr.legible hreadable h)).mp (hall now (Nat.le_refl now))
    · intro hunmoved t ht
      have hr' : Run json versions now s' := .step op hr hle hreadable hproper hunmoved h
      exact (restores_image hr'.legible).mpr (hr'.image.restores t ht)

end TextSessions

end Khorost
