import Khorost.Net.Session

namespace Khorost.SessionController

def Keyed (memory : SessionMemory δ) : Prop :=
  ∀ key session, memory.lookup key = some session → session.sessionId = key

/-- Memory and table hold the same ids. -/
structure Agree (s : SessionController δ ρ) : Prop where
  keyed : Keyed s.sessionMemory
  keys : ∀ id, id ∈ s.sessionMemory ↔ id ∈ s.sessionDb

/-- The operations of a controller. A session in the memory may be assigned to
between them. -/
inductive Operation (δ ρ : Type)
  | openDriver (now versionMin versionCurrent : Int) (driver : SessionDb ρ)
  | getSession (now : Int) (generated sessionId : List UInt8)
  | updateSession (now : Int) (session : Session δ)
  | removeSession (session : Session δ)
  | checkAliveSessions (now : Int)
  | assign (session : Session δ)

def perform (cls : SessionClass δ ρ) (create : Creator δ) (s : SessionController δ ρ) :
    Operation δ ρ → Option (SessionController δ ρ)
  | .openDriver now versionMin versionCurrent driver =>
    openDriver cls (some create) now versionMin versionCurrent driver s
  | .getSession now generated sessionId =>
    some (getSession cls (some create) now generated sessionId s).2
  | .updateSession now session => some (updateSession cls now session s)
  | .removeSession session => some (removeSession session s)
  | .checkAliveSessions now => some (checkAliveSessions now s)
  | .assign session => some (s.assign session)

/-- The generated id is new, and the client does not present it. -/
structure Fresh (generated id : List UInt8) (s : SessionController δ ρ) : Prop where
  memory : generated ∉ s.sessionMemory
  db : generated ∉ s.sessionDb
  other : generated ≠ id

def Allowed (s : SessionController δ ρ) : Operation δ ρ → Prop
  | .getSession _ generated sessionId => Fresh generated sessionId s
  | .updateSession _ session => session.sessionId ∈ s.sessionMemory
  | _ => True

/-- An open leaves a row for every session that is in the memory already. -/
def Covered (s : SessionController δ ρ) : Operation δ ρ → Prop
  | .openDriver now versionMin _ driver => ∀ id ∈ s.sessionMemory,
    ∃ row, driver.lookup id = some row ∧ SessionDb.survives now versionMin row = true
  | _ => True

/-- What a lookup at `now` must return. -/
structure Returned (now : Int) (generated id : List UInt8) (session : Session δ) (created : Bool)
    (s' : SessionController δ ρ) : Prop where
  registered : s'.sessionMemory.lookup session.sessionId = some session
  alive : fromTimeT now < session.expired
  found : created = false → session.sessionId = id
  made : created = true → session.sessionId = generated ∧ session.sessionId ≠ id

structure Sound (cls : SessionClass δ ρ) (create : Creator δ) (s : SessionController δ ρ) :
    Prop where
  agree : Agree s
  returned : ∀ now generated id session created s', Fresh generated id s →
    getSession cls (some create) now generated id s = (some (session, created), s') →
    Returned now generated id session created s'

/-- The states that a new controller reaches by operations with a property. -/
inductive Reached (cls : SessionClass δ ρ) (create : Creator δ)
    (P : SessionController δ ρ → Operation δ ρ → Prop) : SessionController δ ρ → Prop
  | start : Reached cls create P .new
  | step (op : Operation δ ρ) (hr : Reached cls create P s) (hallowed : Allowed s op) (hp : P s op)
    (h : perform cls create s op = some s') : Reached cls create P s'

variable {δ ρ : Type} {cls : SessionClass δ ρ} {create : Creator δ} {s s' : SessionController δ ρ}
  {memory memory' : SessionMemory δ} {id generated : List UInt8}
  {now versionMin versionCurrent : Int} {driver : SessionDb ρ}

theorem Keyed.erase (hk : Keyed memory) (key : List UInt8) : Keyed (memory.erase key) := by
  intro id session h
  rw [Table.lookup_erase] at h
  split at h
  · cases h
  · exact hk _ _ h

theorem Keyed.insert_new (hk : Keyed memory) (session : Session δ) :
    Keyed (Table.insertNew session.sessionId session memory) := by
  intro id session' h
  rw [Table.lookup_insert_new] at h
  split at h
  · next hid =>
    subst hid
    cases hm : memory.lookup session.sessionId with
    | none =>
      rw [hm] at h
      cases h
      rfl
    | some held =>
      rw [hm] at h
      cases h
      exact hk _ _ hm
  · exact hk _ _ h

theorem Keyed.assign (hk : Keyed memory) (session : Session δ) :
    Keyed (Table.assign session.sessionId session memory) := by
  intro id session' h
  rw [Table.lookup_assign] at h
  split at h
  · next hid =>
    obtain ⟨_, -, rfl⟩ := Option.map_eq_some_iff.mp h
    exact hid.symm
  · exact hk _ _ h

theorem Keyed.insert (hk : Keyed memory) (session : Session δ) :
    Keyed (memory.insert session.sessionId session) := by
  intro id session' h
  rw [Table.lookup_insert] at h
  split at h
  · next hid =>
    cases h
    exact hid.symm
  · exact hk _ _ h

section

variable (hkeeps : ∀ id created expired, (create id created expired).sessionId = id)
include hkeeps

theorem load_row (h : SessionDb.loadRows cls (some create) (⟨sid, row⟩ :: rows) memory =
      some memory') :
    ∃ session, cls.importData row.data
        (create sid (fromTimeT row.dtCreate) (fromTimeT row.dtExpire)) = some session ∧
      session.sessionId = sid ∧
      SessionDb.loadRows cls (some create) rows (Table.insertNew sid session memory) =
        some memory' := by
  obtain ⟨session, himport, h⟩ := Option.bind_eq_some_iff.mp h
  have hid : session.sessionId = sid := (cls.import_id himport).trans (hkeeps _ _ _)
  rw [hid] at h
  exact ⟨session, himport, hid, h⟩

theorem load_keyed (hk : Keyed memory)
    (h : SessionDb.loadRows cls (some create) rows memory = some memory') : Keyed memory' := by
  induction rows generalizing memory with
  | nil =>
    cases h
    exact hk
  | cons entry rows ih =>
    obtain ⟨sid, row⟩ := entry
    obtain ⟨session, -, rfl, h⟩ := load_row hkeeps h
    exact ih (hk.insert_new session) h

theorem load_mem (h : SessionDb.loadRows cls (some create) rows memory = some memory') :
    id ∈ memory' ↔ id ∈ memory ∨ id ∈ rows.keys := by
  induction rows generalizing memory with
  | nil =>
    cases h
    simp
  | cons entry rows ih =>
    obtain ⟨sid, row⟩ := entry
    obtain ⟨session, -, rfl, h⟩ := load_row hkeeps h
    rw [ih h, Table.mem_insert_new, List.keys_cons, List.mem_cons, or_comm (a := id = _), or_assoc]

/-- What is in the memory already stays; else the row becomes a session. -/
theorem load_lookup (id : List UInt8)
    (h : SessionDb.loadRows cls (some create) rows memory = some memory') :
    memory'.lookup id = (memory.lookup id).or ((rows.dlookup id).bind fun row =>
      cls.importData row.data (create id (fromTimeT row.dtCreate) (fromTimeT row.dtExpire))) := by
  induction rows generalizing memory with
  | nil =>
    cases h
    rw [List.dlookup_nil, Option.bind_none, Option.or_none]
  | cons entry rows ih =>
    obtain ⟨sid, row⟩ := entry
    obtain ⟨session, himport, -, h⟩ := load_row hkeeps h
    rw [ih h, Table.lookup_insert_new]
    by_cases hid : id = sid
    · subst hid
      rw [if_pos rfl, List.dlookup_cons_eq, Option.bind_some, himport, Option.some_or]
      cases memory.lookup id <;> rfl
    · rw [if_neg hid, List.dlookup_cons_ne _ _ hid]

end

theorem load_ends (create : Creator δ) (rows : List ((_ : List UInt8) × Row ρ))
    (memory : SessionMemory δ)
    (himport : ∀ entry ∈ rows, ∀ session, ∃ session',
      cls.importData entry.2.data session = some session') :
    ∃ memory', SessionDb.loadRows cls (some create) rows memory = some memory' := by
  induction rows generalizing memory with
  | nil => exact ⟨memory, rfl⟩
  | cons entry rows ih =>
    obtain ⟨sid, row⟩ := entry
    obtain ⟨session, hsession⟩ := himport ⟨sid, row⟩ (List.mem_cons_self ..)
      (create sid (fromTimeT row.dtCreate) (fromTimeT row.dtExpire))
    obtain ⟨memory', h⟩ := ih (Table.insertNew session.sessionId session memory)
      fun entry he => himport entry (List.mem_cons_of_mem _ he)
    exact ⟨memory', Option.bind_eq_some_iff.mpr ⟨session, hsession, h⟩⟩

def expiredKeys (now : Int) (entries : List ((_ : List UInt8) × Session δ)) : List (List UInt8) :=
  (entries.filter fun e => e.2.expired < fromTimeT now).map (·.1)

/-- The loop removes these keys from the memory and from the table. -/
theorem check_alive_erases (entries : List ((_ : List UInt8) × Session δ))
    (hids : ∀ e ∈ entries, e.2.sessionId = e.1) (s : SessionController δ ρ) :
    checkAlive now entries s = { s with
      sessionMemory := Table.eraseAll (expiredKeys now entries) s.sessionMemory
      sessionDb := Table.eraseAll (expiredKeys now entries) s.sessionDb } := by
  induction entries generalizing s with
  | nil => rfl
  | cons entry entries ih =>
    have hrest := fun s => ih (fun e he => hids e (List.mem_cons_of_mem _ he)) s
    have hid := hids entry (List.mem_cons_self ..)
    unfold checkAlive
    split
    · next hexpired =>
      rw [hrest, SessionDb.removeSession, hid]
      simp [expiredKeys, hexpired, Table.eraseAll]
    · next hlive =>
      rw [hrest]
      simp [expiredKeys, hlive]

theorem mem_expired_keys : id ∈ expiredKeys now memory.entries ↔
    ∃ session, memory.lookup id = some session ∧ session.expired < fromTimeT now := by
  have hentry : ∀ session, memory.lookup id = some session ↔
      (⟨id, session⟩ : (_ : List UInt8) × Session δ) ∈ memory.entries :=
    fun session => AList.mem_lookup_iff
  simp only [hentry]
  constructor
  · intro h
    obtain ⟨⟨key, session⟩, he, rfl⟩ := List.mem_map.mp h
    obtain ⟨he, hexpired⟩ := List.mem_filter.mp he
    exact ⟨session, he, of_decide_eq_true hexpired⟩
  · rintro ⟨session, he, hexpired⟩
    exact List.mem_map.mpr ⟨⟨id, session⟩, List.mem_filter.mpr ⟨he, decide_eq_true hexpired⟩, rfl⟩

theorem Keyed.entry (hk : Keyed memory) : ∀ e ∈ memory.entries, e.2.sessionId = e.1 := by
  intro e he
  apply hk e.1 e.2
  exact AList.mem_lookup_iff.mpr he

theorem check_alive_sessions (hk : Keyed s.sessionMemory) (now : Int) :
    checkAliveSessions now s = { s with
      sessionMemory := Table.eraseAll (expiredKeys now s.sessionMemory.entries) s.sessionMemory
      sessionDb := Table.eraseAll (expiredKeys now s.sessionMemory.entries) s.sessionDb } :=
  check_alive_erases _ hk.entry s

def forget (id : List UInt8) (s : SessionController δ ρ) : SessionController δ ρ :=
  { s with sessionMemory := s.sessionMemory.erase id, sessionDb := s.sessionDb.erase id }

/-- Everything `get_session` can do. -/
inductive GetOutcome (cls : SessionClass δ ρ) (creator : Option (Creator δ)) (now : Int)
    (generated id : List UInt8) (s : SessionController δ ρ) :
    Option (Session δ × Bool) × SessionController δ ρ → Prop
  | live (hfound : s.sessionMemory.lookup id = some session)
    (hlive : fromTimeT now < session.expired)
    (hshifted : shifted = session.setExpired (fromTimeT now + cls.getExpireShift session)) :
    GetOutcome cls creator now generated id s
      (some (shifted, false), { s with sessionMemory := s.sessionMemory.insert id shifted })
  | expired (hfound : s.sessionMemory.lookup id = some session)
    (hexpired : session.expired ≤ fromTimeT now) :
    GetOutcome cls creator now generated id s (createSession cls creator now generated (s.forget id))
  | absent (hnone : s.sessionMemory.lookup id = none) :
    GetOutcome cls creator now generated id s (createSession cls creator now generated s)

theorem get_outcome (cls : SessionClass δ ρ) (hk : Keyed s.sessionMemory)
    (creator : Option (Creator δ)) (now : Int) (generated id : List UInt8) :
    GetOutcome cls creator now generated id s (getSession cls creator now generated id s) := by
  unfold getSession
  cases hfound : s.sessionMemory.lookup id with
  | none => exact .absent hfound
  | some session =>
    dsimp only
    split
    · next hlive => exact .live hfound hlive rfl
    · next hexpired =>
      rw [SessionDb.removeSession, hk _ _ hfound]
      exact .expired hfound (Int.not_lt.mp hexpired)

theorem forget_mem : id' ∈ (s.forget id).sessionMemory ↔ id' ≠ id ∧ id' ∈ s.sessionMemory :=
  AList.mem_erase

theorem Agree.forget (ha : Agree s) (id : List UInt8) : Agree (s.forget id) where
  keyed := ha.keyed.erase id
  keys id' := by
    change id' ∈ s.sessionMemory.erase id ↔ id' ∈ s.sessionDb.erase id
    rw [AList.mem_erase, AList.mem_erase, ha.keys id']

theorem Agree.created (ha : Agree s) :
    Agree (createSession cls (some create) now generated s).2 where
  keyed := ha.keyed.insert_new _
  keys id := by
    change id ∈ Table.insertNew _ _ s.sessionMemory ↔ id ∈ s.sessionDb.insert _ _
    rw [Table.mem_insert_new, AList.mem_insert, ha.keys id]

theorem Agree.get (ha : Agree s) :
    Agree (getSession cls (some create) now generated id s).2 := by
  have ho := get_outcome cls ha.keyed (some create) now generated id
  generalize getSession cls (some create) now generated id s = result at ho ⊢
  cases ho with
  | @live session shifted hfound hlive hshifted =>
    have hid : shifted.sessionId = id := by
      rw [hshifted]
      exact ha.keyed id session hfound
    constructor
    · dsimp only
      rw [← hid]
      exact ha.keyed.insert shifted
    · intro id'
      change id' ∈ s.sessionMemory.insert id shifted ↔ id' ∈ s.sessionDb
      rw [AList.mem_insert, ← ha.keys id']
      constructor
      · rintro (rfl | hmem)
        · exact Table.mem_iff.mpr ⟨session, hfound⟩
        · exact hmem
      · exact .inr
  | expired => exact (ha.forget id).created
  | absent => exact ha.created

theorem Agree.opened (ha : Agree s)
    (hkeeps : ∀ id created expired, (create id created expired).sessionId = id)
    (hcovered : ∀ id ∈ s.sessionMemory, ∃ row : Row ρ,
      driver.lookup id = some row ∧ SessionDb.survives now versionMin row = true)
    (h : openDriver cls (some create) now versionMin versionCurrent driver s = some s') :
    Agree s' := by
  obtain ⟨memory, hload, h⟩ := Option.bind_eq_some_iff.mp h
  cases h
  constructor
  · exact load_keyed hkeeps ha.keyed hload
  · intro id
    dsimp only
    rw [load_mem hkeeps hload, ← AList.keys, ← AList.mem_keys]
    constructor
    · rintro (hmem | hmem)
      · exact (Table.mem_keep _).mpr (hcovered id hmem)
      · exact hmem
    · exact .inr

theorem Agree.step (ha : Agree s)
    (hkeeps : ∀ id created expired, (create id created expired).sessionId = id)
    (hallowed : Allowed s op) (hcovered : Covered s op)
    (h : perform cls create s op = some s') : Agree s' := by
  cases op with
  | openDriver now versionMin versionCurrent driver => exact ha.opened hkeeps hcovered h
  | getSession now generated sessionId =>
    cases h
    exact ha.get
  | updateSession now session =>
    cases h
    constructor
    · exact ha.keyed
    · intro id
      change id ∈ s.sessionMemory ↔ id ∈ s.sessionDb.insert _ _
      rw [AList.mem_insert, ← ha.keys id]
      constructor
      · exact .inr
      · rintro (rfl | hmem)
        · exact hallowed
        · exact hmem
  | removeSession session =>
    cases h
    exact ha.forget session.sessionId
  | checkAliveSessions now =>
    cases h
    rw [check_alive_sessions ha.keyed]
    constructor
    · intro key session hm
      rw [Table.lookup_erase_all] at hm
      split at hm
      · cases hm
      · exact ha.keyed _ _ hm
    · intro id
      dsimp only
      rw [Table.mem_erase_all, Table.mem_erase_all, ha.keys id]
  | assign session =>
    cases h
    constructor
    · exact ha.keyed.assign session
    · intro id
      dsimp only [SessionController.assign]
      rw [Table.mem_assign, ha.keys id]

theorem Reached.agree
    (hkeeps : ∀ id created expired, (create id created expired).sessionId = id)
    (hr : Reached cls create Covered s) : Agree s := by
  induction hr with
  | start => exact ⟨fun _ _ h => (nomatch h), fun _ => Iff.rfl⟩
  | step op _ hallowed hcovered h ih => exact ih.step hkeeps hallowed hcovered h

theorem created_returned
    (hkeeps : ∀ id created expired, (create id created expired).sessionId = id)
    (hexpiry : ∀ id created expired, (create id created expired).expired = expired)
    (hnew : generated ∉ s.sessionMemory) (hother : generated ≠ id)
    (h : createSession cls (some create) now generated s = (some (session, created), s')) :
    Returned now generated id session created s' := by
  cases h
  have hid := hkeeps generated (fromTimeT now)
    (fromTimeT now + minutes Session.defaultExpireMinutes)
  refine ⟨?_, ?_, nofun, fun _ => ⟨hid, hid.symm ▸ hother⟩⟩
  · dsimp only
    rw [Table.lookup_insert_new, if_pos rfl, hid, AList.lookup_eq_none.mpr hnew, Option.getD_none]
  · rw [hexpiry]
    exact Int.lt_add_of_pos_right _ (by decide)

theorem get_returned (ha : Agree s)
    (hkeeps : ∀ id created expired, (create id created expired).sessionId = id)
    (hexpiry : ∀ id created expired, (create id created expired).expired = expired)
    (hshift : ∀ session, 0 < cls.getExpireShift session) (hfresh : Fresh generated id s)
    (h : getSession cls (some create) now generated id s = (some (session, created), s')) :
    Returned now generated id session created s' := by
  have ho := get_outcome cls ha.keyed (some create) now generated id
  generalize hresult : getSession cls (some create) now generated id s = result at ho h
  cases ho with
  | @live held shifted hfound hlive hshifted =>
    cases h
    have hid : session.sessionId = id := by
      rw [hshifted]
      exact ha.keyed id held hfound
    refine ⟨?_, ?_, fun _ => hid, nofun⟩
    · rw [hid]
      exact AList.lookup_insert _
    · rw [hshifted]
      exact Int.lt_add_of_pos_right _ (hshift held)
  | expired hfound hexpired =>
    apply created_returned hkeeps hexpiry ?_ hfresh.other h
    intro hmem
    exact hfresh.memory (forget_mem.mp hmem).2
  | absent hnone => exact created_returned hkeeps hexpiry hfresh.memory hfresh.other h

/-- If each open leaves a row for every session that is in the memory already,
and a created session has the id and the expiry that the creator is given, then
memory and table agree and each lookup returns what it must. -/
theorem sessions_sound
    (hkeeps : ∀ id created expired, (create id created expired).sessionId = id)
    (hexpiry : ∀ id created expired, (create id created expired).expired = expired)
    (hshift : ∀ session, 0 < cls.getExpireShift session)
    (hr : Reached cls create Covered s) : Sound cls create s := by
  have ha := hr.agree hkeeps
  constructor
  · exact ha
  · intro now generated id session created s' hfresh h
    exact get_returned ha hkeeps hexpiry hshift hfresh h

def baseCreator : Creator Unit := fun id created expired => ⟨id, created, expired, ()⟩

theorem base_shift (session : Session Unit) : 0 < Session.base.getExpireShift session :=
  (by decide : 0 < minutes Session.defaultExpireMinutes)

def oneRow : SessionDb Unit := AList.insert (ascii "b") ⟨4, 0, 0, 5000, ()⟩ ∅

/-- The controller that has loaded it, has created `a` and extended it to 2800, and has
removed `b`. -/
def usedSessions : SessionController Unit Unit :=
  let loaded : SessionController Unit Unit :=
    ⟨AList.insert (ascii "b") ⟨ascii "b", 0, fromTimeT 5000, ()⟩ ∅, oneRow, 4, 4⟩
  let created := (getSession Session.base (some baseCreator) 0 (ascii "a") [] loaded).2
  let extended := (getSession Session.base (some baseCreator) 1000 (ascii "c") (ascii "a") created).2
  let saved := extended.updateSession Session.base 1000 ⟨ascii "a", 0, fromTimeT 2800, ()⟩
  saved.removeSession ⟨ascii "b", 0, fromTimeT 5000, ()⟩

theorem used_sessions_reached : Reached Session.base baseCreator Covered usedSessions := by
  have hloaded : Reached Session.base baseCreator Covered _ :=
    .step (.openDriver 0 4 4 oneRow) .start trivial (fun _ h => absurd h (AList.notMem_empty _)) rfl
  have hcreated : Reached Session.base baseCreator Covered _ :=
    .step (.getSession 0 (ascii "a") []) hloaded ⟨by decide +kernel, by decide +kernel, by decide⟩
      trivial rfl
  have hextended : Reached Session.base baseCreator Covered _ :=
    .step (.getSession 1000 (ascii "c") (ascii "a")) hcreated
      ⟨by decide +kernel, by decide +kernel, by decide⟩ trivial rfl
  have hsaved : Reached Session.base baseCreator Covered _ :=
    .step (.updateSession 1000 ⟨ascii "a", 0, fromTimeT 2800, ()⟩) hextended
      (by decide +kernel : ascii "a" ∈ _) trivial rfl
  exact .step (.removeSession ⟨ascii "b", 0, fromTimeT 5000, ()⟩) hsaved trivial trivial rfl

/-- A second open at 2000 finds the row of the session that is in the memory. -/
theorem used_sessions_covered :
    Covered usedSessions (.openDriver 2000 4 4 usedSessions.sessionDb) := by
  intro id hid
  have hkeys : usedSessions.sessionMemory.keys = [ascii "a"] := by decide +kernel
  have hmem : id ∈ usedSessions.sessionMemory.keys := hid
  rw [hkeys, List.mem_singleton] at hmem
  subst hmem
  exact ⟨_, rfl, by decide +kernel⟩

theorem used_sessions_sound :
    ∃ s, perform Session.base baseCreator usedSessions
        (.openDriver 2000 4 4 usedSessions.sessionDb) = some s ∧
      ascii "a" ∈ s.sessionMemory ∧ Sound Session.base baseCreator s :=
  ⟨_, rfl, by decide +kernel, sessions_sound (fun _ _ _ => rfl) (fun _ _ _ => rfl) base_shift
    (.step (.openDriver 2000 4 4 usedSessions.sessionDb) used_sessions_reached trivial
      used_sessions_covered rfl)⟩

/-- A controller with one session, which expires at 1800. -/
def oneSession : SessionController Unit Unit :=
  (getSession Session.base (some baseCreator) 0 (ascii "a") [] new).2

theorem one_session_reached :
    Reached Session.base baseCreator (fun _ _ => True) oneSession :=
  .step (.getSession 0 (ascii "a") []) .start ⟨by decide, by decide, by decide⟩ trivial rfl

/-- A creator of sessions that have expired when they are created. -/
def lateCreator : Creator Unit := fun id created _ => ⟨id, created, created, ()⟩

/-- A second open removes the row of a session that stays in the memory, and a
creator need not use the expiry that it is given. -/
theorem sessions_unsound :
    (¬ ∀ (δ ρ : Type) (cls : SessionClass δ ρ) (create : Creator δ) (s : SessionController δ ρ),
      (∀ id created expired, (create id created expired).sessionId = id) →
      (∀ id created expired, (create id created expired).expired = expired) →
      (∀ session, 0 < cls.getExpireShift session) → Reached cls create (fun _ _ => True) s →
      Sound cls create s) ∧
    ¬ ∀ (δ ρ : Type) (cls : SessionClass δ ρ) (create : Creator δ) (s : SessionController δ ρ),
      (∀ id created expired, (create id created expired).sessionId = id) →
      (∀ session, 0 < cls.getExpireShift session) → Reached cls create Covered s →
      Sound cls create s := by
  constructor
  · intro h
    have hreached : Reached Session.base baseCreator (fun _ _ => True) _ :=
      .step (.openDriver 2000 4 4 oneSession.sessionDb) one_session_reached trivial
        trivial rfl
    have hsound := h Unit Unit Session.base baseCreator _ (fun _ _ _ => rfl) (fun _ _ _ => rfl)
      base_shift hreached
    have hkeys := hsound.agree.keys (ascii "a")
    revert hkeys
    decide +kernel
  · intro h
    have hsound := h Unit Unit Session.base lateCreator new (fun _ _ _ => rfl)
      base_shift .start
    have hreturned := hsound.returned 0 (ascii "a") [] (lateCreator (ascii "a") 0 0) true _
      ⟨by decide, by decide, by decide⟩ rfl
    exact absurd hreturned.alive (by decide)

end Khorost.SessionController
