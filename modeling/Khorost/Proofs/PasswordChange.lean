import Khorost.App.UserStorage
import Khorost.Lib.Throwing

namespace Khorost.UserStorage

open Throwing

/-- The request has the present password of the session's user. -/
def Proves (md5 : List UInt8 → List UInt8) (http : HttpHeader) (session : S2hData)
    (s : UserStorage) : Prop :=
  ∃ password own, http.getParameter (ascii "curpwd") none = some password ∧
    s.getUserInfo session.idUser = some (some own) ∧
    own.passwordHash = recalcPasswordHash md5 own.login password own.salt

/-- The session has a role that permits to change the password of others. -/
def HasRole (permits : List UInt8 → Bool) (session : S2hData) : Prop :=
  ∃ role ∈ session.roles.elements, permits role = true

/-- Who may have the password changed: the session's own user for the present
password, and others for a role. -/
def MayChange (md5 : List UInt8 → List UInt8) (permits : List UInt8 → Bool) (http : HttpHeader)
    (session : S2hData) (s : UserStorage) (userId : Int) : Prop :=
  (userId = session.idUser ∧ Proves md5 http session s) ∨
    (userId ≠ session.idUser ∧ HasRole permits session)

/-- `UpdatePassword` is called for those only for whom it may be, and without a
role the rows of others stay. -/
structure Guarded (md5 : List UInt8 → List UInt8) (permits : List UInt8 → Bool)
    (http : HttpHeader) (session : S2hData) (s s' : UserStorage) : Prop where
  calls : ∃ made, s'.updates = s.updates ++ made ∧
    ∀ call ∈ made, MayChange md5 permits http session s call.1
  others : ¬ HasRole permits session → ∀ (i : Nat) (row : UserRow), s.users[i]? = some row →
    row.id ≠ some session.idUser → s'.users[i]? = some row

/-- A request of one user, with a present and a new password, that names the
login of another one. -/
def NamesAnother (md5 : List UInt8 → List UInt8) (http : HttpHeader) (session : S2hData)
    (s : UserStorage) : Prop :=
  Proves md5 http session s ∧ ∃ login info newPassword,
    http.getParameter (ascii "loginpwd") none = some login ∧
    http.getParameter (ascii "newpwd") none = some newPassword ∧
    s.getUserInfoByLogin login = some (some info) ∧ info.userId ≠ session.idUser

variable {md5 : List UInt8 → List UInt8} {permits : List UInt8 → Bool} {http : HttpHeader}
  {session : S2hData} {s s' : UserStorage}

theorem throw_some (a : α) (s : UserStorage) : orThrow (some a) s = .ok a s := rfl

theorem verify_iff : (∃ own, verifyPassword md5 http session s = some (some own)) ↔
    Proves md5 http session s := by
  unfold verifyPassword Proves
  cases hpassword : http.getParameter (ascii "curpwd") none with
  | none => exact ⟨fun ⟨_, h⟩ => (by cases h), fun ⟨_, _, h, _⟩ => (by cases h)⟩
  | some password =>
    constructor
    · rintro ⟨own, h⟩
      obtain ⟨found, hfound, hfilter⟩ := Option.map_eq_some_iff.mp h
      obtain ⟨rfl, hequal⟩ := Option.filter_eq_some_iff.mp hfilter
      exact ⟨password, own, rfl, hfound, of_decide_eq_true hequal⟩
    · rintro ⟨_, own, hp, hown, hequal⟩
      obtain rfl := Option.some.inj hp
      refine ⟨own, ?_⟩
      simp only [hown, Option.map_some, Option.some.injEq]
      exact Option.filter_eq_some_iff.mpr ⟨rfl, decide_eq_true hequal⟩

theorem parameter_exists (h : http.getParameter key none = some value) :
    http.isParameterExist key = true := by
  unfold HttpHeader.getParameter at h
  cases hfind : http.paramsValue.find? fun p => strcaseEq key (http.paramsText p.1) with
  | none =>
    rw [hfind] at h
    cases h
  | some p =>
    have hname := List.find?_some hfind
    exact List.any_eq_true.mpr ⟨p, List.mem_of_find?_eq_some hfind, hname⟩

/-- What the branch does to the storage. -/
inductive ChangeEffect (md5 : List UInt8 → List UInt8) (http : HttpHeader) (session : S2hData)
    (s : UserStorage) : UserStorage → Prop
  | nothing : ChangeEffect md5 http session s s
  | own (hproves : Proves md5 http session s) (passwordHash : List UInt8) :
    ChangeEffect md5 http session s (s.setPassword session.idUser passwordHash)
  | named (hproves : Proves md5 http session s)
    (hlogin : http.getParameter (ascii "loginpwd") none = some login)
    (hpassword : http.getParameter (ascii "newpwd") none = some newPassword)
    (hinfo : s.getUserInfoByLogin login = some (some info)) (passwordHash : List UInt8) :
    ChangeEffect md5 http session s (s.setPassword info.userId passwordHash)

theorem change_effect (md5 : List UInt8 → List UInt8) (http : HttpHeader) (session : S2hData)
    (s : UserStorage) :
    ChangeEffect md5 http session s (after (actionChange md5 http session s)) := by
  unfold actionChange
  rw [get_bind]
  cases hverify : verifyPassword md5 http session s with
  | none => exact .nothing
  | some found =>
    rw [bind_ok (throw_some found s)]
    cases found with
    | none => exact .nothing
    | some own =>
      have hproves := verify_iff.mp ⟨own, hverify⟩
      dsimp only
      by_cases hexists : http.isParameterExist (ascii "loginpwd")
      · rw [if_pos hexists]
        cases hlogin : http.getParameter (ascii "loginpwd") none with
        | none => exact .nothing
        | some login =>
          rw [bind_ok (throw_some login s), get_bind]
          cases hinfo : s.getUserInfoByLogin login with
          | none => exact .nothing
          | some found =>
            rw [bind_ok (throw_some found s)]
            cases found with
            | none => exact .nothing
            | some info =>
              dsimp only
              cases hpassword : http.getParameter (ascii "newpwd") none with
              | none => exact .nothing
              | some newPassword => exact .named hproves hlogin hpassword hinfo _
      · rw [if_neg hexists]
        cases hpassword : http.getParameter (ascii "newpwd") none with
        | none => exact .nothing
        | some newPassword => exact .own hproves _

theorem change_named (hproves : Proves md5 http session s)
    (hlogin : http.getParameter (ascii "loginpwd") none = some login)
    (hpassword : http.getParameter (ascii "newpwd") none = some newPassword)
    (hinfo : s.getUserInfoByLogin login = some (some info)) :
    after (actionChange md5 http session s) =
      s.setPassword info.userId (recalcPasswordHash md5 login newPassword info.salt) := by
  obtain ⟨own, hverify⟩ := verify_iff.mpr hproves
  unfold actionChange
  rw [get_bind, hverify, bind_ok (throw_some (some own) s)]
  dsimp only
  rw [if_pos (parameter_exists hlogin), hlogin, bind_ok (throw_some login s), get_bind, hinfo,
    bind_ok (throw_some (some info) s)]
  dsimp only
  rw [hpassword]
  rfl

theorem set_password_other {i : Nat} {row : UserRow} (passwordHash : List UInt8)
    (hrow : s.users[i]? = some row) (hid : row.id ≠ some userId) :
    (s.setPassword userId passwordHash).users[i]? = some row := by
  simp only [setPassword, List.getElem?_map, hrow, Option.map_some, if_neg hid]

theorem set_password_guarded (passwordHash : List UInt8)
    (h : MayChange md5 permits http session s userId) :
    Guarded md5 permits http session s (s.setPassword userId passwordHash) where
  calls := by
    refine ⟨[(userId, passwordHash)], rfl, fun call hcall => ?_⟩
    obtain rfl := List.mem_singleton.mp hcall
    exact h
  others hrole i row hrow hid := by
    rcases h with ⟨rfl, -⟩ | ⟨-, hhas⟩
    · exact set_password_other passwordHash hrow hid
    · exact absurd hhas hrole

/-- A change is guarded exactly if the session has a role that permits it, or the
request does not name another user. -/
theorem change_guarded_iff (md5 : List UInt8 → List UInt8) (permits : List UInt8 → Bool)
    (http : HttpHeader) (session : S2hData) (s : UserStorage) :
    Guarded md5 permits http session s (after (actionChange md5 http session s)) ↔
      HasRole permits session ∨ ¬ NamesAnother md5 http session s := by
  constructor
  · intro h
    by_contra hnot
    obtain ⟨hrole, hnames⟩ := not_or.mp hnot
    obtain ⟨hproves, login, info, newPassword, hlogin, hpassword, hinfo, hother⟩ :=
      not_not.mp hnames
    rw [change_named hproves hlogin hpassword hinfo] at h
    obtain ⟨made, hmade, hmay⟩ := h.calls
    have hcall := List.append_cancel_left hmade
    have hnamed := hmay (info.userId, recalcPasswordHash md5 login newPassword info.salt)
      (hcall ▸ List.mem_singleton_self _)
    rcases hnamed with ⟨hown, -⟩ | ⟨-, hhas⟩
    · exact hother hown
    · exact hrole hhas
  · intro h
    have heffect := change_effect md5 http session s
    generalize after (actionChange md5 http session s) = s' at heffect ⊢
    cases heffect with
    | nothing =>
      exact ⟨⟨[], (List.append_nil _).symm, fun _ hcall => (List.not_mem_nil hcall).elim⟩,
        fun _ _ _ hrow _ => hrow⟩
    | own hproves passwordHash => exact set_password_guarded passwordHash (.inl ⟨rfl, hproves⟩)
    | @named login newPassword info hproves hlogin hpassword hinfo passwordHash =>
      refine set_password_guarded passwordHash ?_
      by_cases hid : info.userId = session.idUser
      · exact .inl ⟨hid, hproves⟩
      · refine .inr ⟨hid, h.resolve_right fun hnames => hnames ?_⟩
        exact ⟨hproves, login, info, newPassword, hlogin, hpassword, hinfo, hid⟩

def md5Two (text : List UInt8) : List UInt8 :=
  if text = ascii "annp1s1" then
    [0xd0, 0x37, 0x09, 0xa1, 0x00, 0xd9, 0x09, 0x4d, 0x8d, 0x51, 0xe0, 0xae, 0x63, 0xc6, 0xaf, 0xb2]
  else if text = ascii "bobp2s2" then
    [0xb8, 0x89, 0xaf, 0xfc, 0xb5, 0x57, 0xd9, 0xb2, 0xd0, 0x5a, 0xa6, 0x54, 0xfb, 0x61, 0x4d, 0x06]
  else []

def bob : UserRow := ⟨some 2, some (ascii "bob"), some [], some [], some (ascii "s2")⟩

def annAndBob : UserStorage where
  users := [⟨some 1, some (ascii "ann"), some [], some (ascii "D03709A100D9094D8D51E0AE63C6AFB2"),
    some (ascii "s1")⟩, bob]
  updates := []

def annSession : S2hData := { S2hData.initial with authenticate := true, idUser := 1 }

def changeRequest : HttpHeader :=
  let text := ascii "GET /auth/change?curpwd=p1&loginpwd=bob&newpwd=p2 HTTP/1.1\r\n\r\n"
  let h := HttpHeader.new fun _ => 0
  ((h.processData text text.length 0).map Prod.fst).getD h

/-- With her own password `ann` has changed the row of `bob`. -/
theorem bob_changed : ¬ ∀ (md5 : List UInt8 → List UInt8) (permits : List UInt8 → Bool)
    (http : HttpHeader) (session : S2hData) (s : UserStorage),
    Guarded md5 permits http session s (after (actionChange md5 http session s)) := by
  intro h
  have hrole : ¬ HasRole (fun _ => true) annSession := by
    rintro ⟨role, hrole, -⟩
    exact List.not_mem_nil hrole
  have hkept := (h md5Two (fun _ => true) changeRequest annSession annAndBob).others hrole 1 bob rfl
    (by decide)
  have hrow : (after (actionChange md5Two changeRequest annSession annAndBob)).users[1]? ≠ some bob := by
    decide +kernel
  exact hrow hkept

end Khorost.UserStorage
