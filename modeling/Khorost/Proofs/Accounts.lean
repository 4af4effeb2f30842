import Khorost.App.S2hbStorage
import Khorost.Proofs.PasswordChange

namespace Khorost

/-- A user as people know him: with the password instead of its digest. -/
structure Account where
  id : Int
  login : List UInt8
  nickname : List UInt8
  salt : List UInt8
  password : List UInt8
  /-- The codes of the roles that the user has been given. -/
  roles : List (List UInt8)

namespace Account

def row (md5 : List UInt8 → List UInt8) (a : Account) : UserRow :=
  ⟨some a.id, some a.login, some a.nickname,
    some (recalcPasswordHash md5 a.login a.password a.salt), some a.salt⟩

/-- The rows of `admin.khl_user_roles` for the account: one for each role with a code
that it has been given. -/
def grants (roles : List RoleRow) (a : Account) : List (Int × Int) :=
  a.roles.flatMap fun code => (roles.filter (·.code = some code)).map fun r => (a.id, r.id)

/-- The digest does not tell the password from that of the account. -/
def Accepts (md5 : List UInt8 → List UInt8) (a : Account) (password : List UInt8) : Prop :=
  recalcPasswordHash md5 a.login a.password a.salt = recalcPasswordHash md5 a.login password a.salt

instance (md5 : List UInt8 → List UInt8) (a : Account) (password : List UInt8) :
    Decidable (a.Accepts md5 password) := inferInstanceAs (Decidable (_ = _))

def InRange (a : Account) : Prop := JsonValue.minInt ≤ a.id ∧ a.id ≤ JsonValue.maxInt

instance (a : Account) : Decidable a.InRange := inferInstanceAs (Decidable (_ ∧ _))

def info (md5 : List UInt8 → List UInt8) (a : Account) : UserInfo :=
  ⟨a.id, a.login, a.nickname, recalcPasswordHash md5 a.login a.password a.salt, a.salt⟩

end Account

/-- Accounts with ids and logins of their own. -/
structure Accounts where
  list : List Account
  ids : (list.map (·.id)).Nodup
  logins : (list.map (·.login)).Nodup
  range : ∀ a ∈ list, a.InRange

namespace Accounts

def empty : Accounts := ⟨[], List.nodup_nil, List.nodup_nil, nofun⟩

/-- Nobody has the id or the login of the account. -/
def IsNew (as : Accounts) (a : Account) : Prop :=
  a.InRange ∧ a.id ∉ as.list.map (·.id) ∧ a.login ∉ as.list.map (·.login)

instance (as : Accounts) (a : Account) : Decidable (as.IsNew a) :=
  inferInstanceAs (Decidable (_ ∧ _))

theorem nodup_map_append {f : Account → β} {list : List Account} (h : (list.map f).Nodup)
    (ha : f a ∉ list.map f) : ((list ++ [a]).map f).Nodup := by
  rw [List.map_append]
  exact List.nodup_append_comm.mp (List.nodup_cons.mpr ⟨ha, h⟩)

theorem range_append {list : List Account} (h : ∀ b ∈ list, b.InRange) (ha : a.InRange) :
    ∀ b ∈ list ++ [a], b.InRange := by
  simpa [or_imp, forall_and] using ⟨h, ha⟩

def add (a : Account) (as : Accounts) : Accounts :=
  if h : as.IsNew a then
    ⟨as.list ++ [a], nodup_map_append as.ids h.2.1, nodup_map_append as.logins h.2.2,
      range_append as.range h.1⟩
  else as

def renew (userId : Int) (password : List UInt8) (list : List Account) : List Account :=
  list.map fun a => if a.id = userId then { a with password := password } else a

theorem map_renew {f : Account → β} (hf : ∀ a password, f { a with password := password } = f a)
    (userId : Int) (password : List UInt8) (list : List Account) :
    (renew userId password list).map f = list.map f := by
  simp only [renew, List.map_map, List.map_inj_left, Function.comp_apply]
  intro a _
  split
  · exact hf a password
  · rfl

theorem range_renew {list : List Account} (h : ∀ a ∈ list, a.InRange) :
    ∀ a ∈ renew userId password list, a.InRange := by
  intro a ha
  obtain ⟨b, hb, rfl⟩ := List.mem_map.mp ha
  have hr := h b hb
  split
  · exact hr
  · exact hr

def setPassword (userId : Int) (password : List UInt8) (as : Accounts) : Accounts where
  list := renew userId password as.list
  ids := by
    rw [map_renew fun _ _ => rfl]
    exact as.ids
  logins := by
    rw [map_renew fun _ _ => rfl]
    exact as.logins
  range := range_renew as.range

def byId (as : Accounts) (userId : Int) : Option Account := as.list.find? (·.id = userId)

def byLogin (as : Accounts) (login : List UInt8) : Option Account :=
  as.list.find? (·.login = login)

/-- The account that `CreateUser` is to make, if the user can be read. -/
def requested (new : NewUser) (user : JsonValue) : Option Account :=
  (S2hbStorage.readUser user).map fun text =>
    ⟨new.id, text.login, text.nickname, new.salt, text.password, text.roles⟩

/-- The users of a configuration, up to one that cannot be created. -/
def addAll : List (NewUser × JsonValue) → Accounts → Accounts
  | [], as => as
  | (new, user) :: users, as =>
    match (user.member (ascii "Login")).bind JsonValue.asString with
    | none => as
    | some login =>
      if (as.byLogin login).isSome then addAll users as
      else match (requested new user).filter (·.InRange) with
        | none => as
        | some a => addAll users (as.add a)

def autoExecute (new : Nat → NewUser) (configure : JsonValue) (as : Accounts) : Accounts :=
  match S2hbStorage.configuredUsers configure with
  | none => as
  | some users => addAll (users.elements.zipIdx.map fun p => (new p.2, p.1)) as

/-- The id of the account whose password a request of `userId` is to change. -/
def changed (as : Accounts) (http : HttpHeader) (userId : Int) : Option Int :=
  if http.isParameterExist (ascii "loginpwd") then
    (http.getParameter (ascii "loginpwd") none).bind fun login => (as.byLogin login).map (·.id)
  else some userId

/-- The branch `change` of a request in a session of `userId`. -/
def change (md5 : List UInt8 → List UInt8) (http : HttpHeader) (userId : Int) (as : Accounts) :
    Accounts :=
  match as.byId userId, http.getParameter (ascii "curpwd") none with
  | some own, some password =>
    if own.Accepts md5 password then
      match as.changed http userId, http.getParameter (ascii "newpwd") none with
      | some id, some newPassword => as.setPassword id newPassword
      | _, _ => as
    else as
  | _, _ => as

end Accounts

namespace S2hbStorage

open Throwing Accounts

/-- The tables hold the accounts and nothing else, with digests for the passwords. -/
structure Holds (md5 : List UInt8 → List UInt8) (s : S2hbStorage) (as : Accounts) : Prop where
  users : s.accounts.users = as.list.map (·.row md5)
  userRoles : s.userRoles = as.list.flatMap (·.grants s.roles)

/-- The ids that are drawn for users are new. -/
structure NewIds (news : List NewUser) (as : Accounts) : Prop where
  nodup : (news.map (·.id)).Nodup
  absent : ∀ new ∈ news, new.id ∉ as.list.map (·.id)

/-- What a server does to the tables: `auto_execute` at each start, and the branch
`change` of a request in a session. -/
inductive Operation
  | autoExecute (new : Nat → NewUser) (configure : JsonValue)
  | change (http : HttpHeader) (session : S2hData)

def perform (md5 : List UInt8 → List UInt8) (s : S2hbStorage) : Operation → S2hbStorage
  | .autoExecute new configure => after (autoExecute md5 new configure s)
  | .change http session =>
    { s with accounts := after (UserStorage.actionChange md5 http session s.accounts) }

def performAccounts (md5 : List UInt8 → List UInt8) (as : Accounts) : Operation → Accounts
  | .autoExecute new configure => as.autoExecute new configure
  | .change http session => as.change md5 http session.idUser

/-- The database gives every row an id of its own. -/
def Operation.Proper (as : Accounts) : Operation → Prop
  | .autoExecute new configure => ∀ users, configuredUsers configure = some users →
    NewIds ((List.range users.elements.length).map new) as
  | .change .. => True

/-- The runs on tables that hold some accounts, with the accounts that the
users know of. -/
inductive Run (md5 : List UInt8 → List UInt8) : S2hbStorage → Accounts → Prop
  | start (h : s.Holds md5 as) : Run md5 s as
  | step (op : Operation) (hr : Run md5 s as) (hproper : op.Proper as) :
    Run md5 (perform md5 s op) (performAccounts md5 as op)

/-- The tables hold the accounts, and a login succeeds with the passwords that the
account of the login accepts. -/
structure Refines (md5 : List UInt8 → List UInt8) (s : S2hbStorage) (as : Accounts) : Prop where
  holds : s.Holds md5 as
  checked : ∀ login password info, s.checkPassword md5 login password = some (some info) ↔
    ∃ a, as.byLogin login = some a ∧ a.Accepts md5 password ∧ info = a.info md5

variable {md5 : List UInt8 → List UInt8} {s s' s'' : S2hbStorage} {as : Accounts}

theorem Holds.user_by_login (h : s.Holds md5 as) (login : List UInt8) :
    s.accounts.getUserInfoByLogin login = some ((as.byLogin login).map (·.info md5)) := by
  have hfind : s.accounts.users.find? (fun r => r.login = some login) =
      (as.byLogin login).map (·.row md5) := by
    rw [h.users, List.find?_map]
    congr 2
    funext a
    simp [Account.row]
  unfold UserStorage.getUserInfoByLogin
  rw [hfind]
  cases hfound : as.byLogin login with
  | none => rfl
  | some a =>
    have hrange : a.InRange := as.range a (List.mem_of_find?_eq_some hfound)
    have hlogin : a.login = login := by simpa using List.find?_some hfound
    subst hlogin
    simp [Account.row, Account.info, UserStorage.asInt, Option.filter, hrange.1, hrange.2]

theorem Holds.user_by_id (h : s.Holds md5 as) (userId : Int) :
    s.accounts.getUserInfo userId = some ((as.byId userId).map (·.info md5)) := by
  have hfind : s.accounts.users.find? (fun r => r.id = some userId) =
      (as.byId userId).map (·.row md5) := by
    rw [h.users, List.find?_map]
    congr 2
    funext a
    simp [Account.row]
  unfold UserStorage.getUserInfo
  rw [hfind]
  cases hfound : as.byId userId with
  | none => rfl
  | some a =>
    have hid : a.id = userId := by simpa using List.find?_some hfound
    subst hid
    simp [Account.row, Account.info]

theorem Holds.user_exists (h : s.Holds md5 as) (login : List UInt8) :
    s.isUserExist login = (as.byLogin login).isSome := by
  rw [isUserExist, h.users, List.any_map, byLogin, List.isSome_find?]
  congr 1
  funext a
  simp [Account.row]

def withAccount (md5 : List UInt8 → List UInt8) (s : S2hbStorage) (a : Account) : S2hbStorage :=
  { s with
    accounts := { s.accounts with users := s.accounts.users ++ [a.row md5] }
    userRoles := s.userRoles ++ a.grants s.roles }

theorem create_user_tables (md5 : List UInt8 → List UInt8) (new : NewUser) (user : JsonValue)
    (s : S2hbStorage) :
    s.createUser md5 new user =
      ((requested new user).filter (·.InRange)).map (s.withAccount md5) := by
  unfold createUser requested
  cases readUser user with
  | none => rfl
  | some text =>
    by_cases hrange : JsonValue.minInt ≤ new.id ∧ new.id ≤ JsonValue.maxInt
    · simp [UserStorage.asInt, Option.filter, Account.InRange, withAccount, Account.row,
        Account.grants, hrange]
    · simp [UserStorage.asInt, Option.filter, Account.InRange, hrange]

theorem by_login_none (h : as.byLogin login = none) : login ∉ as.list.map (·.login) := by
  intro hmem
  obtain ⟨a, ha, rfl⟩ := List.mem_map.mp hmem
  have hnot := List.find?_eq_none.mp h a ha
  simp at hnot

theorem requested_some (h : (requested new user).filter (·.InRange) = some a)
    (hlogin : (user.member (ascii "Login")).bind JsonValue.asString = some login) :
    a.InRange ∧ a.id = new.id ∧ a.login = login := by
  obtain ⟨hrequested, hrange⟩ := Option.filter_eq_some_iff.mp h
  obtain ⟨text, htext, rfl⟩ := Option.map_eq_some_iff.mp hrequested
  refine ⟨of_decide_eq_true hrange, rfl, ?_⟩
  simp only [readUser, Option.bind_eq_bind, Option.bind_eq_some_iff] at htext
  obtain ⟨member, hmember, read, hread, _, -, _, -, _, -, _, -, _, -, _, -, he⟩ := htext
  rw [hmember, Option.bind_some, hread] at hlogin
  cases hlogin
  cases he
  rfl

theorem add_new (h : as.IsNew a) : (as.add a).list = as.list ++ [a] := by
  rw [add, dif_pos h]

theorem absent_there (h : s.Holds md5 as)
    (hlogin : (user.member (ascii "Login")).bind JsonValue.asString = some login)
    (hthere : (as.byLogin login).isSome) (new : NewUser) :
    createAbsent md5 new user s = .ok () s := by
  rw [createAbsent, hlogin]
  dsimp only
  rw [h.user_exists login, if_pos hthere]

/-- One who is not there becomes an account, or cannot be read. -/
theorem absent_created (h : s.Holds md5 as)
    (hlogin : (user.member (ascii "Login")).bind JsonValue.asString = some login)
    (hthere : ¬ (as.byLogin login).isSome) (hnew : new.id ∉ as.list.map (·.id)) :
    match (requested new user).filter (·.InRange) with
    | none => createAbsent md5 new user s = .error () s
    | some a => as.IsNew a ∧
      ∃ s', createAbsent md5 new user s = .ok () s' ∧ s'.Holds md5 (as.add a) := by
  have hcreate := create_user_tables md5 new user s
  have habsent : createAbsent md5 new user s =
      (s.createUser md5 new user).elim (.error () s) (.ok ()) := by
    have hfalse : ¬ s.isUserExist login := by
      rw [h.user_exists login]
      exact hthere
    rw [createAbsent, hlogin]
    exact (if_neg hfalse).trans (by cases s.createUser md5 new user <;> rfl)
  rw [habsent, hcreate]
  cases hrequested : (requested new user).filter (·.InRange) with
  | none => rfl
  | some a =>
    obtain ⟨hrange, hid, rfl⟩ := requested_some hrequested hlogin
    have hisnew : as.IsNew a := by
      refine ⟨hrange, hid ▸ hnew, by_login_none ?_⟩
      exact Option.not_isSome_iff_eq_none.mp hthere
    refine ⟨hisnew, s.withAccount md5 a, rfl, ?_, ?_⟩
    · simp [withAccount, add_new hisnew, h.users]
    · simp [withAccount, add_new hisnew, h.userRoles]

theorem NewIds.tail (h : NewIds (new :: news) as) : NewIds news as where
  nodup := (List.nodup_cons.mp h.nodup).2
  absent n hn := h.absent n (List.mem_cons_of_mem _ hn)

theorem NewIds.added (h : NewIds (new :: news) as) (hisnew : as.IsNew a) (hid : a.id = new.id) :
    NewIds news (as.add a) := by
  refine ⟨h.tail.nodup, fun n hn hmem => ?_⟩
  rw [add_new hisnew, List.map_append, List.mem_append] at hmem
  rcases hmem with hmem | hmem
  · exact h.tail.absent n hn hmem
  · have hsame : n.id = new.id := by simpa [hid] using hmem
    apply (List.nodup_cons.mp h.nodup).1
    exact List.mem_map.mpr ⟨n, hn, hsame⟩

theorem Holds.create_all (h : s.Holds md5 as) (users : List (NewUser × JsonValue))
    (hnew : NewIds (users.map Prod.fst) as) :
    (after (createAll md5 users s)).Holds md5 (addAll users as) := by
  induction users generalizing s as with
  | nil => exact h
  | cons entry users ih =>
    obtain ⟨new, user⟩ := entry
    unfold createAll addAll
    cases hlogin : (user.member (ascii "Login")).bind JsonValue.asString with
    | none =>
      have herror : createAbsent md5 new user s = .error () s := by
        rw [createAbsent, hlogin]
      rw [bind_error herror]
      exact h
    | some login =>
      dsimp only
      by_cases hthere : (as.byLogin login).isSome
      · rw [bind_ok (absent_there h hlogin hthere new), if_pos hthere]
        exact ih h hnew.tail
      · rw [if_neg hthere]
        have hid := hnew.absent new List.mem_cons_self
        have hcreated := absent_created h hlogin hthere hid
        cases hrequested : (requested new user).filter (·.InRange) with
        | none =>
          rw [hrequested] at hcreated
          rw [bind_error hcreated]
          exact h
        | some a =>
          rw [hrequested] at hcreated
          obtain ⟨hisnew, s', hs', hholds⟩ := hcreated
          rw [bind_ok hs']
          exact ih hholds (hnew.added hisnew (requested_some hrequested hlogin).2.1)

/-- The account of the user, if the request proves its password. -/
def provenAccount (md5 : List UInt8 → List UInt8) (as : Accounts) (http : HttpHeader)
    (userId : Int) : Option Account :=
  (http.getParameter (ascii "curpwd") none).bind fun password =>
    (as.byId userId).filter fun own => own.Accepts md5 password

theorem change_proven (as : Accounts) (http : HttpHeader) (userId : Int) :
    as.change md5 http userId = match provenAccount md5 as http userId with
      | none => as
      | some _ => match as.changed http userId, http.getParameter (ascii "newpwd") none with
        | some id, some newPassword => as.setPassword id newPassword
        | _, _ => as := by
  unfold change provenAccount
  cases as.byId userId with
  | none =>
    cases http.getParameter (ascii "curpwd") none <;> rfl
  | some own =>
    cases http.getParameter (ascii "curpwd") none with
    | none => rfl
    | some password =>
      by_cases haccepts : own.Accepts md5 password
      · simp [Option.filter, haccepts]
      · simp [Option.filter, haccepts]

theorem Holds.verify_password (h : s.Holds md5 as) (http : HttpHeader) (session : S2hData) :
    UserStorage.verifyPassword md5 http session s.accounts =
      some ((provenAccount md5 as http session.idUser).map (·.info md5)) := by
  unfold UserStorage.verifyPassword provenAccount
  cases http.getParameter (ascii "curpwd") none with
  | none => rfl
  | some password =>
    dsimp only
    rw [h.user_by_id]
    cases as.byId session.idUser with
    | none => rfl
    | some own =>
      by_cases haccepts : own.Accepts md5 password
      · have hequal : isPasswordHashEqual3 md5 (own.info md5).passwordHash (own.info md5).login
            password (own.info md5).salt = true := decide_eq_true haccepts
        simp [Option.filter, haccepts, hequal]
      · have hequal : isPasswordHashEqual3 md5 (own.info md5).passwordHash (own.info md5).login
            password (own.info md5).salt = false := decide_eq_false haccepts
        simp [Option.filter, haccepts, hequal]

/-- A digest goes to the row of the account that gets the password. -/
theorem Holds.set_password (h : s.Holds md5 as) (hlogin : ∀ a ∈ as.list, a.id = userId →
      passwordHash = recalcPasswordHash md5 a.login password a.salt) :
    { s with accounts := s.accounts.setPassword userId passwordHash }.Holds md5
      (as.setPassword userId password) := by
  refine ⟨?_, ?_⟩
  · change s.accounts.users.map _ = (renew userId password as.list).map _
    rw [h.users, renew, List.map_map, List.map_map, List.map_inj_left]
    intro a ha
    simp only [Function.comp_apply]
    by_cases hid : a.id = userId
    · simp [Account.row, hid, hlogin a ha hid]
    · simp [Account.row, hid]
  · change s.userRoles = (renew userId password as.list).flatMap _
    rw [h.userRoles, List.flatMap_def, List.flatMap_def, map_renew fun _ _ => rfl]

theorem by_id_some (h : as.byId userId = some a) : a ∈ as.list ∧ a.id = userId :=
  ⟨List.mem_of_find?_eq_some h, by simpa using List.find?_some h⟩

theorem by_login_some (h : as.byLogin login = some a) : a ∈ as.list ∧ a.login = login :=
  ⟨List.mem_of_find?_eq_some h, by simpa using List.find?_some h⟩

theorem same_id (ha : a ∈ as.list) (hb : b ∈ as.list) (h : a.id = b.id) : a = b :=
  List.inj_on_of_nodup_map as.ids ha hb h

theorem Holds.action_change (h : s.Holds md5 as) (http : HttpHeader) (session : S2hData) :
    { s with accounts := after (UserStorage.actionChange md5 http session s.accounts) }.Holds md5
      (as.change md5 http session.idUser) := by
  unfold UserStorage.actionChange
  rw [get_bind, h.verify_password, bind_ok (UserStorage.throw_some _ _), change_proven]
  cases hproven : provenAccount md5 as http session.idUser with
  | none => exact h
  | some own =>
    have hown : as.byId session.idUser = some own := by
      obtain ⟨_, -, hfilter⟩ := Option.bind_eq_some_iff.mp hproven
      exact (Option.filter_eq_some_iff.mp hfilter).1
    obtain ⟨hmem, hid⟩ := by_id_some hown
    dsimp only [Option.map_some]
    unfold changed
    by_cases hexists : http.isParameterExist (ascii "loginpwd")
    · rw [if_pos hexists, if_pos hexists]
      cases http.getParameter (ascii "loginpwd") none with
      | none => exact h
      | some login =>
        rw [bind_ok (UserStorage.throw_some login _), get_bind, h.user_by_login,
          bind_ok (UserStorage.throw_some _ _), Option.bind_some]
        cases hfound : as.byLogin login with
        | none => exact h
        | some other =>
          obtain ⟨hother, hlogin⟩ := by_login_some hfound
          dsimp only [Option.map_some]
          cases http.getParameter (ascii "newpwd") none with
          | none => exact h
          | some newPassword =>
            refine h.set_password fun a ha hsame => ?_
            rw [same_id ha hother hsame, hlogin]
            rfl
    · rw [if_neg hexists, if_neg hexists]
      cases http.getParameter (ascii "newpwd") none with
      | none => exact h
      | some newPassword =>
        refine h.set_password fun a ha hsame => ?_
        rw [same_id ha hmem (hsame.trans hid.symm)]
        rfl

theorem Holds.performed (h : s.Holds md5 as) (hproper : op.Proper as) :
    (perform md5 s op).Holds md5 (performAccounts md5 as op) := by
  cases op with
  | change http session => exact h.action_change http session
  | autoExecute new configure =>
    change (after (S2hbStorage.autoExecute md5 new configure s)).Holds md5
      (as.autoExecute new configure)
    unfold S2hbStorage.autoExecute Accounts.autoExecute
    cases hconfigured : configuredUsers configure with
    | none => exact h
    | some users =>
      have hnew := hproper users hconfigured
      refine h.create_all _ ?_
      have hnews : (users.elements.zipIdx.map fun p => (new p.2, p.1)).map Prod.fst =
          (List.range users.elements.length).map new := by
        rw [List.map_map, List.range_eq_range', ← List.zipIdx_map_snd, List.map_map]
        rfl
      rw [hnews]
      exact hnew

theorem Run.holds (hr : Run md5 s as) : s.Holds md5 as := by
  induction hr with
  | start h => exact h
  | step op hr hproper ih => exact ih.performed hproper

theorem Holds.check_password (h : s.Holds md5 as) (login password : List UInt8) (info : UserInfo) :
    s.checkPassword md5 login password = some (some info) ↔
      ∃ a, as.byLogin login = some a ∧ a.Accepts md5 password ∧ info = a.info md5 := by
  rw [checkPassword, h.user_by_login, Option.map_some, Option.some.injEq]
  cases hfound : as.byLogin login with
  | none => simp
  | some a =>
    have hlogin := (by_login_some hfound).2
    subst hlogin
    simp only [Option.map_some, Option.filter_eq_some_iff, Option.some.injEq, decide_eq_true_iff]
    constructor
    · rintro ⟨rfl, hequal⟩
      exact ⟨a, rfl, hequal.symm, rfl⟩
    · rintro ⟨_, rfl, haccepts, rfl⟩
      exact ⟨rfl, haccepts.symm⟩

/-- In every run of starts and changes the tables hold the accounts: a login succeeds
exactly with a password whose digest is that of the last password given to the user. -/
theorem passwords_refined (hr : Run md5 s as) : Refines md5 s as :=
  ⟨hr.holds, hr.holds.check_password⟩

def annText : JsonValue :=
  .object [(ascii "Login", .string (ascii "ann")), (ascii "Password", .string (ascii "p1")),
    (ascii "Nickname", .string (ascii "Ann")), (ascii "Role", .array [.string (ascii "admin")])]

def annConfigure : JsonValue :=
  .object [(ascii "autoexec", .object [(ascii "Create", .object [(ascii "User", .array [annText])])])]

theorem ann_configured : configuredUsers annConfigure = some (.array [annText]) := by rfl

def fromOne : Nat → NewUser := fun n => ⟨n + 1, ascii "s1"⟩

theorem ann_proper : (Operation.autoExecute fromOne annConfigure).Proper Accounts.empty := by
  intro users husers
  rw [ann_configured] at husers
  cases husers
  constructor <;> decide

theorem ann_refined : Refines (fun text => text)
    (perform (fun text => text) { empty with roles := [⟨7, some (ascii "admin")⟩] }
      (.autoExecute fromOne annConfigure))
    (performAccounts (fun text => text) Accounts.empty (.autoExecute fromOne annConfigure)) :=
  passwords_refined (.step _ (.start ⟨rfl, rfl⟩) ann_proper)

/-- The login of a user of the configuration can be read, and he is there. -/
def Present (s : S2hbStorage) (user : JsonValue) : Prop :=
  ∃ login, (user.member (ascii "Login")).bind JsonValue.asString = some login ∧
    s.isUserExist login = true

def KeepsLogins (s s' : S2hbStorage) : Prop :=
  ∀ login, s.isUserExist login = true → s'.isUserExist login = true

theorem KeepsLogins.refl (s : S2hbStorage) : KeepsLogins s s := fun _ h => h

theorem KeepsLogins.trans (h : KeepsLogins s s') (h' : KeepsLogins s' s'') : KeepsLogins s s'' :=
  fun login hlogin => h' login (h login hlogin)

theorem KeepsLogins.present (h : KeepsLogins s s') (hp : s.Present user) : s'.Present user := by
  obtain ⟨login, hlogin, hthere⟩ := hp
  exact ⟨login, hlogin, h login hthere⟩

/-- One user of the configuration: the code throws, or he is there afterwards. -/
theorem create_absent_present (md5 : List UInt8 → List UInt8) (new : NewUser) (user : JsonValue)
    (s : S2hbStorage) :
    createAbsent md5 new user s = .error () s ∨
      ∃ s', createAbsent md5 new user s = .ok () s' ∧ KeepsLogins s s' ∧ s'.Present user := by
  unfold createAbsent
  cases hlogin : (user.member (ascii "Login")).bind JsonValue.asString with
  | none => exact .inl rfl
  | some login =>
    dsimp only
    split
    · next hthere => exact .inr ⟨s, rfl, .refl s, login, hlogin, hthere⟩
    · cases hcreate : s.createUser md5 new user with
      | none => exact .inl rfl
      | some s' =>
        have htables := create_user_tables md5 new user s
        rw [hcreate] at htables
        obtain ⟨a, ha, rfl⟩ := Option.map_eq_some_iff.mp htables.symm
        obtain ⟨-, -, rfl⟩ := requested_some ha hlogin
        refine .inr ⟨_, rfl, fun other hother => ?_, a.login, hlogin, ?_⟩
        · rw [isUserExist, withAccount, List.any_append]
          exact Bool.or_eq_true_iff.mpr (.inl hother)
        · rw [isUserExist, withAccount, List.any_append]
          simp [Account.row]

theorem create_all_keeps (md5 : List UInt8 → List UInt8) (users : List (NewUser × JsonValue))
    (s : S2hbStorage) : KeepsLogins s (after (createAll md5 users s)) := by
  induction users generalizing s with
  | nil => exact .refl s
  | cons entry users ih =>
    obtain ⟨new, user⟩ := entry
    unfold createAll
    rcases create_absent_present md5 new user s with herror | ⟨s', hok, hkeeps, -⟩
    · rw [bind_error herror]
      exact .refl s
    · rw [bind_ok hok]
      exact hkeeps.trans (ih s')

theorem create_all_present (h : createAll md5 users s = .ok () s') :
    ∀ entry ∈ users, s'.Present entry.2 := by
  induction users generalizing s with
  | nil => simp
  | cons entry users ih =>
    obtain ⟨new, user⟩ := entry
    unfold createAll at h
    rcases create_absent_present md5 new user s with herror | ⟨s₁, hok, -, hpresent⟩
    · rw [bind_error herror] at h
      cases h
    · rw [bind_ok hok] at h
      have hkeeps := create_all_keeps md5 users s₁
      rw [h] at hkeeps
      simp only [List.forall_mem_cons]
      exact ⟨hkeeps.present hpresent, ih h⟩

theorem create_all_idle (md5 : List UInt8 → List UInt8)
    (h : ∀ entry ∈ users, s.Present entry.2) : createAll md5 users s = .ok () s := by
  induction users with
  | nil => rfl
  | cons entry users ih =>
    obtain ⟨new, user⟩ := entry
    obtain ⟨⟨login, hlogin, hthere⟩, hrest⟩ := List.forall_mem_cons.mp h
    have hidle : createAbsent md5 new user s = .ok () s := by
      rw [createAbsent, hlogin]
      exact if_pos hthere
    unfold createAll
    rw [bind_ok hidle]
    exact ih hrest

theorem perform_keeps (md5 : List UInt8 → List UInt8) (s : S2hbStorage) (op : Operation) :
    KeepsLogins s (perform md5 s op) := by
  cases op with
  | autoExecute new configure =>
    change KeepsLogins s (after (S2hbStorage.autoExecute md5 new configure s))
    unfold S2hbStorage.autoExecute
    cases configuredUsers configure with
    | none => exact .refl s
    | some users => exact create_all_keeps md5 _ s
  | change http session =>
    intro login hlogin
    have heffect := UserStorage.change_effect md5 http session s.accounts
    unfold perform isUserExist
    dsimp only
    generalize after (UserStorage.actionChange md5 http session s.accounts) = accounts at heffect ⊢
    have hset : ∀ userId passwordHash,
        (s.accounts.setPassword userId passwordHash).users.any (fun r => r.login = some login) =
          true := by
      intro userId passwordHash
      obtain ⟨row, hrow, hsame⟩ := List.any_eq_true.mp hlogin
      refine List.any_eq_true.mpr ⟨_, List.mem_map_of_mem hrow, ?_⟩
      split
      · exact hsame
      · exact hsame
    cases heffect with
    | nothing => exact hlogin
    | own hproves passwordHash => exact hset _ _
    | named hproves hnamed hpassword hinfo passwordHash => exact hset _ _

theorem performs_keep (md5 : List UInt8 → List UInt8) (ops : List Operation) (s : S2hbStorage) :
    KeepsLogins s (ops.foldl (perform md5) s) := by
  induction ops generalizing s with
  | nil => exact .refl s
  | cons op ops ih => exact (perform_keeps md5 s op).trans (ih _)

/-- Once the users of a configuration have been created, no later start creates or
changes them, whatever has been done in between. -/
theorem start_settled (md5 : List UInt8 → List UInt8) (new new' : Nat → NewUser)
    (configure : JsonValue) (s s' : S2hbStorage) (ops : List Operation)
    (h : autoExecute md5 new configure s = .ok () s') :
    autoExecute md5 new' configure (ops.foldl (perform md5) s') =
      .ok () (ops.foldl (perform md5) s') := by
  unfold autoExecute at h ⊢
  cases hconfigured : configuredUsers configure with
  | none =>
    rw [hconfigured] at h
    cases h
  | some users =>
    rw [hconfigured] at h
    apply create_all_idle
    intro entry hentry
    obtain ⟨⟨user, n⟩, hmem, rfl⟩ := List.mem_map.mp hentry
    have hpresent := create_all_present h (new n, user) (List.mem_map.mpr ⟨(user, n), hmem, rfl⟩)
    exact (performs_keep md5 ops s').present hpresent

/-- The one user is created once. -/
theorem ann_settled : autoExecute (fun text => text) fromOne annConfigure
    (after (autoExecute (fun text => text) fromOne annConfigure empty)) =
      .ok () (after (autoExecute (fun text => text) fromOne annConfigure empty)) :=
  start_settled (fun text => text) fromOne fromOne annConfigure empty _ [] rfl

end S2hbStorage

end Khorost
