import Khorost.App.SessionText
import Khorost.Lib.Throwing

namespace Khorost.S2hMembers

open Throwing

/-- The flag, the user, the names and the roles are the same. -/
structure SameFields (s s' : S2hMembers) : Prop where
  authenticate : s'.authenticate = s.authenticate
  idUser : s'.idUser = s.idUser
  nickname : s'.nickname = s.nickname
  position : s'.position = s.position
  roles : s'.roles = s.roles

/-- Every field has been read from the document, or has its default. -/
structure Imported (root : JsonValue) (s : S2hMembers) : Prop where
  authenticate : (root.get (ascii "bAuthenticate") (.bool false)).bind JsonValue.asBool =
    some s.authenticate
  nickname : (root.get (ascii "sNickname") (.string [])).bind JsonValue.asString = some s.nickname
  position : (root.get (ascii "sPosition") (.string S2hData.defaultPosition)).bind
    JsonValue.asString = some s.position
  idUser : ∃ n, (root.get (ascii "idUser") (.string [])).bind JsonValue.asInt = some n ∧
    s.idUser = Int32.ofInt n
  roles : ∃ roles, root.member (ascii "Roles") = some roles ∧
    (∀ r ∈ roles.elements, r.asString.isSome) ∧
    s.roles = (roles.elements.filterMap JsonValue.asString).foldl StdSet.insert .empty

/-- An object whose members are of the right types, with a user. -/
inductive Importable : JsonValue → Prop
  | object (flag : ∀ v, members.lookup (ascii "bAuthenticate") = some v → v.asBool.isSome)
    (nickname : ∀ v, members.lookup (ascii "sNickname") = some v → v.asString.isSome)
    (position : ∀ v, members.lookup (ascii "sPosition") = some v → v.asString.isSome)
    (user : ∃ v, members.lookup (ascii "idUser") = some v ∧ v.asInt.isSome)
    (roles : ∀ v, members.lookup (ascii "Roles") = some v →
      ∀ r ∈ v.elements, r.asString.isSome) : Importable (.object members)

/-- What an import that is all or nothing comes to. -/
inductive Whole (json : JsonCodec) (data : List UInt8) (s : S2hMembers) :
    EStateM.Result Unit S2hMembers Bool → Prop
  | imported (hparse : json.parseJsonString data = .value root) (h : Imported root s') :
    Whole json data s (.ok true s')
  | refused (h : SameFields s s') : Whole json data s (.ok false s')
  | thrown (h : SameFields s s') : Whole json data s (.error () s')

def keys : List (List UInt8) :=
  [ascii "bAuthenticate", ascii "sNickname", ascii "sPosition", ascii "idUser", ascii "Roles"]

/-- The text of an object without one of the members. -/
def Misses (json : JsonCodec) (data : List UInt8) : Prop :=
  ∃ members, json.parseJsonString data = .value (.object members) ∧
    ∃ key ∈ keys, members.lookup key = none

def Loads (json : JsonCodec) (rows : List ((_ : List UInt8) × Row (List UInt8)))
    (memory : SessionMemory S2hMembers) : Prop :=
  (SessionDb.loadRows (textSession json) (some textCreator) rows memory).isSome

/-- A text that is imported as a whole or not at all, and that does not end the
loop over the rows where a member is missing. -/
structure AllOrNothing (json : JsonCodec) (data : List UInt8) : Prop where
  imports : ∀ s, Whole json data s (importData json data s)
  load : Misses json data → ∀ rows rest sid row memory, row.data = data →
    Loads json (rows ++ rest) memory → Loads json (rows ++ ⟨sid, row⟩ :: rest) memory

variable {α : Type} {s s' : S2hMembers} {root : JsonValue}

theorem assign_some {r : Option α} (h : r = some a) (set : α → S2hMembers → S2hMembers)
    (s : S2hMembers) :
    assign r set s = .ok () (set a s) := by
  rw [h]
  rfl

theorem assign_ended {r : Option α} {set : α → S2hMembers → S2hMembers}
    (h : assign r set s = .ok () s') : ∃ a, r = some a ∧ s' = set a s := by
  cases r with
  | some a =>
    cases h
    exact ⟨a, rfl, rfl⟩
  | none => cases h

theorem insert_roles_ok {values : List JsonValue} (h : ∀ r ∈ values, r.asString.isSome)
    (s : S2hMembers) :
    insertRoles values s = .ok () { s with
      roles := (values.filterMap JsonValue.asString).foldl StdSet.insert s.roles } := by
  induction values generalizing s with
  | nil => rfl
  | cons r values ih =>
    obtain ⟨role, hrole⟩ := Option.isSome_iff_exists.mp (h r (List.mem_cons_self ..))
    rw [insertRoles, bind_ok (assign_some hrole _ s), ih fun r hr => h r (List.mem_cons_of_mem _ hr),
      List.filterMap_cons_some hrole, List.foldl_cons]

theorem insert_roles_ended {values : List JsonValue} (h : insertRoles values s = .ok () s') :
    ∀ r ∈ values, r.asString.isSome := by
  induction values generalizing s with
  | nil => nofun
  | cons r values ih =>
    obtain ⟨_, s₁, hassign, hrest⟩ := bind_ended h
    obtain ⟨role, hrole, -⟩ := assign_ended hassign
    intro r' hr'
    rcases List.mem_cons.mp hr' with rfl | hmem
    · rw [hrole]
      rfl
    · exact ih hrest r' hmem

theorem import_root_ended (h : importRoot root s = .ok () s') :
    Imported root s' ∧ s'.use = s.use.reset := by
  obtain ⟨_, s₁, hreset, h⟩ := bind_ended h
  cases hreset
  obtain ⟨_, s₂, hstep, h⟩ := bind_ended h
  obtain ⟨flag, hflag, rfl⟩ := assign_ended hstep
  obtain ⟨_, s₃, hstep, h⟩ := bind_ended h
  obtain ⟨nickname, hnickname, rfl⟩ := assign_ended hstep
  obtain ⟨_, s₄, hstep, h⟩ := bind_ended h
  obtain ⟨position, hposition, rfl⟩ := assign_ended hstep
  obtain ⟨_, s₅, hstep, h⟩ := bind_ended h
  obtain ⟨user, huser, rfl⟩ := assign_ended hstep
  cases hroles : root.member (ascii "Roles") with
  | none =>
    rw [hroles] at h
    cases h
  | some value =>
    rw [hroles] at h
    have hall := insert_roles_ended h
    dsimp only at h
    rw [insert_roles_ok hall] at h
    cases h
    exact ⟨⟨hflag, hnickname, hposition, ⟨user, huser, rfl⟩, ⟨value, hroles, hall, rfl⟩⟩, rfl⟩

/-- A document all of whose conversions succeed is imported. -/
theorem import_root_ok {flag : Bool} {user : Int} {name place : List UInt8} {roles : JsonValue}
    (hflag : (root.get (ascii "bAuthenticate") (.bool false)).bind
      JsonValue.asBool = some flag)
    (hnickname : (root.get (ascii "sNickname") (.string [])).bind JsonValue.asString =
      some name)
    (hposition : (root.get (ascii "sPosition") (.string S2hData.defaultPosition)).bind
      JsonValue.asString = some place)
    (huser : (root.get (ascii "idUser") (.string [])).bind JsonValue.asInt = some user)
    (hroles : root.member (ascii "Roles") = some roles)
    (hall : ∀ r ∈ roles.elements, r.asString.isSome) (s : S2hMembers) :
    importRoot root s = .ok () ⟨s.use.reset, flag, Int32.ofInt user, name, place,
      (roles.elements.filterMap JsonValue.asString).foldl StdSet.insert .empty⟩ := by
  have hreset : (modify reset : Import Unit) s = .ok () s.reset := rfl
  rw [importRoot, bind_ok hreset, bind_ok (assign_some hflag _ _),
    bind_ok (assign_some hnickname _ _), bind_ok (assign_some hposition _ _),
    bind_ok (assign_some huser _ _), hroles]
  exact insert_roles_ok hall _

/-- A document with a user and all types right is imported; every other one throws. -/
theorem importable_ends (h : Importable root) (s : S2hMembers) :
    ∃ s', importRoot root s = .ok () s' := by
  cases h with
  | @object members flag nickname position user roles =>
    have hget : ∀ {β : Type} (convert : JsonValue → Option β) (key : List UInt8) (d : JsonValue),
        (∀ v, members.lookup key = some v → (convert v).isSome) → (convert d).isSome →
          ∃ b, ((JsonValue.object members).get key d).bind convert = some b := by
      intro β convert key d hthere hdefault
      rw [JsonValue.get, JsonValue.find, Option.map_some, Option.bind_some]
      apply Option.isSome_iff_exists.mp
      cases hlookup : members.lookup key with
      | none => exact hdefault
      | some v => exact hthere v hlookup
    obtain ⟨b, hb⟩ := hget JsonValue.asBool _ (.bool false) flag rfl
    obtain ⟨name, hname⟩ := hget JsonValue.asString _ (.string []) nickname rfl
    obtain ⟨place, hplace⟩ := hget JsonValue.asString _ (.string S2hData.defaultPosition) position rfl
    obtain ⟨v, hv, huser⟩ := user
    obtain ⟨n, hn⟩ := Option.isSome_iff_exists.mp huser
    have hid : ((JsonValue.object members).get (ascii "idUser") (.string [])).bind
        JsonValue.asInt = some n := by
      rw [JsonValue.get, JsonValue.find, Option.map_some, Option.bind_some, hv]
      exact hn
    have hroles : (JsonValue.object members).member (ascii "Roles") =
        some ((members.lookup (ascii "Roles")).getD .null) := rfl
    have hall : ∀ r ∈ ((members.lookup (ascii "Roles")).getD JsonValue.null).elements,
        r.asString.isSome := by
      cases hlookup : members.lookup (ascii "Roles") with
      | none => nofun
      | some v => exact roles v hlookup
    exact ⟨_, import_root_ok hb hname hplace hid hroles hall s⟩

theorem imported_importable (h : Imported root s) : Importable root := by
  cases root with
  | object members =>
    have hget : ∀ {β : Type} {convert : JsonValue → Option β} {key : List UInt8} {d : JsonValue}
        {b : β}, ((JsonValue.object members).get key d).bind convert = some b →
          ∀ v, members.lookup key = some v → (convert v).isSome := by
      intro β convert key d b hb v hv
      rw [JsonValue.get, JsonValue.find, Option.map_some, Option.bind_some, hv,
        Option.getD_some] at hb
      rw [hb]
      rfl
    obtain ⟨n, hn, -⟩ := h.idUser
    obtain ⟨roles, hmember, hall, -⟩ := h.roles
    refine .object (hget h.authenticate) (hget h.nickname) (hget h.position) ?_ ?_
    · cases hlookup : members.lookup (ascii "idUser") with
      | none =>
        rw [JsonValue.get, JsonValue.find, hlookup] at hn
        cases hn
      | some v => exact ⟨v, rfl, hget hn v hlookup⟩
    · intro v hv
      rw [JsonValue.member, JsonValue.find, hv] at hmember
      cases hmember
      exact hall
  | null =>
    obtain ⟨n, hn, -⟩ := h.idUser
    cases hn
  | _ => cases h.authenticate

/-- What the import does does not depend on what the fields have been. -/
theorem import_root_forgets (root : JsonValue) (h : s.use = s'.use) :
    importRoot root s = importRoot root s' := by
  have hreset : (modify reset : Import Unit) s = .ok () s'.reset := by
    change EStateM.Result.ok () s.reset = _
    rw [reset, h]
    rfl
  have hreset' : (modify reset : Import Unit) s' = .ok () s'.reset := rfl
  rw [importRoot, bind_ok hreset, bind_ok hreset']

theorem import_fails (h : ¬ Importable root) (s : S2hMembers) :
    ∃ s', importRoot root s = .error () s' := by
  cases hresult : importRoot root s with
  | ok _ s' => exact (h (imported_importable (import_root_ended hresult).1)).elim
  | error _ s' => exact ⟨s', rfl⟩

theorem fill_roles_elements (s : S2hMembers) :
    s.fillRoles.elements = s.roles.elements.map .string := by
  unfold fillRoles
  split
  · next h =>
    rw [h]
    rfl
  · rfl

theorem text_names (names : List (List UInt8)) :
    (∀ r ∈ names.map JsonValue.string, r.asString.isSome) ∧
      (names.map JsonValue.string).filterMap JsonValue.asString = names := by
  constructor
  · intro r hr
    obtain ⟨name, -, rfl⟩ := List.mem_map.mp hr
    rfl
  · rw [List.filterMap_map]
    exact List.filterMap_some

/-- A text that is read back as the document it has been written for restores the
fields in any other session. -/
theorem export_imported (json : JsonCodec) (s other : S2hMembers)
    (hjson : json.parseJsonString (json.jsonString s.document) = .value s.document) :
    importData json (s.exportData json) other = .ok true { s with use := other.use.reset } := by
  obtain ⟨hall, hnames⟩ := text_names s.roles.elements
  rw [← fill_roles_elements] at hall hnames
  have hflag : (s.document.get (ascii "bAuthenticate") (.bool false)).bind JsonValue.asBool =
      some s.authenticate := rfl
  have hname : (s.document.get (ascii "sNickname") (.string [])).bind JsonValue.asString =
      some s.nickname := rfl
  have hplace : (s.document.get (ascii "sPosition") (.string S2hData.defaultPosition)).bind
      JsonValue.asString = some s.position := rfl
  have hid : (s.document.get (ascii "idUser") (.string [])).bind JsonValue.asInt =
      some s.idUser.toInt := by
    have hrange : JsonValue.minInt ≤ s.idUser.toInt ∧ s.idUser.toInt ≤ JsonValue.maxInt :=
      ⟨s.idUser.le_toInt, Int.le_sub_one_of_lt s.idUser.toInt_lt⟩
    exact if_pos hrange
  have hroles : s.document.member (ascii "Roles") = some s.fillRoles := rfl
  have hroot : importRoot s.document other = .ok () { s with use := other.use.reset } := by
    rw [import_root_ok hflag hname hplace hid hroles hall, hnames, StdSet.fold_insert,
      Int32.ofInt_toInt]
  rw [importData, exportData, hjson]
  exact bind_ok hroot

/-- A member of a moderator's session, and its text. -/
def moderator : S2hMembers :=
  ⟨.new 0, true, 7, ascii "n", ascii "p", ⟨[ascii "mod"], by decide⟩⟩

def moderatorText : List UInt8 := ascii
  "\x7b\"Roles\":[\"mod\"],\"bAuthenticate\":true,\"idUser\":7,\"sNickname\":\"n\",\"sPosition\":\"p\"\x7d"

/-- A codec that knows the text of the moderator and the empty object. -/
def smallCodec : JsonCodec where
  jsonString _ := moderatorText
  parseJsonString text :=
    if text = moderatorText then .value moderator.document
    else if text = ascii "\x7b\x7d" then .value (.object [])
    else .fails

theorem moderator_imported :
    importData smallCodec (moderator.exportData smallCodec) (.new 5) =
      .ok true { moderator with use := (new 5).use.reset } :=
  export_imported smallCodec moderator (new 5) (by simp [smallCodec])

theorem import_value (hparse : json.parseJsonString data = .value root) (s : S2hMembers) :
    importData json data s =
      match importRoot root s with
      | .ok _ s' => .ok true s'
      | .error _ s' => .error () s' := by
  rw [importData, hparse]
  cases hresult : importRoot root s with
  | ok _ s' => exact bind_ok hresult
  | error _ s' => exact bind_error hresult

/-- The rows are loaded exactly if each of them can be imported. -/
theorem load_rows_some {δ ρ : Type} (cls : SessionClass δ ρ) (create : Creator δ)
    (rows : List ((_ : List UInt8) × Row ρ)) (memory : SessionMemory δ) :
    (SessionDb.loadRows cls (some create) rows memory).isSome ↔
      ∀ entry ∈ rows, (cls.importData entry.2.data
        (create entry.1 (fromTimeT entry.2.dtCreate) (fromTimeT entry.2.dtExpire))).isSome := by
  induction rows generalizing memory with
  | nil => exact iff_of_true rfl nofun
  | cons entry rows ih =>
    rw [List.forall_mem_cons]
    change (Option.bind (cls.importData entry.2.data (create entry.1 (fromTimeT entry.2.dtCreate)
      (fromTimeT entry.2.dtExpire))) _).isSome ↔ _
    cases himport : cls.importData entry.2.data
        (create entry.1 (fromTimeT entry.2.dtCreate) (fromTimeT entry.2.dtExpire)) with
    | none => exact iff_of_false (by simp) fun h => by simpa using h.1
    | some session =>
      rw [Option.bind_some, ih]
      exact ⟨fun h => ⟨rfl, h⟩, fun h => h.2⟩

theorem importable_loads {rows rest : List ((_ : List UInt8) × Row (List UInt8))}
    (hparse : json.parseJsonString row.data = .value root) (himportable : Importable root)
    (h : Loads json (rows ++ rest) memory) : Loads json (rows ++ ⟨sid, row⟩ :: rest) memory := by
  rw [Loads, load_rows_some] at h ⊢
  intro entry hentry
  rw [List.mem_append, List.mem_cons] at hentry
  rcases hentry with hbefore | rfl | hafter
  · exact h entry (List.mem_append_left _ hbefore)
  · obtain ⟨s', hroot⟩ := importable_ends himportable
      (textCreator sid (fromTimeT row.dtCreate) (fromTimeT row.dtExpire)).data
    dsimp only [textSession]
    rw [import_value hparse, hroot]
    rfl
  · exact h entry (List.mem_append_right _ hafter)

/-- A text is imported as a whole or not at all exactly if it does not parse, or is
that of an object with a user and with all types right. -/
theorem all_or_nothing_iff (json : JsonCodec) (data : List UInt8) :
    AllOrNothing json data ↔
      ∀ root, json.parseJsonString data = .value root → Importable root := by
  constructor
  · intro h root hparse
    by_contra hbad
    obtain ⟨broken, hbroken⟩ := import_fails hbad (.new 0)
    -- a session with the other flag ends up in the same state
    have hother : importRoot root ⟨(new 0).use, !broken.authenticate, 0, [], [], .empty⟩ =
        .error () broken := (import_root_forgets root rfl).trans hbroken
    have hwhole := h.imports ⟨(new 0).use, !broken.authenticate, 0, [], [], .empty⟩
    rw [import_value hparse, hother] at hwhole
    cases hwhole with
    | thrown hsame =>
      have hflag := hsame.authenticate
      exact (Bool.eq_not_self _).mp hflag
  · intro h
    constructor
    · intro s
      cases hparse : json.parseJsonString data with
      | value root =>
        obtain ⟨s', hroot⟩ := importable_ends (h root hparse) s
        rw [import_value hparse, hroot]
        exact .imported hparse (import_root_ended hroot).1
      | fails =>
        rw [importData, hparse]
        exact .refused ⟨rfl, rfl, rfl, rfl, rfl⟩
      | throws =>
        rw [importData, hparse]
        exact .thrown ⟨rfl, rfl, rfl, rfl, rfl⟩
    · rintro ⟨members, hparse, -⟩ rows rest sid row memory rfl hloads
      exact importable_loads hparse (h _ hparse) hloads

/-- The empty object resets a session and ends the loop over the rows. -/
theorem empty_object_resets :
    ¬ ∀ json data, AllOrNothing json data := by
  intro h
  have hwhole := (h smallCodec (ascii "\x7b\x7d")).imports moderator
  have hbroken : ∃ s', importData smallCodec (ascii "\x7b\x7d") moderator = .error () s' ∧
      s'.authenticate = false := ⟨_, rfl, rfl⟩
  obtain ⟨s', hbroken, hflag⟩ := hbroken
  rw [hbroken] at hwhole
  cases hwhole with
  | thrown hsame =>
    rw [hsame.authenticate] at hflag
    cases hflag

end Khorost.S2hMembers
