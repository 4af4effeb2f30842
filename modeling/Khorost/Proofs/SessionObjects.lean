import Khorost.Net.SessionImage
import Khorost.Proofs.SessionImport

namespace Khorost

def SessionJson.value : SessionJson → JsonValue
  | .null => .null
  | .bool value => .bool value
  | .int value => .int value
  | .string value => .string value
  | .array elements => .array (elements.map .string)

def Represents (root : JsonValue) (object : SessionObject) : Prop :=
  ∀ key, root.find key = some ((object key).map SessionJson.value)

def SessionJson.ofValue : JsonValue → SessionJson
  | .bool value => .bool value
  | .int value => .int value
  | .string value => .string value
  | .array elements => .array (elements.filterMap JsonValue.asString)
  | .null | .uint _ | .real _ _ | .object _ => .null

def SessionObject.read (json : JsonCodec) (text : List UInt8) : SessionObject := fun key =>
  match json.parseJsonString text with
  | .value root => (root.find key).join.map SessionJson.ofValue
  | _ => none

namespace S2hMembers

/-- JsonCpp reads the document of a session back from its text. -/
def ReadBack (json : JsonCodec) (s : S2hMembers) : Prop :=
  json.parseJsonString (s.exportData json) = .value s.document

def data (s : S2hMembers) : S2hData :=
  ⟨s.authenticate, s.idUser.toInt, s.nickname, s.position, s.roles⟩

variable {root : JsonValue} {object : SessionObject}

theorem get_represents (h : Represents root object) (key : List UInt8) (d : SessionJson) :
    root.get key d.value = some (object.get key d).value := by
  rw [JsonValue.get, h key, Option.map_some, SessionObject.get]
  cases object key <;> rfl

theorem value_as_bool (v : SessionJson) : v.value.asBool = v.asBool := by
  cases v <;> rfl

theorem value_as_string (v : SessionJson) : v.value.asString = v.asString := by
  cases v <;> rfl

theorem value_as_int (v : SessionJson)
    (h : ∀ n, v = .int n → JsonValue.minInt ≤ n ∧ n ≤ JsonValue.maxInt) :
    v.value.asInt = v.asInt := by
  cases v with
  | int n => exact if_pos (h n rfl)
  | bool value => cases value <;> rfl
  | null => rfl
  | string => rfl
  | array => rfl

/-- A number of type `int` is kept by the conversion to one. -/
theorem int32_kept (h : JsonValue.minInt ≤ n ∧ n ≤ JsonValue.maxInt) :
    (Int32.ofInt n).toInt = n := by
  rw [Int32.toInt_ofInt]
  exact Int.bmod_eq_of_le h.1 (Int.lt_of_le_sub_one h.2)

theorem as_int_range {v : SessionJson}
    (hv : ∀ n, v = .int n → JsonValue.minInt ≤ n ∧ n ≤ JsonValue.maxInt) (h : v.asInt = some n) :
    (Int32.ofInt n).toInt = n := by
  have hrange : JsonValue.minInt ≤ n ∧ n ≤ JsonValue.maxInt := by
    cases v with
    | int n =>
      cases h
      exact hv n rfl
    | bool value =>
      cases h
      cases value <;> decide
    | null =>
      cases h
      decide
    | string => cases h
    | array => cases h
  exact int32_kept hrange

theorem value_elements (v : SessionJson) : v.value.elements = v.elements.map .string := by
  cases v <;> rfl

theorem lookup_if {k : List UInt8} (key : List UInt8) (v : JsonValue)
    (members : List (List UInt8 × JsonValue)) :
    List.lookup key ((k, v) :: members) = if key = k then some v else members.lookup key := by
  by_cases h : key = k
  · rw [if_pos h, h, List.lookup_cons_self]
  · rw [if_neg h, List.lookup_cons, beq_false_of_ne h]

/-- What is exported is the object of the session's data. -/
theorem document_represents (s : S2hMembers) : Represents s.document s.data.exportData := by
  have hroles : s.fillRoles = s.data.fillRoles.value := by
    unfold fillRoles S2hData.fillRoles data
    split <;> rfl
  intro key
  by_cases hkey : key ∈ keys
  · simp only [keys, List.mem_cons, List.not_mem_nil, or_false] at hkey
    rcases hkey with rfl | rfl | rfl | rfl | rfl
    · rfl
    · rfl
    · rfl
    · rfl
    · exact congrArg (fun roles => some (some roles)) hroles
  · simp only [keys, List.mem_cons, List.not_mem_nil, or_false, not_or] at hkey
    obtain ⟨hflag, hnickname, hposition, huser, hroles⟩ := hkey
    simp only [document, JsonValue.find, lookup_if, S2hData.exportData, Maps.set, if_neg hflag,
      if_neg hnickname, if_neg hposition, if_neg huser, if_neg hroles]
    rfl

/-- The import of an object is that of its text, where the id is a number of 32 bits. -/
theorem import_represents (h : Represents root object)
    (hid : ∀ n, object (ascii "idUser") = some (.int n) →
      JsonValue.minInt ≤ n ∧ n ≤ JsonValue.maxInt) (s : S2hMembers) :
    S2hData.importData object =
      match importRoot root s with
      | .ok _ s' => some s'.data
      | .error _ _ => none := by
  have hrange : ∀ n, object.get (ascii "idUser") (.string []) = .int n →
      JsonValue.minInt ≤ n ∧ n ≤ JsonValue.maxInt := by
    intro n hn
    unfold SessionObject.get at hn
    cases hmember : object (ascii "idUser") with
    | none =>
      rw [hmember] at hn
      cases hn
    | some v =>
      rw [hmember] at hn
      exact hid n (hmember.trans (congrArg some hn))
  have hflag : (root.get (ascii "bAuthenticate") (.bool false)).bind JsonValue.asBool =
      (object.get (ascii "bAuthenticate") (.bool false)).asBool := by
    rw [← value_as_bool]
    exact congrArg (fun v => v.bind JsonValue.asBool) (get_represents h _ (.bool false))
  have hnickname : (root.get (ascii "sNickname") (.string [])).bind JsonValue.asString =
      (object.get (ascii "sNickname") (.string [])).asString := by
    rw [← value_as_string]
    exact congrArg (fun v => v.bind JsonValue.asString) (get_represents h _ (.string []))
  have hposition : (root.get (ascii "sPosition") (.string S2hData.defaultPosition)).bind
      JsonValue.asString =
        (object.get (ascii "sPosition") (.string S2hData.defaultPosition)).asString := by
    rw [← value_as_string]
    exact congrArg (fun v => v.bind JsonValue.asString) (get_represents h _ (.string _))
  have huser : (root.get (ascii "idUser") (.string [])).bind JsonValue.asInt =
      (object.get (ascii "idUser") (.string [])).asInt := by
    rw [← value_as_int _ hrange]
    exact congrArg (fun v => v.bind JsonValue.asInt) (get_represents h _ (.string []))
  have hroles : root.member (ascii "Roles") = some (object.get (ascii "Roles") .null).value :=
    get_represents h (ascii "Roles") .null
  obtain ⟨hall, hnames⟩ := text_names (object.get (ascii "Roles") .null).elements
  rw [← value_elements] at hall hnames
  cases hresult : importRoot root s with
  | ok _ s' =>
    obtain ⟨himported, -⟩ := import_root_ended hresult
    obtain ⟨n, hn, hs'⟩ := himported.idUser
    obtain ⟨roles, hmember, -, hfold⟩ := himported.roles
    obtain rfl := Option.some.inj (hroles.symm.trans hmember)
    rw [huser] at hn
    rw [hnames] at hfold
    rw [S2hData.importData, ← hflag, himported.authenticate, ← hnickname, himported.nickname,
      ← hposition, himported.position, hn]
    change some (S2hData.mk _ _ _ _ _) = some s'.data
    rw [data, hs', as_int_range hrange hn, hfold]
  | error _ s' =>
    cases hobject : S2hData.importData object with
    | none => rfl
    | some data =>
      obtain ⟨flag, hflag', hobject⟩ := Option.bind_eq_some_iff.mp hobject
      obtain ⟨name, hnickname', hobject⟩ := Option.bind_eq_some_iff.mp hobject
      obtain ⟨place, hposition', hobject⟩ := Option.bind_eq_some_iff.mp hobject
      obtain ⟨user, huser', -⟩ := Option.bind_eq_some_iff.mp hobject
      rw [import_root_ok (hflag.trans hflag') (hnickname.trans hnickname')
        (hposition.trans hposition') (huser.trans huser') hroles hall] at hresult
      cases hresult

theorem of_value (v : SessionJson) : SessionJson.ofValue v.value = v := by
  cases v with
  | array elements => exact congrArg SessionJson.array (text_names elements).2
  | _ => rfl

theorem read_represents (hparse : json.parseJsonString text = .value root)
    (h : Represents root object) : SessionObject.read json text = object := by
  funext key
  rw [SessionObject.read, hparse]
  dsimp only
  rw [h key, Option.join_some, Option.map_map]
  cases object key with
  | none => rfl
  | some v => exact congrArg some (of_value v)

theorem read_exported (h : ReadBack json s) :
    SessionObject.read json (s.exportData json) = s.data.exportData :=
  read_represents h s.document_represents

theorem text_imported (h : ReadBack json s) (fresh : Session S2hMembers) :
    ((textSession json).importData (s.exportData json) fresh).map (Session.map data) =
      s2hSession.importData s.data.exportData (fresh.map data) := by
  have himport := import_represents s.document_represents (fun n hn => by
    cases hn
    exact ⟨s.idUser.le_toInt, Int.le_sub_one_of_lt s.idUser.toInt_lt⟩) fresh.data
  change _ = (S2hData.importData s.data.exportData).map _
  dsimp only [textSession]
  rw [himport, import_value h]
  cases importRoot s.document fresh.data with
  | ok _ s' => rfl
  | error _ s' => rfl

/-- The controller of the texts is that of the objects. -/
theorem text_image (json : JsonCodec) :
    (textSession json).Image s2hSession data (SessionObject.read json) (ReadBack json) where
  shift _ := rfl
  exported _ h := read_exported h
  imported session fresh h := by
    change _ = s2hSession.importData (SessionObject.read json (session.data.exportData json)) _
    rw [read_exported h]
    exact text_imported h fresh

theorem creator_image : textCreator.Image s2hCreator data := fun _ _ _ => rfl

end S2hMembers

end Khorost
