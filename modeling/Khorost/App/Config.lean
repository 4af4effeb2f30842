import Khorost.Util.JsonValue
import Khorost.Util.StdString

namespace Khorost.Config

/-- What stands below a value is smaller, unless it is a null. -/
theorem member_smaller {item : JsonValue} (h : item.member key = some v) (hv : v.isNull = false) :
    sizeOf v < sizeOf item := by
  obtain ⟨found, hfind, rfl⟩ := Option.map_eq_some_iff.mp h
  cases item with
  | object members =>
    rw [JsonValue.find, Option.some.injEq] at hfind
    cases found with
    | none => cases hv
    | some v =>
      obtain ⟨before, after, rfl, -⟩ := List.lookup_eq_some_iff.mp hfind
      simp only [Option.getD_some, JsonValue.object.sizeOf_spec]
      have hmem : (key, v) ∈ before ++ (key, v) :: after := by simp
      have hpair := List.sizeOf_lt_of_mem hmem
      simp only [Prod.mk.sizeOf_spec] at hpair
      omega
  | null =>
    cases hfind
    cases hv
  | int => cases hfind
  | uint => cases hfind
  | real => cases hfind
  | string => cases hfind
  | bool => cases hfind
  | array => cases hfind

/-- `find_item`, from an item and what is left of the key on; `none` is an exception.
The null that `operator[]` makes of a member that is not there is in a copy. -/
def findItem (div : List UInt8) (item : JsonValue) (key : List UInt8) : Option JsonValue :=
  match findText div key with
  | none => item.member key
  | some pos =>
    match _hitem : item.member (key.take pos) with
    | none => none
    | some it2 =>
      if _hnull : it2.isNull then some .null
      else if key.drop (pos + div.length) = [] then some .null
      else findItem div it2 (key.drop (pos + div.length))
termination_by (key.length, sizeOf item)
decreasing_by
  have hsmaller := member_smaller _hitem (by simpa using _hnull)
  rw [List.length_drop, Prod.lex_def]
  dsimp only
  omega

def isValue (container : JsonValue) (superKey : List UInt8) (defaultValue : Bool)
    (div : List UInt8) : Option Bool :=
  (findItem div container superKey).bind fun item =>
    if item.isNull then some defaultValue else item.asBool

/-- `get_value` of a number. -/
def getInt (container : JsonValue) (superKey : List UInt8) (defaultValue : Int)
    (div : List UInt8) : Option Int :=
  (findItem div container superKey).bind fun item =>
    if item.isNull then some defaultValue else item.asInt

/-- `get_value` of a text. -/
def getString (container : JsonValue) (superKey defaultValue div : List UInt8) :
    Option (List UInt8) :=
  (findItem div container superKey).bind fun item =>
    if item.isNull then some defaultValue else item.asString

end Khorost.Config
