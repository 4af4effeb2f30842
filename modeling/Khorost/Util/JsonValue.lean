import Khorost.Util.CString
import Mathlib.Data.Rat.Defs

namespace Khorost

/-- `Json::Value`. With a real goes the text that is written for it; the members
of an object stand in the order of the map. -/
inductive JsonValue
  | null
  | int (value : Int)
  | uint (value : Nat)
  | real (value : Rat) (text : List UInt8)
  | string (value : List UInt8)
  | bool (value : Bool)
  | array (elements : List JsonValue)
  | object (members : List (List UInt8 × JsonValue))

namespace JsonValue

def isNull : JsonValue → Bool
  | null => true
  | _ => false

def minInt : Int := -2 ^ 31

def maxInt : Int := 2 ^ 31 - 1

/-- The conversion to a Boolean; `none` is an exception, here and below. -/
def asBool : JsonValue → Option Bool
  | null => some false
  | int value => some (value ≠ 0)
  | uint value => some (value ≠ 0)
  | real value _ => some (value ≠ 0)
  | bool value => some value
  | string _ | array _ | object _ => none

def asInt : JsonValue → Option Int
  | null => some 0
  | int value => if minInt ≤ value ∧ value ≤ maxInt then some value else none
  | uint value => if (value : Int) ≤ maxInt then some value else none
  | real value _ =>
    if (minInt : Rat) ≤ value ∧ value ≤ (maxInt : Rat) then some (value.num.tdiv value.den)
    else none
  | bool value => some value.toInt
  | string _ | array _ | object _ => none

def asString : JsonValue → Option (List UInt8)
  | null => some []
  | int value => some (ascii (toString value))
  | uint value => some (ascii (toString value))
  | real _ text => some text
  | string value => some value
  | bool value => some (ascii (toString value))
  | array _ | object _ => none

/-- `find`, which both `get` and `operator[]` for a key come to; the outer `none`
is an exception. -/
def find : JsonValue → List UInt8 → Option (Option JsonValue)
  | null, _ => some none
  | object members, key => some (members.lookup key)
  | _, _ => none

/-- `operator[]` for a key. -/
def member (value : JsonValue) (key : List UInt8) : Option JsonValue :=
  (value.find key).map fun found => found.getD null

/-- `get` for a key. -/
def get (value : JsonValue) (key : List UInt8) (defaultValue : JsonValue) : Option JsonValue :=
  (value.find key).map fun found => found.getD defaultValue

/-- What a loop over the value runs through. -/
def elements : JsonValue → List JsonValue
  | array elements => elements
  | object members => members.map Prod.snd
  | _ => []

end JsonValue

end Khorost
