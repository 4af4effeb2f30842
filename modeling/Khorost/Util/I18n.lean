import Khorost.Lib.Table
import Khorost.Util.CString

namespace Khorost

structure Dictionary where
  lang : List UInt8
  map : Table (List UInt8) (List UInt8)

namespace Dictionary

def clear (d : Dictionary) : Dictionary := { d with map := ∅ }

def appendValue (tag value : List UInt8) (d : Dictionary) : Dictionary :=
  { d with map := Table.insertNew tag value d.map }

end Dictionary

/-- `internalization`. A `dictionary_ptr` is the position of a dictionary among all
that have been made; one that the library has lost lives on with those who hold it. -/
structure Internalization where
  made : List Dictionary
  library : Table (List UInt8) Nat

/-- `func_append_value`, with the library as it leaves it; `none` is an exception. -/
abbrev AppendValue :=
  List UInt8 → List UInt8 → Internalization → Option (List UInt8 × Internalization)

namespace Internalization

def empty : Internalization := ⟨[], ∅⟩

def clear (s : Internalization) : Internalization := { s with library := ∅ }

/-- `append_dictionary`. A dictionary that the library has stays there. -/
def appendDictionary (lang : List UInt8) (s : Internalization) : Nat × Internalization :=
  (s.made.length, ⟨s.made ++ [⟨lang, ∅⟩], Table.insertNew lang s.made.length s.library⟩)

def getDictionary (lang : List UInt8) (s : Internalization) : Nat × Internalization :=
  match s.library.lookup lang with
  | some p => (p, s)
  | none => s.appendDictionary lang

/-- A call on the dictionary that `p` points to. -/
def update (p : Nat) (f : Dictionary → Dictionary) (s : Internalization) : Internalization :=
  { s with made := s.made.modify p f }

def appendValue (lang tag value : List UInt8) (s : Internalization) : Internalization :=
  let (p, s) := s.getDictionary lang
  s.update p (·.appendValue tag value)

/-- `dictionary::get_value` with a function for what is not found. -/
def getLoaded (load : AppendValue) (p : Nat) (tag : List UInt8) (s : Internalization) :
    Option (List UInt8 × Internalization) := do
  let d ← s.made[p]?
  match d.map.lookup tag with
  | some value => some (value, s)
  | none => load d.lang tag s

/-- `dictionary::get_value` without one. -/
def getHeld (p : Nat) (tag : List UInt8) (s : Internalization) : List UInt8 :=
  ((s.made[p]?).bind (·.map.lookup tag)).getD []

def getValue (lang tag : List UInt8) (s : Internalization) : List UInt8 × Internalization :=
  let (p, s) := s.getDictionary lang
  (s.getHeld p tag, s)

end Internalization

end Khorost
