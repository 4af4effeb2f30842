import Khorost.Lib.Maps
import Khorost.Util.StdString

namespace Khorost

structure Stomp where
  command : List UInt8
  headers : List UInt8 → Option (List UInt8)
  body : List UInt8

namespace Stomp

/-- A new object. -/
def new : Stomp := ⟨[], fun _ => none, []⟩

/-- Where a line ends whose line feed stands at `pos`; `none` where the character
in front of it is not there. -/
def lineEnd (message : List UInt8) (pos : Nat) : Option Nat :=
  if pos = 0 then none
  else if message[pos - 1]? = some cr then some (pos - 1)
  else some pos

/-- The loop of `parse` from `startPos` on. -/
def parseFrom (message : List UInt8) (startPos : Nat) (s : Stomp) :
    EStateM.Result StringFault Stomp Bool :=
  match message[startPos]? with
  | none => .ok true s
  | some c =>
    -- this holds of every character
    if c ≠ lf ∨ c ≠ cr then
      match substrFrom message (startPos + if c = cr then 2 else 1) with
      | some body => .ok true { s with body := body }
      | none => .error .outOfRange s
    else
      match _hcolon : findFirstOf message colon startPos with
      | none => .ok false s
      | some pos =>
        match substr message startPos (pos - startPos) with
        | none => .error .outOfRange s
        | some key =>
          match _hline : findFirstOf message lf (pos + 1) with
          | none => .ok false s
          | some stop =>
            match lineEnd message stop with
            | none => .error .undefined s
            | some endPos =>
              -- the second argument is a count, not a position
              match substr message (pos + 1) endPos with
              | none => .error .outOfRange s
              | some value =>
                parseFrom message (stop + 1) { s with headers := Maps.insert s.headers key value }
termination_by message.length - startPos
decreasing_by
  have := find_first_bounds _hcolon
  have := find_first_bounds _hline
  omega

def parse (message : List UInt8) (s : Stomp) : EStateM.Result StringFault Stomp Bool :=
  match findFirstOf message lf 0 with
  | none => .ok false s
  | some pos =>
    match lineEnd message pos with
    | none => .error .undefined s
    | some endPos =>
      match substr message 0 endPos with
      | none => .error .outOfRange s
      | some command => parseFrom message (pos + 1) { s with command := command }

end Stomp

end Khorost
