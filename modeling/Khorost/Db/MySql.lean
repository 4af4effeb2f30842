import Khorost.Net.Response
import Khorost.Util.RawBuffer

namespace Khorost

def crServerGoneError : Nat := 2006

def crServerLost : Nat := 2013

/-- What the client library answers: an execution of the statement gives an error
code unless it succeeds, a `mysql_real_connect` a handle or none; the text of
`mysql_error` goes by how many of both there have been. -/
structure MySqlServer where
  statement : Nat → Option Nat
  realConnect : Nat → Bool
  error : Nat → Nat → List UInt8

/-- `khl_mysql`: whether there is a handle, and how often the statement has been
executed and a connection been asked for. -/
structure KhlMysql where
  handle : Bool
  statements : Nat
  connects : Nat

namespace KhlMysql

def close (m : KhlMysql) : KhlMysql := { m with handle := false }

def reconnect (server : MySqlServer) (m : KhlMysql) : Bool × KhlMysql :=
  let m := m.close
  let connected := server.realConnect m.connects
  (connected, { m with handle := connected, connects := m.connects + 1 })

/-- The loop from `m1` on, which `ExecuteSQL` and `Query::Execute` have in common:
the error code that it gives up with, if it does. `connection` is whether there is
an object to reconnect. `none` is a loop of more than `fuel` executions. -/
def tryStatement (server : MySqlServer) (connection : Bool) :
    Nat → Int → Bool → KhlMysql → Option (Option Nat × KhlMysql)
  | 0, _, _, _ => none
  | fuel + 1, iTry, reconnectEnable, m =>
    let result := server.statement m.statements
    let m := { m with statements := m.statements + 1 }
    match result with
    | none => some (none, m)
    | some errorCode =>
      let iTry := iTry - 1
      if iTry ≠ 0 ∧ (errorCode = crServerGoneError ∨ errorCode = crServerLost) then
        tryStatement server connection fuel iTry reconnectEnable m
      else if reconnectEnable = true ∧ connection = true then
        match reconnect server m with
        | (true, m) => tryStatement server connection fuel iTry false m
        | (false, m) => some (some errorCode, m)
      else some (some errorCode, m)

def executeSQL (server : MySqlServer) (fuel : Nat) (m : KhlMysql) : Option (Bool × KhlMysql) :=
  (tryStatement server true fuel 3 true m).map fun r => (r.1.isNone, r.2)

end KhlMysql

/-- `khl_mysql::Query`: whether `m_Connection` is there, and the text. -/
structure Query where
  connection : Bool
  abQuery : RawBuffer UInt8

abbrev apostrophe : UInt8 := 39

namespace Query

variable (realloc : Realloc UInt8)

/-- The constructor without a text. -/
def new (connection : Bool) : Query := ⟨connection, .empty⟩

def appendQuery (q : Query) (rsQuery : List UInt8) : Option Query :=
  (q.abQuery.append realloc rsQuery).map fun ab => { q with abQuery := ab }

/-- `replace` of the query's buffer; what it returns is not looked at. -/
def replaceTag (q : Query) (psTag target : List UInt8) : Option Query :=
  (q.abQuery.replace realloc psTag target true).map fun r => { q with abQuery := r.1 }

def expandValue (q : Query) (psTag rsValue : List UInt8) : Option Query :=
  q.replaceTag realloc psTag rsValue

def bindValue (q : Query) (psTag rsValue : List UInt8) : Option Query :=
  q.replaceTag realloc psTag (apostrophe :: rsValue ++ [apostrophe])

def bindValueBool (q : Query) (psTag : List UInt8) (bValue : Bool) : Option Query :=
  q.replaceTag realloc psTag (if bValue then ascii "1" else ascii "0")

/-- `BindValue` of a number. -/
def bindValueNumber (q : Query) (psTag : List UInt8) (nValue : UInt32) : Option Query :=
  q.replaceTag realloc psTag (decimalText nValue.toNat)

def bindValue64 (q : Query) (psTag : List UInt8) (nValue : UInt64) : Option Query :=
  q.replaceTag realloc psTag (decimalText nValue.toNat)

/-- `BindValueBLOB`. `escape` is what `mysql_real_escape_string` writes, in front
of a terminator. -/
def bindValueBLOB (escape : List UInt8 → List UInt8) (q : Query) (psTag abBLOB : List UInt8) :
    Option Query := do
  let escaped := escape abBLOB
  let abTemp := RawBuffer.empty.checkSize realloc (sizeAdd (sizeMul abBLOB.length 2) 3)
  let abTemp ← abTemp.memcpy 1 (escaped ++ [nul])
  let uiReplaceSize := escaped.length % 2 ^ 32
  let abTemp := abTemp.decrementFreeSize ((uiReplaceSize + 2) % 2 ^ 32)
  let abTemp ← abTemp.memcpy 0 [apostrophe]
  let abTemp ← abTemp.memcpy ((uiReplaceSize + 1) % 2 ^ 32) [apostrophe]
  q.replaceTag realloc psTag abTemp.content

/-- The terminator that `Execute` writes behind the text. -/
def terminate (q : Query) : Option Query :=
  (q.abQuery.memcpy q.abQuery.readyPosition [nul]).map fun ab => { q with abQuery := ab }

/-- What `Execute` throws. -/
def executeFailed (errorCode : Nat) (error : List UInt8) : List UInt8 :=
  ascii "Execute failed: " ++ decimalText errorCode ++ ascii " - \"" ++ error ++ ascii "\""

def execute (server : MySqlServer) (fuel : Nat) (m : KhlMysql) (q : Query) :
    Option (Except (List UInt8) Unit × KhlMysql) := do
  let q ← q.terminate
  let (failed, m) ← m.tryStatement server q.connection fuel 3 true
  match failed with
  | none => some (.ok (), m)
  | some errorCode =>
    some (.error (executeFailed errorCode (server.error m.statements m.connects)), m)

end Query

/-- The calls that build a query's text. -/
inductive QueryCall
  | appendQuery (rsQuery : List UInt8)
  | expandValue (psTag rsValue : List UInt8)
  | bindValue (psTag rsValue : List UInt8)
  | bindValueBool (psTag : List UInt8) (bValue : Bool)
  | bindValueNumber (psTag : List UInt8) (nValue : UInt32)
  | bindValue64 (psTag : List UInt8) (nValue : UInt64)

namespace Query

def perform (realloc : Realloc UInt8) (q : Query) : QueryCall → Option Query
  | .appendQuery rsQuery => q.appendQuery realloc rsQuery
  | .expandValue psTag rsValue => q.expandValue realloc psTag rsValue
  | .bindValue psTag rsValue => q.bindValue realloc psTag rsValue
  | .bindValueBool psTag bValue => q.bindValueBool realloc psTag bValue
  | .bindValueNumber psTag nValue => q.bindValueNumber realloc psTag nValue
  | .bindValue64 psTag nValue => q.bindValue64 realloc psTag nValue

def performAll (realloc : Realloc UInt8) (q : Query) : List QueryCall → Option Query
  | [] => some q
  | call :: calls => (q.perform realloc call).bind fun q => q.performAll realloc calls

end Query

end Khorost
