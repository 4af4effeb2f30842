import Khorost.Util.CString

namespace Khorost.LinkedPostgres

/-- `fmt::format("{:02x}", a)`. -/
def formatHex (a : UInt8) : List UInt8 :=
  let digit (n : UInt8) : UInt8 := if n < 10 then 48 + n else 87 + n
  [digit (a / 16), digit (a % 16)]

/-- `to_string` of a vector of bytes. -/
def toString (value : List UInt8) (suffix : Bool) : List UInt8 :=
  let result := value.flatMap formatHex
  if suffix then ascii "'\\x" ++ result ++ ascii "'::bytea" else ascii "\\x" ++ result

def ctoi (c : UInt8) : UInt8 :=
  if 48 ≤ c ∧ c ≤ 57 then c - 48
  else if 97 ≤ c ∧ c ≤ 102 then c - 97 + 10
  else if 65 ≤ c ∧ c ≤ 70 then c - 65 + 10
  else 0

/-- `size - 1` for a size of type `size_t`. -/
def sizePred (size : Nat) : Nat := if size = 0 then npos else size - 1

/-- The loop of `from_string` from `k` on. An exception leaves in `dst` what has
been pushed. -/
def fromStringLoop (src : List UInt8) (k : Nat) (dst : List UInt8) :
    EStateM.Result Unit (List UInt8) Unit :=
  if k < sizePred src.length then
    match src[k]?, _h : src[k + 1]? with
    | some c0, some c1 => fromStringLoop src (k + 2) (dst ++ [ctoi c0 * 16 + ctoi c1])
    | _, _ => .error () dst
  else .ok () dst
termination_by src.length - k
decreasing_by
  have := (List.getElem?_eq_some_iff.mp _h).1
  omega

/-- `from_string` into a vector of bytes. -/
def fromString (src dst : List UInt8) : EStateM.Result Unit (List UInt8) Unit :=
  fromStringLoop src 2 dst

/-- The statement of `load_token` in front of the quote. -/
def loadTokenHead (isAccessToken : Bool) : List UInt8 :=
  ascii "SELECT   replace(kt.access_token::text,'-','') ,   kt.access_time AT TIME ZONE 'UTC' ,   replace(kt.refresh_token::text,'-','') ,   kt.refresh_time AT TIME ZONE 'UTC',   kt.payload  FROM    admin.khl_tokens AS kt  WHERE kt." ++
    (if isAccessToken then ascii "access_token" else ascii "refresh_token") ++ ascii " = "

/-- The statement of `load_token`. -/
def loadTokenQuery (isAccessToken : Bool) (tokenId : List UInt8) : List UInt8 :=
  loadTokenHead isAccessToken ++ ascii "'" ++ tokenId ++ ascii "' "

end Khorost.LinkedPostgres
