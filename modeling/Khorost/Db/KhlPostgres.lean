import Khorost.Util.I18n

namespace Khorost

/-- What the database answers to a statement: the values in the rows, which may be
null; `none` is an exception. -/
abbrev Database := List UInt8 → Option (List (List (Option (List UInt8))))

namespace KhlPostgres

/-- The statement of `load_value_by_tag`. -/
def tagStatement (lang tag : List UInt8) : List UInt8 :=
  ascii "SELECT kt.content " ++
    ascii " FROM i18n.khl_translate AS kt " ++
    ascii "  INNER JOIN i18n.khl_code AS kc ON (kt.code_id = kc.id) " ++
    ascii "  INNER JOIN i18n.khl_language AS kl ON (kt.language_id = kl.id) " ++
    ascii " WHERE kc.tag = '" ++ tag ++ ascii "' AND kl.description = '" ++ lang ++ ascii "'"

/-- `load_value_by_tag`: the first value of the first row. -/
def loadValueByTag (db : Database) (lang tag : List UInt8) : Option (List UInt8) := do
  match ← db (tagStatement lang tag) with
  | [] => some []
  | row :: _ => some ((← row.head?).getD [])

def loadTag (db : Database) : AppendValue := fun lang tag s => do
  let value ← loadValueByTag db lang tag
  some (value, s.appendValue lang tag value)

end KhlPostgres

end Khorost
