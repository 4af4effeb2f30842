import Khorost.Proofs.BodyPart

namespace Khorost

theorem clear_literal {text stops : List UInt8} (h : text.all (fun c => !stops.contains c) = true) :
    ∀ c ∈ text, c ∉ stops := by
  intro c hc hs
  have hclear := List.all_eq_true.mp h c hc
  rw [List.contains_iff_mem.mpr hs] at hclear
  cases hclear

/-- A header field as it is sent: the name does not begin with a space, and
neither part contains a separator that would end it. -/
structure Field where
  key : List UInt8
  value : List UInt8
  key_clear : ∀ c ∈ key, c ∉ [nul, cr, lf, colon]
  key_start : key.head? ≠ some space
  value_clear : ∀ c ∈ value, c ∉ [nul, cr, lf]

namespace Field

def text (f : Field) : List UInt8 := f.value.dropWhile (· = space)

theorem key_no_nul (f : Field) : nul ∉ f.key :=
  fun hc => f.key_clear _ hc (by simp)

def line (f : Field) : List UInt8 := f.key ++ colon :: (f.value ++ [cr, lf])

def IsLength (f : Field) : Prop := f.key = ascii "Content-Length"

instance (f : Field) : Decidable f.IsLength := inferInstanceAs (Decidable (_ = _))

end Field

/-- A well-formed request. A body comes with a `Content-Length` that says how
long it is. -/
structure Request where
  method : List UInt8
  uri : List UInt8
  query : Option (List UInt8)
  version : List UInt8
  fields : List Field
  body : List UInt8
  method_nonempty : method ≠ []
  method_clear : ∀ c ∈ method, c ∉ [nul, space]
  uri_nonempty : uri ≠ []
  uri_clear : ∀ c ∈ uri, c ∉ [nul, question, space]
  query_clear : ∀ q ∈ query, ∀ c ∈ q, c ∉ [nul, space]
  version_nonempty : version ≠ []
  version_clear : ∀ c ∈ version, c ∉ [nul, space, cr, lf]
  version_start : version.head? ≠ some question
  length_given : ∀ f ∈ fields, f.IsLength → Decimal f.text body.length
  body_absent : (∀ f ∈ fields, ¬ f.IsLength) → body = []
  body_lt : body.length < 2 ^ 31

namespace Request

/-- The header lines from one of them on, the blank line and the body. -/
def linesFrom (r : Request) (left : List Field) : List UInt8 :=
  left.flatMap Field.line ++ cr :: lf :: r.body

/-- Everything behind the space that follows the target. -/
def versionOn (r : Request) : List UInt8 := r.version ++ cr :: lf :: r.linesFrom r.fields

/-- Everything behind the URI: the query if there is one. Without a query the
space is the end of the URI. -/
def queryOn (r : Request) : List UInt8 :=
  match r.query with
  | none => r.versionOn
  | some q => question :: (q ++ space :: r.versionOn)

def uriOn (r : Request) : List UInt8 :=
  match r.query with
  | none => r.uri ++ space :: r.queryOn
  | some _ => r.uri ++ r.queryOn

def serialize (r : Request) : List UInt8 := r.method ++ space :: r.uriOn

/-- The header block: everything before the body. -/
def headerLength (r : Request) : Nat := r.serialize.length - r.body.length

end Request

/-- How far a parser has come with a request. A line feed is `pending` when the
carriage return in front of it was the last byte to arrive; it is then taken
for a part of the next name. Each field seen says whether that has happened. -/
inductive Todo
  | method
  | uri
  | query
  | version
  | lines (seen : List (Bool × Field)) (pending : Bool) (left : List Field)
  | body (seen : List (Bool × Field)) (got left : List UInt8)

def storedField (s : Bool × Field) : List UInt8 × List UInt8 :=
  (if s.1 then lf :: s.2.key else s.2.key, s.2.text)

namespace Request

def rest (r : Request) : Todo → List UInt8
  | .method => r.serialize
  | .uri => r.uriOn
  | .query => r.queryOn
  | .version => r.versionOn
  | .lines _ pending left => (if pending then [lf] else []) ++ r.linesFrom left
  | .body _ _ left => left

def lengthSeen (r : Request) (seen : List (Bool × Field)) : Nat :=
  if ∃ s ∈ seen, s.1 = false ∧ s.2.IsLength then r.body.length else npos

def view (r : Request) : Todo → View
  | .method => .cleared
  | .uri => { View.cleared with method := some r.method }
  | .query => { View.cleared with method := some r.method, uri := some r.uri }
  | .version => { View.cleared with
      method := some r.method
      uri := some r.uri
      params := queryContent r.query }
  | .lines seen _ _ => { View.cleared with
      method := some r.method
      uri := some r.uri
      version := some r.version
      params := queryContent r.query
      fields := seen.map storedField
      headerProcess := .processingNext
      contentLength := r.lengthSeen seen }
  | .body seen got _ => { View.cleared with
      method := some r.method
      uri := some r.uri
      version := some r.version
      params := queryContent r.query
      fields := seen.map storedField
      body := got
      headerProcess := .successful
      bodyProcess := .processingFirst
      contentLength := r.lengthSeen seen }

/-- The view of the finished request, but for what the parser no longer reads. -/
def readyView (r : Request) (seen : List (Bool × Field)) (params : List UInt8)
    (contentLength : Nat) : View where
  method := some r.method
  uri := some r.uri
  version := some r.version
  fields := seen.map storedField
  params := params
  pairs := paramsPairs (queryText r.query (seen.map storedField) r.body)
  body := r.body
  headerProcess := .successful
  bodyProcess := .successful
  contentLength := contentLength

/-- The fields seen are those of the request up to here, and the one that gives
the length is among them as it was sent. -/
def Seen (seen : List (Bool × Field)) (left fields : List Field) : Prop :=
  seen.map Prod.snd ++ left = fields ∧ ∀ s ∈ seen, s.1 = true → ¬ s.2.IsLength

/-- The line that a stray line feed would spoil is neither the blank line nor
the one with the length. -/
def Harmless (left : List Field) : Prop := ∃ f ∈ left.head?, ¬ f.IsLength

/-- The stages that occur. With the whole body taken the parser only goes on
waiting when the body is empty. -/
def At (r : Request) : Todo → Prop
  | .version => r.query ≠ none
  | .lines seen pending left => Seen seen left r.fields ∧ (pending = true → Harmless left)
  | .body seen got left =>
    Seen seen [] r.fields ∧ got ++ left = r.body ∧ (left = [] → r.body = [])
  | _ => True

/-- No line feed has been taken for a part of a name. -/
def Clean : Todo → Prop
  | .lines seen pending _ => pending = false ∧ ∀ s ∈ seen, s.1 = false
  | .body seen _ _ => ∀ s ∈ seen, s.1 = false
  | _ => True

end Request

end Khorost
