import Khorost.Lib.Paths
import Khorost.Net.Response

namespace Khorost

abbrev dot : UInt8 := 46
abbrev slash : UInt8 := 47
abbrev backslash : UInt8 := 92

/-- What a directory has under a name. -/
inductive Entry
  | file (content : List UInt8) (timeUpdate : Int)
  | directory (size : Nat) (timeUpdate : Int)
  | link (target : List UInt8)

def Entry.isDirectory : Entry → Bool
  | .directory .. => true
  | _ => false

/-- A name that an entry can have. -/
structure IsName (name : List UInt8) : Prop where
  nonempty : name ≠ []
  no_slash : slash ∉ name
  no_nul : nul ∉ name
  not_dot : name ≠ [dot]
  not_dots : name ≠ [dot, dot]

instance (name : List UInt8) : Decidable (IsName name) :=
  decidable_of_iff
    (name ≠ [] ∧ slash ∉ name ∧ nul ∉ name ∧ name ≠ [dot] ∧ name ≠ [dot, dot])
    ⟨fun ⟨h₁, h₂, h₃, h₄, h₅⟩ => ⟨h₁, h₂, h₃, h₄, h₅⟩,
      fun ⟨h₁, h₂, h₃, h₄, h₅⟩ => ⟨h₁, h₂, h₃, h₄, h₅⟩⟩

/-- A directory tree: the entries by the names that lead to them from `/`, and
the working directory. -/
structure Tree where
  entry : List (List UInt8) → Option Entry
  cwd : List (List UInt8)
  named : ∀ path e, entry path = some e → ∀ name ∈ path, IsName name
  cwd_named : ∀ name ∈ cwd, IsName name

/-- The text of a path without `.`, `..` and symbolic links. -/
def pathText (path : List (List UInt8)) : List UInt8 :=
  if path = [] then [slash] else Paths.text slash path

/-- `PATH_MAX`, which counts the terminator. -/
def maxPath : Nat := 4096

/-- How far the names of a path lead without following a symbolic link. -/
inductive Walk
  | arrived (path : List (List UInt8))
  | link (path todo : List (List UInt8))
  | fails

namespace Tree

def isDirectory (t : Tree) (path : List (List UInt8)) : Bool :=
  path = [] || (t.entry path).any (·.isDirectory)

/-- One name after the other, from `path` on. An empty name is that of two
separators in a row. -/
def walk (t : Tree) : List (List UInt8) → List (List UInt8) → Walk
  | path, [] => .arrived path
  | path, name :: todo =>
    if t.isDirectory path = false then .fails
    else if name = [] ∨ name = [dot] then t.walk path todo
    else if name = [dot, dot] then t.walk path.dropLast todo
    else
      match t.entry (path ++ [name]) with
      | none => .fails
      | some (.link target) =>
        let todo := (cStr target).splitOn slash ++ todo
        if target.head? = some slash then .link [] todo else .link path todo
      | some _ => t.walk (path ++ [name]) todo

/-- The same with at most the given number of symbolic links. -/
def resolve (t : Tree) : Nat → List (List UInt8) → List (List UInt8) →
    Option (List (List UInt8))
  | links, path, todo =>
    match t.walk path todo with
    | .arrived path => some path
    | .fails => none
    | .link path todo =>
      match links with
      | 0 => none
      | links + 1 => t.resolve links path todo

/-- The entry that a C string leads to. -/
def lookup (t : Tree) (name : List UInt8) : Option (List (List UInt8)) :=
  if name = [] ∨ maxPath ≤ name.length then none
  else t.resolve 40 (if name.head? = some slash then [] else t.cwd) (name.splitOn slash)

def realpath (t : Tree) (name : List UInt8) : Option (List UInt8) := do
  let path ← t.lookup name
  if (pathText path).length < maxPath then some (pathText path) else none

/-- `stat(..) != -1 && S_ISDIR(..)`. -/
def isDir (t : Tree) (name : List UInt8) : Bool := (t.lookup name).any t.isDirectory

end Tree

/-- An open `fastfile`; its memory is `none` where the mapping has failed, with a
pointer that is not null. -/
structure OpenFile where
  memory : Option (List UInt8)
  length : Nat
  timeUpdate : Int

/-- `fastfile::open_file` for reading, with a size for an empty file. -/
def openFile (t : Tree) (name : List UInt8) (fileSize : Nat) : Option OpenFile := do
  let path ← t.lookup name
  match ← t.entry path with
  | .file content timeUpdate =>
    if content.length = 0 then some ⟨none, fileSize, timeUpdate⟩
    else some ⟨some content, content.length, timeUpdate⟩
  | .directory size timeUpdate => some ⟨none, if size = 0 then fileSize else size, timeUpdate⟩
  | .link _ => none

/-- The loop over the end of a path, which is given in reverse. -/
def extensionBack : List UInt8 → List UInt8 → Option (List UInt8)
  | [], _ => none
  | c :: back, extension =>
    if c = dot then some extension
    else if c = backslash ∨ c = slash then none
    else extensionBack back (c :: extension)

/-- What stands behind the last dot of a path; its first byte is not looked at. -/
def extensionOf (path : List UInt8) : Option (List UInt8) := extensionBack (path.drop 1).reverse []

/-- `s_sect`: an extension with its content type and codepage. -/
def sections : List (List UInt8 × List UInt8 × List UInt8) :=
  [(ascii "js", ascii "application/javascript", ascii "UTF-8"),
    (ascii "html", ascii "text/html", ascii "UTF-8"),
    (ascii "htm", ascii "text/html", ascii "UTF-8"),
    (ascii "css", ascii "text/css", ascii "UTF-8"),
    (ascii "gif", ascii "image/gif", []),
    (ascii "jpg", ascii "image/jpeg", []),
    (ascii "jpeg", ascii "image/jpeg", []),
    (ascii "png", ascii "image/png", [])]

/-- The name that is asked for. There is no last byte in an empty one. -/
def requestedName (t : Tree) (queryUri docRoot fileName : List UInt8) : Option (List UInt8) := do
  let name := docRoot ++ (if fileName = [] then queryUri else fileName)
  let last ← name.getLast?
  if last = slash then some (name ++ ascii "index.html")
  else if t.isDir (cStr name) then some (name ++ [slash] ++ ascii "index.html")
  else some name

/-- The path that is opened for a name, unless the request is refused. -/
def canonicFileName (t : Tree) (docRoot name : List UInt8) : Option (List UInt8) :=
  if maxPath ≤ name.length then none
  else do
    let canonic ← t.realpath (cStr name)
    if canonic.take docRoot.length ≠ docRoot then none else some canonic

/-- What `send_file` hands to `send_data` and returns. -/
structure SentFile where
  sent : SentResponse
  data : List (List UInt8)
  result : Bool

namespace HttpProcessor

def notFound (p : HttpProcessor) (now : Int) : Option SentFile := do
  let body := ascii "File not found"
  let sent ← (p.setResponseStatus 404 (ascii "Not found")).sendResponse now (some body) body.length
  some ⟨sent, [], false⟩

/-- `set_content_type` for the extension, if it is one of the table. -/
def setSection (p : HttpProcessor) (path : List UInt8) : HttpProcessor :=
  match (extensionOf path).bind (fun ext => sections.find? (·.1 = ext)) with
  | some (_, contentType, codepage) =>
    { p with response := { p.response with
      contentType := contentType
      contentTypeCodepage := codepage } }
  | none => p

/-- `send_file`. `tm` is what `timegm` makes of a `tm` that nothing has been
written to. -/
def sendFile (p : HttpProcessor) (t : Tree) (now tm : Int) (queryUri docRoot fileName : List UInt8) :
    Option SentFile := do
  let name ← requestedName t queryUri docRoot fileName
  match canonicFileName t docRoot name with
  | none => p.notFound now
  | some canonic =>
    match openFile t canonic npos with
    | none => p.notFound now
    | some ff =>
      if (p.header.getHeaderParameter (ascii "If-Modified-Since") none).isSome ∧
          ff.timeUpdate ≤ tm then do
        let sent ← (p.setResponseStatus 304 (ascii "Not Modified")).sendResponse now none 0
        some ⟨sent, [], true⟩
      else do
        let p := p.setSection canonic
        let p := { p with response := { p.response with lastModify := some ff.timeUpdate } }
        let sent ← p.sendResponse now none ff.length
        if ← sent.processor.isSendData then do
          let memory ← ff.memory
          some ⟨sent, [memory.take ff.length], true⟩
        else some ⟨sent, [], true⟩

end HttpProcessor

end Khorost
