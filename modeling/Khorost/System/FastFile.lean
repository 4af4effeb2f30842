import Khorost.Util.RawBuffer

namespace Khorost

/-- `struct stat`, the two fields that are read. -/
structure Stat where
  size : Nat
  mtime : Int

/-- What the system calls answer; `φ` are the file descriptors. An `mmap` that
fails is `none`, which is `MAP_FAILED`, not a null pointer. -/
structure Unix (φ : Type) where
  access : List UInt8 → Bool
  open_ : List UInt8 → Bool → Option φ
  fstat : φ → Option Stat
  ftruncate : φ → Nat → Bool
  mmap : φ → Nat → Bool → Option (List UInt8)

/-- What is known of `mmap`: it refuses a length of 0 and maps the length asked for. -/
structure Unix.Documented (os : Unix φ) : Prop where
  empty : ∀ fd onlyRead, os.mmap fd 0 onlyRead = none
  length : ∀ fd n onlyRead bytes, os.mmap fd n onlyRead = some bytes → bytes.length = n

/-- `m_memory_`. -/
inductive Mapping
  | null
  | failed
  | mapped (bytes : List UInt8)
deriving DecidableEq

structure FastFile (φ : Type) where
  granulate : Nat
  fileSize : Nat
  overFileSize : Nat
  file : Option φ
  memory : Mapping
  onlyRead : Bool
  update : Int

namespace FastFile

/-- The constructor, with the page size for a granularity of 0. -/
def new (pageSize granulate : Nat) : FastFile φ :=
  ⟨if granulate = 0 then pageSize else granulate, 0, 0, none, .null, false, 0⟩

/-- What `close_file` leaves of the fields. -/
def closeFile (f : FastFile φ) : FastFile φ := { f with memory := .null, file := none }

/-- `open_file` from `fstat` on. -/
def mapFile (os : Unix φ) (f : FastFile φ) (fd : φ) (fileSize : Nat) : Bool × FastFile φ :=
  match os.fstat fd with
  | none => (false, f)
  | some statv =>
    let size := if statv.size = 0 then fileSize else statv.size
    let f := { f with update := statv.mtime, fileSize := size }
    let overSize := if f.onlyRead then size else sizeMul (size / f.granulate + 1) f.granulate
    let f := { f with overFileSize := overSize }
    if f.onlyRead = false ∧ os.ftruncate fd overSize = false then (false, f)
    else
      match os.mmap fd overSize f.onlyRead with
      | some bytes => (true, { f with memory := .mapped bytes })
      -- `MAP_FAILED` is not a null pointer either
      | none => (true, { f with memory := .failed })

/-- `open_file`, on UNIX. -/
def openFile (os : Unix φ) (f : FastFile φ) (fileName : List UInt8) (fileSize : Nat)
    (onlyRead : Bool) : Bool × FastFile φ :=
  let f := { f.closeFile with onlyRead := onlyRead }
  if onlyRead = true ∧ os.access fileName = false then (false, f)
  else
    match os.open_ fileName onlyRead with
    | none => (false, f)
    | some fd => mapFile os { f with file := some fd } fd fileSize

/-- `set_length`, on UNIX. -/
def setLength (os : Unix φ) (f : FastFile φ) (newSize : Nat) : FastFile φ :=
  if newSize ≤ f.fileSize ∨ newSize ≤ f.overFileSize then { f with fileSize := newSize }
  else
    let overSize := sizeMul (newSize / f.granulate + 1) f.granulate
    -- the file is not made longer first
    match f.file.bind fun fd => os.mmap fd overSize f.onlyRead with
    | some bytes =>
      { f with fileSize := newSize, overFileSize := overSize, memory := .mapped bytes }
    | none => { f with fileSize := newSize, overFileSize := overSize, memory := .failed }

end FastFile

end Khorost
