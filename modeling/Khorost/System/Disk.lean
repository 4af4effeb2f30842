import Khorost.System.FastFile
import Mathlib.Logic.Function.Basic

namespace Khorost

/-- The sizes of the files; one that is not there has none. -/
structure Disk (φ : Type) where
  size : φ → Nat
  small : ∀ fd, size fd < 2 ^ 63

/-- `ftruncate`, which takes a size of 63 bits. -/
def Disk.truncate [DecidableEq φ] (disk : Disk φ) (fd : φ) (n : Nat) : Disk φ :=
  if h : n < 2 ^ 63 then
    { size := Function.update disk.size fd n
      small := by
        intro fd'
        by_cases hfd : fd' = fd
        · rw [hfd, Function.update_self]
          exact h
        · rw [Function.update_of_ne hfd]
          exact disk.small fd' }
  else disk

/-- How the system calls of one operation end: the `ftruncate` of `close_file`,
`open` with the file that it opens, `fstat` with the time, `ftruncate` and `mmap`,
with what is in the pages. -/
structure Calls (φ : Type) where
  closes : Bool
  file : Option φ
  time : Option Int
  truncates : Bool
  maps : Bool
  content : Nat → UInt8

/-- The system calls on a disk. -/
def Calls.unix (calls : Calls φ) (disk : Disk φ) : Unix φ where
  access _ := true
  open_ _ _ := calls.file
  fstat fd := calls.time.map fun time => ⟨disk.size fd, time⟩
  ftruncate _ n := calls.truncates && n < 2 ^ 63
  mmap _ n _ := if calls.maps ∧ n ≠ 0 then some ((List.range n).map calls.content) else none

theorem calls_documented (calls : Calls φ) (disk : Disk φ) : (calls.unix disk).Documented where
  empty _ _ := if_neg fun h => h.2 rfl
  length _ n _ bytes h := by
    dsimp only [Calls.unix] at h
    split at h
    · cases h
      rw [List.length_map, List.length_range]
    · cases h

/-- A `fastfile` and the disk. -/
structure OnDisk (φ : Type) where
  file : FastFile φ
  disk : Disk φ

/-- `open_file` for writing, and `set_length`. -/
inductive FileOperation
  | openFile (fileName : List UInt8) (fileSize : UInt64)
  | setLength (newSize : UInt64)

namespace OnDisk

variable [DecidableEq φ]

/-- A new object. -/
def new (pageSize granulate : UInt64) (disk : Disk φ) : OnDisk φ :=
  ⟨FastFile.new pageSize.toNat granulate.toNat, disk⟩

/-- What `close_file` leaves of the disk. -/
def closeDisk (calls : Calls φ) (s : OnDisk φ) : Disk φ :=
  match s.file.file with
  | some fd => if calls.closes then s.disk.truncate fd s.file.fileSize else s.disk
  | none => s.disk

def perform (calls : Calls φ) (s : OnDisk φ) : FileOperation → OnDisk φ
  | .openFile fileName fileSize =>
    let disk := s.closeDisk calls
    let (opened, file) := s.file.openFile (calls.unix disk) fileName fileSize.toNat false
    -- where it returns true, the file has got its size
    match opened, file.file with
    | true, some fd => ⟨file, disk.truncate fd file.overFileSize⟩
    | _, _ => ⟨file, disk⟩
  | .setLength newSize => ⟨s.file.setLength (calls.unix s.disk) newSize.toNat, s.disk⟩

/-- The states of a run, from its first one on. -/
def reached (s : OnDisk φ) : List (Calls φ × FileOperation) → List (OnDisk φ)
  | [] => [s]
  | (calls, op) :: run => s :: reached (s.perform calls op) run

end OnDisk

end Khorost
