import Khorost.Net.SendFile
import Khorost.System.FastFile

namespace Khorost

variable {φ : Type} {os : Unix φ}

/-- What a caller takes from an `open_file` that returns true: the memory is
mapped for the whole length, and the length is the size of the file. -/
def MapsWhole (os : Unix φ) (r : Bool × FastFile φ) : Prop :=
  r.1 = true → ∃ bytes fd statv, r.2.memory = .mapped bytes ∧ r.2.fileSize ≤ bytes.length ∧
    r.2.file = some fd ∧ os.fstat fd = some statv ∧ r.2.fileSize = statv.size

namespace FastFile

theorem map_file_read (f : FastFile φ) (fd : φ) (fileSize : Nat) (hf : f.onlyRead = true)
    (hstat : os.fstat fd = some statv) :
    mapFile os f fd fileSize =
      let size := if statv.size = 0 then fileSize else statv.size
      (true, { f with
        update := statv.mtime
        fileSize := size
        overFileSize := size
        memory := (os.mmap fd size true).elim .failed .mapped }) := by
  simp only [mapFile, hstat, hf, if_true, Bool.true_eq_false, false_and, if_false]
  cases os.mmap fd (if statv.size = 0 then fileSize else statv.size) true <;> rfl

/-- A file that is open: it has been there, and its size is known. -/
structure Reaches (os : Unix φ) (fileName : List UInt8) (fd : φ) (statv : Stat) : Prop where
  access : os.access fileName = true
  opens : os.open_ fileName true = some fd
  stat : os.fstat fd = some statv

theorem open_file_reached (f : FastFile φ) (fileSize : Nat) (h : Reaches os fileName fd statv) :
    openFile os f fileName fileSize true =
      let size := if statv.size = 0 then fileSize else statv.size
      (true, { f with
        onlyRead := true
        file := some fd
        update := statv.mtime
        fileSize := size
        overFileSize := size
        memory := (os.mmap fd size true).elim .failed .mapped }) := by
  simp only [openFile, h.access, h.opens]
  rw [if_neg (by decide), map_file_read _ fd fileSize rfl h.stat]
  rfl

theorem open_file_reaches (f : FastFile φ) (fileSize : Nat)
    (h : (openFile os f fileName fileSize true).1 = true) :
    ∃ fd statv, Reaches os fileName fd statv := by
  unfold openFile at h
  split at h
  · cases h
  · next haccess =>
    have hthere : os.access fileName = true := by simpa using haccess
    cases hopen : os.open_ fileName true with
    | none =>
      rw [hopen] at h
      cases h
    | some fd =>
      rw [hopen] at h
      cases hstat : os.fstat fd with
      | none =>
        simp only [mapFile, hstat] at h
        cases h
      | some statv => exact ⟨fd, statv, hthere, hopen, hstat⟩

end FastFile

open FastFile

/-- The mapping is what its callers take it for exactly where the file either does
not open or is not empty and `mmap` succeeds with its size. -/
theorem open_file_maps_iff (hos : os.Documented) (f : FastFile φ) (fileName : List UInt8)
    (fileSize : Nat) :
    MapsWhole os (f.openFile os fileName fileSize true) ↔
      ∀ fd statv, Reaches os fileName fd statv →
        statv.size ≠ 0 ∧ (os.mmap fd statv.size true).isSome := by
  constructor
  · intro h fd statv hreach
    obtain ⟨bytes, fd', statv', hmemory, -, hfile, hstat, hsize⟩ :=
      h (by rw [open_file_reached f fileSize hreach])
    rw [open_file_reached f fileSize hreach] at hmemory hfile hsize
    obtain rfl : fd = fd' := Option.some.inj hfile
    obtain rfl : statv = statv' := Option.some.inj (hreach.stat.symm.trans hstat)
    have hmap : os.mmap fd statv.size true = some bytes := by
      dsimp only at hsize hmemory
      rw [hsize] at hmemory
      cases hm : os.mmap fd statv.size true with
      | none =>
        rw [hm] at hmemory
        cases hmemory
      | some bytes' =>
        rw [hm] at hmemory
        cases hmemory
        rfl
    refine ⟨fun hzero => ?_, by rw [hmap]; rfl⟩
    rw [hzero, hos.empty] at hmap
    cases hmap
  · intro h htrue
    obtain ⟨fd, statv, hreach⟩ := open_file_reaches f fileSize htrue
    obtain ⟨hne, hmap⟩ := h fd statv hreach
    obtain ⟨bytes, hbytes⟩ := Option.isSome_iff_exists.mp hmap
    rw [open_file_reached f fileSize hreach]
    dsimp only
    rw [if_neg hne, hbytes]
    exact ⟨bytes, fd, statv, rfl, Nat.le_of_eq (hos.length fd _ true bytes hbytes).symm, rfl,
      hreach.stat, rfl⟩

/-- A tree through the system calls; the descriptors are paths. There is no
mapping of a directory, nor one that is longer than the file. -/
def Tree.unix (t : Tree) : Unix (List (List UInt8)) where
  access name := ((t.lookup name).bind t.entry).isSome
  open_ name _ := (t.lookup name).bind fun path =>
    match t.entry path with
    | some (.file ..) | some (.directory ..) => some path
    | _ => none
  fstat path :=
    match t.entry path with
    | some (.file content timeUpdate) => some ⟨content.length, timeUpdate⟩
    | some (.directory size timeUpdate) => some ⟨size, timeUpdate⟩
    | _ => none
  ftruncate _ _ := false
  mmap path n _ :=
    match t.entry path with
    | some (.file content _) => if n ≠ 0 ∧ n ≤ content.length then some (content.take n) else none
    | _ => none

theorem tree_documented (t : Tree) : t.unix.Documented where
  empty path onlyRead := by
    simp only [Tree.unix]
    split
    · exact if_neg (fun h => h.1 rfl)
    · rfl
  length path n onlyRead bytes h := by
    simp only [Tree.unix] at h
    split at h
    · split at h
      · next hn =>
        cases h
        exact List.length_take_of_le hn.2
      · cases h
    · cases h

def FastFile.seen (r : Bool × FastFile φ) : Option OpenFile :=
  if r.1 then
    some ⟨match r.2.memory with
      | .mapped bytes => some bytes
      | _ => none, r.2.fileSize, r.2.update⟩
  else none

/-- `send_file` opens the same file, with the same memory behind it. -/
theorem open_file_tree (t : Tree) (f : FastFile (List (List UInt8))) (name : List UInt8)
    (fileSize : Nat) :
    Khorost.openFile t name fileSize = seen (f.openFile t.unix name fileSize true) := by
  have haccess : t.unix.access name = ((t.lookup name).bind t.entry).isSome := rfl
  cases hlookup : t.lookup name with
  | none =>
    have hno : t.unix.access name = false := by rw [haccess, hlookup]; rfl
    simp [Khorost.openFile, FastFile.openFile, hlookup, hno, seen]
  | some path =>
    cases hentry : t.entry path with
    | none =>
      have hno : t.unix.access name = false := by
        rw [haccess, hlookup, Option.bind_some, hentry]; rfl
      simp [Khorost.openFile, FastFile.openFile, hlookup, hentry, hno, seen]
    | some e =>
      have hyes : t.unix.access name = true := by
        rw [haccess, hlookup, Option.bind_some, hentry]; rfl
      cases e with
      | link target =>
        have hopen : t.unix.open_ name true = none := by simp [Tree.unix, hlookup, hentry]
        simp [Khorost.openFile, FastFile.openFile, hlookup, hentry, hyes, hopen, seen]
      | directory size timeUpdate =>
        have hreach : Reaches t.unix name path ⟨size, timeUpdate⟩ :=
          ⟨hyes, by simp [Tree.unix, hlookup, hentry], by simp [Tree.unix, hentry]⟩
        have hmap : ∀ n, t.unix.mmap path n true = none := by
          intro n
          simp [Tree.unix, hentry]
        rw [open_file_reached f fileSize hreach]
        simp [Khorost.openFile, hlookup, hentry, hmap, seen]
      | file content timeUpdate =>
        have hreach : Reaches t.unix name path ⟨content.length, timeUpdate⟩ :=
          ⟨hyes, by simp [Tree.unix, hlookup, hentry], by simp [Tree.unix, hentry]⟩
        have hmap : ∀ n, t.unix.mmap path n true =
            if n ≠ 0 ∧ n ≤ content.length then some (content.take n) else none := by
          intro n
          simp [Tree.unix, hentry]
        rw [open_file_reached f fileSize hreach]
        by_cases hnil : content = []
        · by_cases hsize : fileSize = 0
          · simp [Khorost.openFile, hlookup, hentry, hmap, hnil, hsize, seen]
          · simp [Khorost.openFile, hlookup, hentry, hmap, hnil, hsize, seen]
        · simp [Khorost.openFile, hlookup, hentry, hmap, hnil, seen]

theorem root_named : ∀ name ∈ ([] : List (List UInt8)), IsName name := by
  intro name h
  cases h

/-- A directory with an empty file and one of three bytes. -/
def twoFiles : Tree where
  entry path :=
    if path = [ascii "empty"] then some (.file [] 7)
    else if path = [ascii "three"] then some (.file [1, 2, 3] 8)
    else none
  cwd := []
  named path e h := by
    split at h
    · next hp =>
      subst hp
      decide
    · split at h
      · next hp =>
        subst hp
        decide
      · cases h
  cwd_named := root_named

theorem three_bytes_mapped :
    MapsWhole twoFiles.unix
      ((FastFile.new 4096 0).openFile twoFiles.unix (ascii "/three") npos true) := by
  refine (open_file_maps_iff (tree_documented twoFiles) (FastFile.new 4096 0) (ascii "/three")
    npos).mpr fun fd statv h => ?_
  have hopen : twoFiles.unix.open_ (ascii "/three") true = some [ascii "three"] := by
    decide +kernel
  obtain rfl := Option.some.inj (hopen.symm.trans h.opens)
  have hstat : twoFiles.unix.fstat [ascii "three"] = some ⟨3, 8⟩ := rfl
  obtain rfl := Option.some.inj (hstat.symm.trans h.stat)
  exact ⟨by decide, rfl⟩

/-- An empty file is given a length of `2 ^ 64 - 1` or of 0, and no memory. -/
theorem empty_file_not_mapped :
    ¬ ∀ (os : Unix (List (List UInt8))), os.Documented → ∀ f fileName,
      MapsWhole os (FastFile.openFile os f fileName npos true) ∧
        MapsWhole os (FastFile.openFile os f fileName 0 true) := by
  intro h
  have hm := (h twoFiles.unix (tree_documented twoFiles) (FastFile.new 4096 0)
    (ascii "/empty")).1
  obtain ⟨bytes, -, -, hmemory, -⟩ := hm (by decide +kernel)
  have hfailed : ((FastFile.new 4096 0).openFile twoFiles.unix (ascii "/empty") npos
      true).2.memory = .failed := by decide +kernel
  rw [hfailed] at hmemory
  cases hmemory

end Khorost
