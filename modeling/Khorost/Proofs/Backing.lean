import Khorost.System.Disk

namespace Khorost.OnDisk

/-- While the file is mapped, its data fit the mapping and the mapping fits the
file on the disk. -/
def Backed (s : OnDisk φ) : Prop :=
  ∀ bytes, s.file.memory = .mapped bytes → ∃ fd, s.file.file = some fd ∧
    s.file.fileSize ≤ s.file.overFileSize ∧ s.file.overFileSize ≤ s.disk.size fd ∧
    bytes.length = s.file.overFileSize

def rounded (granulate n : Nat) : Nat := (n / granulate + 1) * granulate

variable [DecidableEq φ]

/-- The sizes of an operation that are right: a size that is opened is rounded up
to a number of 64 bits, and the length stays in the mapping or at least, rounded
up, in the file. -/
def Fits (calls : Calls φ) (s : OnDisk φ) : FileOperation → Prop
  | .openFile _ fileSize => ∀ fd, calls.file = some fd →
    let size := (s.closeDisk calls).size fd
    rounded s.file.granulate (if size = 0 then fileSize.toNat else size) < 2 ^ 64
  | .setLength newSize => newSize.toNat ≤ s.file.overFileSize ∨
    ∃ fd, s.file.file = some fd ∧ rounded s.file.granulate newSize.toNat ≤ s.disk.size fd

/-- The operation fits, unless there is no mapping behind it. -/
def Allowed (calls : Calls φ) (s : OnDisk φ) (op : FileOperation) : Prop :=
  (∃ bytes, (s.perform calls op).file.memory = .mapped bytes) → s.Fits calls op

def StaysBacked (s : OnDisk φ) (run : List (Calls φ × FileOperation)) : Prop :=
  ∀ s' ∈ s.reached run, Backed s'

def AllAllowed (s : OnDisk φ) : List (Calls φ × FileOperation) → Prop
  | [] => True
  | (calls, op) :: run => s.Allowed calls op ∧ AllAllowed (s.perform calls op) run

theorem rounded_bounds (hg : 0 < g) (n : Nat) : n < rounded g n ∧ rounded g n ≤ n + g := by
  have hdiv := Nat.div_add_mod n g
  have hmod := Nat.mod_lt n hg
  have hprod : rounded g n = g * (n / g) + g := by rw [rounded, Nat.add_mul, Nat.one_mul, Nat.mul_comm]
  omega

/-- A size is below its rounding exactly if that does not overflow. -/
theorem le_rounded_iff (hg : 0 < g) (hg64 : g < 2 ^ 64) (hn : n < 2 ^ 64) :
    n ≤ sizeMul (n / g + 1) g ↔ rounded g n < 2 ^ 64 := by
  obtain ⟨hlow, hhigh⟩ := rounded_bounds hg n
  have hmul : sizeMul (n / g + 1) g = rounded g n % 2 ^ 64 := rfl
  rw [hmul]
  constructor
  · intro hle
    by_contra hover
    have hmod : rounded g n % 2 ^ 64 = rounded g n - 2 ^ 64 := by omega
    omega
  · intro hlt
    rw [Nat.mod_eq_of_lt hlt]
    exact Nat.le_of_lt hlow

theorem truncate_size (disk : Disk φ) (fd : φ) (hn : n < 2 ^ 63) :
    (disk.truncate fd n).size fd = n := by
  rw [Disk.truncate, dif_pos hn]
  exact Function.update_self ..

/-- A file that has been opened for writing and mapped. -/
structure Opened (disk : Disk φ) (granulate fileSize : Nat) (fd : φ) (bytes : List UInt8)
    (r : Bool × FastFile φ) : Prop where
  opened : r.1 = true
  file : r.2.file = some fd
  size : r.2.fileSize = if disk.size fd = 0 then fileSize else disk.size fd
  overSize : r.2.overFileSize = sizeMul (r.2.fileSize / granulate + 1) granulate
  small : r.2.overFileSize < 2 ^ 63
  length : bytes.length = r.2.overFileSize

omit [DecidableEq φ] in
theorem map_file_mapped {calls : Calls φ} {disk : Disk φ} {f : FastFile φ} (hwrite : f.onlyRead = false)
    (hnull : f.memory = .null) (hfile : f.file = some fd)
    (h : (f.mapFile (calls.unix disk) fd fileSize).2.memory = .mapped bytes) :
    Opened disk f.granulate fileSize fd bytes (f.mapFile (calls.unix disk) fd fileSize) := by
  unfold FastFile.mapFile at h ⊢
  cases htime : calls.time with
  | none =>
    have hstat : (calls.unix disk).fstat fd = none := congrArg (Option.map _) htime
    rw [hstat, hnull] at h
    cases h
  | some time =>
    have hstat : (calls.unix disk).fstat fd = some ⟨disk.size fd, time⟩ :=
      congrArg (Option.map _) htime
    rw [hstat] at h ⊢
    dsimp only at h ⊢
    rw [hwrite] at h ⊢
    simp only [Bool.false_eq_true, if_false, true_and] at h ⊢
    generalize hsize : (if disk.size fd = 0 then fileSize else disk.size fd) = size at h ⊢
    generalize hover : sizeMul (size / f.granulate + 1) f.granulate = overSize at h ⊢
    cases htruncate : (calls.unix disk).ftruncate fd overSize with
    | false =>
      rw [htruncate, if_pos rfl, hnull] at h
      cases h
    | true =>
      have hsmall : overSize < 2 ^ 63 := of_decide_eq_true (Bool.and_eq_true_iff.mp htruncate).2
      rw [htruncate, if_neg (by decide)] at h
      rw [if_neg (by decide)]
      cases hmap : (calls.unix disk).mmap fd overSize false with
      | none =>
        rw [hmap] at h
        cases h
      | some pages =>
        rw [hmap] at h
        cases h
        exact ⟨rfl, hfile, hsize.symm, hover.symm, hsmall,
          (calls_documented calls disk).length fd overSize false bytes hmap⟩

omit [DecidableEq φ] in
theorem open_file_mapped {calls : Calls φ} {disk : Disk φ} {f : FastFile φ}
    (h : (f.openFile (calls.unix disk) fileName fileSize false).2.memory = .mapped bytes) :
    ∃ fd, calls.file = some fd ∧
      Opened disk f.granulate fileSize fd bytes
        (f.openFile (calls.unix disk) fileName fileSize false) := by
  cases hfile : calls.file with
  | none =>
    have hopen : (calls.unix disk).open_ fileName false = none := hfile
    simp only [FastFile.openFile, hopen, Bool.false_eq_true, false_and, if_false] at h
    cases h
  | some fd =>
    have hopen : (calls.unix disk).open_ fileName false = some fd := hfile
    simp only [FastFile.openFile, hopen, Bool.false_eq_true, false_and, if_false] at h ⊢
    exact ⟨fd, rfl, map_file_mapped rfl rfl rfl h⟩

theorem perform_open {calls : Calls φ} {s : OnDisk φ} {fileSize : UInt64}
    (h : Opened (s.closeDisk calls) s.file.granulate fileSize.toNat fd bytes
      (s.file.openFile (calls.unix (s.closeDisk calls)) fileName fileSize.toNat false)) :
    s.perform calls (.openFile fileName fileSize) =
      let file := (s.file.openFile (calls.unix (s.closeDisk calls)) fileName fileSize.toNat false).2
      ⟨file, (s.closeDisk calls).truncate fd file.overFileSize⟩ := by
  generalize hresult : s.file.openFile (calls.unix (s.closeDisk calls)) fileName fileSize.toNat
    false = r at h
  obtain ⟨opened, file⟩ := r
  obtain rfl : opened = true := h.opened
  have hfile : file.file = some fd := h.file
  simp only [perform, hresult, hfile]

theorem perform_open_file (calls : Calls φ) (s : OnDisk φ) (fileName : List UInt8)
    (fileSize : UInt64) :
    (s.perform calls (.openFile fileName fileSize)).file =
      (s.file.openFile (calls.unix (s.closeDisk calls)) fileName fileSize.toNat false).2 := by
  generalize hresult : s.file.openFile (calls.unix (s.closeDisk calls)) fileName fileSize.toNat
    false = r
  obtain ⟨opened, file⟩ := r
  simp only [perform, hresult]
  split <;> rfl

/-- Where there is no mapping, there is nothing to be backed. -/
theorem unmapped_iff {calls : Calls φ} {s : OnDisk φ} {op : FileOperation}
    (h : ¬ ∃ bytes, (s.perform calls op).file.memory = .mapped bytes) :
    Backed (s.perform calls op) ↔ s.Allowed calls op :=
  iff_of_true (fun bytes hbytes => (h ⟨bytes, hbytes⟩).elim) fun hmapped => (h hmapped).elim

/-- An opened file is backed exactly if its size is rounded up to a number of 64 bits. -/
theorem open_backed_iff {s : OnDisk φ} (hg : 0 < s.file.granulate)
    (hg64 : s.file.granulate < 2 ^ 64) (calls : Calls φ) (fileName : List UInt8)
    (fileSize : UInt64) :
    Backed (s.perform calls (.openFile fileName fileSize)) ↔
      s.Allowed calls (.openFile fileName fileSize) := by
  have hfile := perform_open_file calls s fileName fileSize
  by_cases hmapped : ∃ bytes, (s.perform calls (.openFile fileName fileSize)).file.memory =
      .mapped bytes
  · obtain ⟨bytes, hbytes⟩ := hmapped
    obtain ⟨fd, hfd, hopened⟩ := open_file_mapped (hfile ▸ hbytes)
    have hperform := perform_open hopened
    have hsize := truncate_size (s.closeDisk calls) fd hopened.small
    have hfits : (s.perform calls (.openFile fileName fileSize)).file.fileSize ≤
        (s.perform calls (.openFile fileName fileSize)).file.overFileSize ↔
          s.Fits calls (.openFile fileName fileSize) := by
      have hsize64 : (if (s.closeDisk calls).size fd = 0 then fileSize.toNat
          else (s.closeDisk calls).size fd) < 2 ^ 64 := by
        have := (s.closeDisk calls).small fd
        have := fileSize.toNat_lt
        split <;> omega
      rw [hfile, hopened.overSize, hopened.size, le_rounded_iff hg hg64 hsize64]
      constructor
      · intro hlt fd' hfd'
        obtain rfl := Option.some.inj (hfd.symm.trans hfd')
        exact hlt
      · exact fun h => h fd hfd
    constructor
    · intro hbacked _
      obtain ⟨fd', -, hdata, -, -⟩ := hbacked bytes hbytes
      exact hfits.mp hdata
    · intro hallowed pages hpages
      obtain rfl : pages = bytes := Mapping.mapped.inj (hpages.symm.trans hbytes)
      refine ⟨fd, ?_, hfits.mpr (hallowed ⟨pages, hbytes⟩), ?_, ?_⟩
      · rw [hfile]
        exact hopened.file
      · rw [hperform]
        exact Nat.le_of_eq hsize.symm
      · rw [hfile]
        exact hopened.length
  · exact unmapped_iff hmapped

theorem stays_backed_iff {s : OnDisk φ} (hbacked : s.Backed) (calls : Calls φ) {newSize : UInt64}
    (hstays : newSize.toNat ≤ s.file.fileSize ∨ newSize.toNat ≤ s.file.overFileSize) :
    Backed (s.perform calls (.setLength newSize)) ↔ s.Allowed calls (.setLength newSize) := by
  have hperform : s.perform calls (.setLength newSize) =
      ⟨{ s.file with fileSize := newSize.toNat }, s.disk⟩ := by
    rw [perform, FastFile.setLength, if_pos hstays]
  rw [Allowed, hperform]
  have hin : ∀ bytes, s.file.memory = .mapped bytes → newSize.toNat ≤ s.file.overFileSize := by
    intro bytes hbytes
    obtain ⟨fd, -, hdata, -⟩ := hbacked bytes hbytes
    rcases hstays with hle | hle
    · exact Nat.le_trans hle hdata
    · exact hle
  refine iff_of_true (fun bytes hbytes => ?_) fun h => ?_
  · obtain ⟨fd, hfile, -, hdisk, hlength⟩ := hbacked bytes hbytes
    exact ⟨fd, hfile, hin bytes hbytes, hdisk, hlength⟩
  · obtain ⟨bytes, hbytes⟩ := h
    exact .inl (hin bytes hbytes)

theorem grown_mapped {s : OnDisk φ} {calls : Calls φ} {newSize : UInt64}
    (hgrows : ¬ (newSize.toNat ≤ s.file.fileSize ∨ newSize.toNat ≤ s.file.overFileSize))
    (h : (s.perform calls (.setLength newSize)).file.memory = .mapped bytes) :
    ∃ fd, s.file.file = some fd ∧
      bytes.length = sizeMul (newSize.toNat / s.file.granulate + 1) s.file.granulate ∧
      s.perform calls (.setLength newSize) =
        ⟨{ s.file with
            fileSize := newSize.toNat
            overFileSize := sizeMul (newSize.toNat / s.file.granulate + 1) s.file.granulate
            memory := .mapped bytes }, s.disk⟩ := by
  rw [perform, FastFile.setLength, if_neg hgrows] at h ⊢
  dsimp only at h ⊢
  cases hfile : s.file.file with
  | none =>
    rw [hfile] at h
    cases h
  | some fd =>
    rw [hfile, Option.bind_some] at h
    rw [Option.bind_some]
    cases hmap : (calls.unix s.disk).mmap fd
        (sizeMul (newSize.toNat / s.file.granulate + 1) s.file.granulate) s.file.onlyRead with
    | none =>
      rw [hmap] at h
      cases h
    | some pages =>
      rw [hmap] at h
      cases h
      exact ⟨fd, rfl, (calls_documented calls s.disk).length _ _ _ _ hmap, rfl⟩

/-- A length behind the mapping is backed exactly if it is rounded up to a size that
the file has. -/
theorem grows_backed_iff {s : OnDisk φ} (hg : 0 < s.file.granulate)
    (hg64 : s.file.granulate < 2 ^ 64) (calls : Calls φ) {newSize : UInt64}
    (hgrows : ¬ (newSize.toNat ≤ s.file.fileSize ∨ newSize.toNat ≤ s.file.overFileSize)) :
    Backed (s.perform calls (.setLength newSize)) ↔ s.Allowed calls (.setLength newSize) := by
  by_cases hmapped : ∃ bytes, (s.perform calls (.setLength newSize)).file.memory = .mapped bytes
  · obtain ⟨bytes, hbytes⟩ := hmapped
    obtain ⟨fd, hfile, hlength, hperform⟩ := grown_mapped hgrows hbytes
    have hround := le_rounded_iff hg hg64 newSize.toNat_lt
    have hsmall := s.disk.small fd
    have hmod : sizeMul (newSize.toNat / s.file.granulate + 1) s.file.granulate =
        rounded s.file.granulate newSize.toNat % 2 ^ 64 := rfl
    constructor
    · intro h _
      rw [hperform] at h
      obtain ⟨fd', hfile', hdata, hdisk, -⟩ := h bytes rfl
      obtain rfl := Option.some.inj (hfile.symm.trans hfile')
      rw [hmod, Nat.mod_eq_of_lt (hround.mp hdata)] at hdisk
      exact .inr ⟨fd, hfile, hdisk⟩
    · intro hallowed
      rcases hallowed ⟨bytes, hbytes⟩ with hle | ⟨fd', hfile', hle⟩
      · exact (hgrows (.inr hle)).elim
      · obtain rfl := Option.some.inj (hfile.symm.trans hfile')
        have hlt : rounded s.file.granulate newSize.toNat < 2 ^ 64 := by omega
        rw [hperform]
        intro pages hpages
        obtain rfl := Mapping.mapped.inj hpages
        refine ⟨fd, hfile, hround.mpr hlt, ?_, hlength⟩
        rw [hmod, Nat.mod_eq_of_lt hlt]
        exact hle
  · exact unmapped_iff hmapped

theorem perform_backed_iff {s : OnDisk φ} (hbacked : s.Backed) (hg : 0 < s.file.granulate)
    (hg64 : s.file.granulate < 2 ^ 64) (calls : Calls φ) (op : FileOperation) :
    Backed (s.perform calls op) ↔ s.Allowed calls op := by
  cases op with
  | openFile fileName fileSize => exact open_backed_iff hg hg64 calls fileName fileSize
  | setLength newSize =>
    by_cases hstays : newSize.toNat ≤ s.file.fileSize ∨ newSize.toNat ≤ s.file.overFileSize
    · exact stays_backed_iff hbacked calls hstays
    · exact grows_backed_iff hg hg64 calls hstays

omit [DecidableEq φ] in
theorem map_file_granulate (os : Unix φ) (f : FastFile φ) (fd : φ) (fileSize : Nat) :
    (f.mapFile os fd fileSize).2.granulate = f.granulate := by
  unfold FastFile.mapFile
  cases os.fstat fd with
  | none => rfl
  | some statv =>
    dsimp only
    repeat' split
    all_goals rfl

theorem perform_granulate (calls : Calls φ) (s : OnDisk φ) (op : FileOperation) :
    (s.perform calls op).file.granulate = s.file.granulate := by
  cases op with
  | openFile fileName fileSize =>
    rw [perform_open_file, FastFile.openFile]
    dsimp only
    rw [if_neg (fun h => Bool.false_ne_true h.1)]
    cases (calls.unix (s.closeDisk calls)).open_ fileName false with
    | none => rfl
    | some fd => exact map_file_granulate _ _ fd fileSize.toNat
  | setLength newSize =>
    rw [perform, FastFile.setLength]
    dsimp only
    split
    · rfl
    · split <;> rfl

theorem backed_run {s : OnDisk φ} (hbacked : s.Backed) (hg : 0 < s.file.granulate)
    (hg64 : s.file.granulate < 2 ^ 64) (run : List (Calls φ × FileOperation)) :
    s.StaysBacked run ↔ s.AllAllowed run := by
  induction run generalizing s with
  | nil => exact iff_of_true (fun s' h => List.mem_singleton.mp h ▸ hbacked) trivial
  | cons step run ih =>
    obtain ⟨calls, op⟩ := step
    have hgranulate := perform_granulate calls s op
    have hstep := perform_backed_iff hbacked hg hg64 calls op
    rw [StaysBacked, reached, List.forall_mem_cons, and_iff_right hbacked, AllAllowed]
    constructor
    · intro h
      have hfirst : Backed (s.perform calls op) := by
        refine h _ ?_
        cases run <;> exact List.mem_cons_self ..
      exact ⟨hstep.mp hfirst,
        (ih hfirst (hgranulate ▸ hg) (hgranulate ▸ hg64)).mp h⟩
    · rintro ⟨hallowed, hrest⟩
      exact (ih (hstep.mpr hallowed) (hgranulate ▸ hg) (hgranulate ▸ hg64)).mpr hrest

/-- A new object is backed through a run of `open_file` and `set_length` exactly if
each of them that leaves a mapping fits. -/
theorem run_backed_iff {pageSize : UInt64} (hpage : 0 < pageSize) (granulate : UInt64)
    (disk : Disk φ) (run : List (Calls φ × FileOperation)) :
    (new pageSize granulate disk).StaysBacked run ↔
      (new pageSize granulate disk).AllAllowed run := by
  have hgranulate : (new pageSize granulate disk).file.granulate =
      if granulate.toNat = 0 then pageSize.toNat else granulate.toNat := rfl
  refine backed_run (fun bytes h => by cases h) ?_ ?_ run
  · rw [hgranulate]
    have hpos : 0 < pageSize.toNat := UInt64.lt_iff_toNat_lt.mp hpage
    split <;> omega
  · rw [hgranulate]
    have := pageSize.toNat_lt
    have := granulate.toNat_lt
    split <;> assumption

def allSucceed : Calls Unit := ⟨true, some (), some 0, true, true, fun _ => 0⟩

def noFile : Disk Unit := ⟨fun _ => 0, fun _ => by decide⟩

theorem shrunk_backed : (new 4 0 noFile).StaysBacked
    [(allSucceed, .openFile (ascii "f") 5), (allSucceed, .setLength 7)] := by
  refine (run_backed_iff (by decide) 0 noFile _).mpr ⟨fun _ fd _ => ?_, fun _ => ?_, trivial⟩
  · cases fd
    decide
  · exact .inl (by decide)

/-- Ten bytes in a file of eight. -/
theorem grown_not_backed :
    ¬ ∀ (pageSize granulate : UInt64) (disk : Disk Unit) (run : List (Calls Unit × FileOperation)),
      0 < pageSize → (new pageSize granulate disk).StaysBacked run := by
  intro h
  have hbacked := h 4 0 noFile
    [(allSucceed, .openFile (ascii "f") 5), (allSucceed, .setLength 10)] (by decide) _
    (List.mem_of_getLast? rfl)
  obtain ⟨fd, -, -, hdisk, -⟩ := hbacked _ rfl
  cases fd
  revert hdisk
  decide

end Khorost.OnDisk
