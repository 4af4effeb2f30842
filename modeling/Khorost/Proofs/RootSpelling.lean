import Khorost.Proofs.Modified

namespace Khorost

/-- Where a text leads that may be longer than what the system takes. -/
def Tree.leads (t : Tree) (name : List UInt8) : Option (List (List UInt8)) :=
  t.resolve 40 (if name.head? = some slash then [] else t.cwd) (name.splitOn slash)

theorem Tree.lookup_eq (t : Tree) (name : List UInt8) : t.lookup name =
    if name = [] ∨ maxPath ≤ name.length then none else t.leads name := rfl

theorem Tree.lookup_leads {t : Tree} (h : t.lookup name = some path) :
    name ≠ [] ∧ t.leads name = some path := by
  rw [Tree.lookup_eq] at h
  split at h
  · cases h
  · rename_i hname
    exact ⟨fun he => hname (.inl he), h⟩

theorem Tree.leads_slash {t : Tree} (h : t.leads (name ++ [slash]) = some path) :
    t.isDirectory path = true := by
  have hsplit : (name ++ [slash]).splitOn slash = name.splitOn slash ++ [[]] :=
    List.splitOn_append_cons_self name []
  rw [Tree.leads, hsplit] at h
  exact (Tree.resolve_slash h).2

/-- Names behind the spelling of a directory lead to where they lead from the
directory, in whatever way it is spelled. -/
theorem Tree.leads_behind {t : Tree} (hroot : t.leads docRoot = some root) (hne : docRoot ≠ [])
    (hwalk : t.walk root (names.splitOn slash) = .arrived path) :
    t.leads (docRoot ++ slash :: names) = some path := by
  rw [Tree.leads, List.splitOn_append_cons_self, List.head?_append_of_ne_nil docRoot hne]
  exact Tree.resolve_append hroot hwalk

/-- A request for a regular file below a document root that names a directory. -/
structure FileRequest where
  t : Tree
  p : HttpProcessor
  queryUri : List UInt8
  docRoot : List UInt8
  fileName : List UInt8
  root : List (List UInt8)
  below : List (List UInt8)
  content : List UInt8
  timeUpdate : Int
  version : p.header.getQueryVersion.isSome
  method : p.header.getQueryMethod.isSome
  status : p.response.code = 200
  root_named : t.lookup docRoot = some root
  is_below : below ≠ []
  is_file : t.entry (root ++ below) = some (.file content timeUpdate)
  no_nul : nul ∉ docRoot ++ (if fileName = [] then queryUri else fileName)
  asks : t.leads (docRoot ++ (if fileName = [] then queryUri else fileName)) = some (root ++ below)

namespace FileRequest

variable {r : FileRequest} {now tm : Int}

def asked (r : FileRequest) : List UInt8 :=
  r.docRoot ++ (if r.fileName = [] then r.queryUri else r.fileName)

def path (r : FileRequest) : List (List UInt8) := r.root ++ r.below

/-- The request has a time that is taken for one not before that of the file. -/
def Unmodified (r : FileRequest) (tm : Int) : Prop :=
  (r.p.header.getHeaderParameter (ascii "If-Modified-Since") none).isSome ∧ r.timeUpdate ≤ tm

/-- The file is sent, or its head alone if only that has been asked for. -/
structure Sends (r : FileRequest) (file : SentFile) : Prop where
  status : file.HasStatus 200
  content : (file.sent.body ++ file.data).flatten =
    if r.p.isSendData = some true then r.content else []

instance : Decidable (r.Unmodified tm) := inferInstanceAs (Decidable (_ ∧ _))

/-- The request is answered with the file, or with the news that it is the same. -/
def Serves (r : FileRequest) (now tm : Int) : Prop :=
  ∃ file, r.p.sendFile r.t now tm r.queryUri r.docRoot r.fileName = some file ∧
    if r.Unmodified tm then file.NotModified else r.Sends file

/-- The path of the file begins with the root as it is configured, and there is
room for it and for what is asked for. -/
structure Reaches (r : FileRequest) : Prop where
  asked_short : r.asked.length < maxPath
  path_short : (pathText r.path).length < maxPath
  root_spelled : r.docRoot <+: pathText r.path

theorem doc_root_ne (r : FileRequest) : r.docRoot ≠ [] := (Tree.lookup_leads r.root_named).1

theorem asked_ne (r : FileRequest) : r.asked ≠ [] := List.append_ne_nil_of_left_ne_nil r.doc_root_ne _

theorem path_ne (r : FileRequest) : r.path ≠ [] := List.append_ne_nil_of_right_ne_nil _ r.is_below

theorem not_directory (r : FileRequest) : r.t.isDirectory r.path = false := by
  have hfile : r.t.entry r.path = some (.file r.content r.timeUpdate) := r.is_file
  rw [Tree.isDirectory, hfile]
  simp [r.path_ne, Entry.isDirectory]

theorem lookup_asked (r : FileRequest) : r.t.lookup r.asked =
    if r.asked.length < maxPath then some r.path else none := by
  have hleads : r.t.leads r.asked = some r.path := r.asks
  rw [Tree.lookup_eq, hleads]
  split
  · rename_i h
    rw [if_neg (by have := h.resolve_left r.asked_ne; omega)]
  · rename_i h
    rw [if_pos (by have := (not_or.mp h).2; omega)]

theorem c_str_asked (r : FileRequest) : cStr r.asked = r.asked :=
  List.takeWhile_eq_self_iff.mpr fun _ hc => decide_eq_true fun he => r.no_nul (he ▸ hc)

/-- The name is taken as it is asked for: it is not that of a directory. -/
theorem requested_name (r : FileRequest) :
    requestedName r.t r.queryUri r.docRoot r.fileName = some r.asked := by
  have hfile := r.not_directory
  have hlast : r.asked.getLast r.asked_ne ≠ slash := by
    intro hslash
    have hasked := List.dropLast_append_getLast r.asked_ne
    rw [hslash] at hasked
    have hleads : r.t.leads (r.asked.dropLast ++ [slash]) = some r.path := by
      rw [hasked]
      exact r.asks
    rw [Tree.leads_slash hleads] at hfile
    cases hfile
  have hdir : r.t.isDir (cStr r.asked) = false := by
    rw [c_str_asked, Tree.isDir, lookup_asked]
    split
    · exact hfile
    · rfl
  have hname : requestedName r.t r.queryUri r.docRoot r.fileName = r.asked.getLast?.bind fun last =>
      if last = slash then some (r.asked ++ ascii "index.html")
      else if r.t.isDir (cStr r.asked) then some (r.asked ++ [slash] ++ ascii "index.html")
      else some r.asked := rfl
  rw [hname, List.getLast?_eq_some_getLast r.asked_ne, Option.bind_some, if_neg hlast, hdir]
  rfl

theorem canonic_file_name (r : FileRequest) :
    canonicFileName r.t r.docRoot r.asked = some canonic ↔
      r.Reaches ∧ canonic = pathText r.path := by
  rw [canonic_file_some, c_str_asked, Tree.realpath, lookup_asked]
  constructor
  · rintro ⟨hasked, hreal, hroot⟩
    rw [if_pos hasked, Option.bind_eq_bind, Option.bind_some] at hreal
    split at hreal
    · rename_i hpath
      obtain rfl := Option.some.inj hreal
      exact ⟨⟨hasked, hpath, hroot⟩, rfl⟩
    · cases hreal
  · rintro ⟨hr, rfl⟩
    refine ⟨hr.asked_short, ?_, hr.root_spelled⟩
    rw [if_pos hr.asked_short, Option.bind_eq_bind, Option.bind_some, if_pos hr.path_short]

theorem Reaches.absolute (hr : r.Reaches) : r.docRoot.head? = some slash := by
  obtain ⟨name, names, hpath⟩ := List.exists_cons_of_ne_nil r.path_ne
  obtain ⟨rest, hrest⟩ := hr.root_spelled
  rw [pathText, if_neg r.path_ne, hpath, Paths.text_cons] at hrest
  obtain ⟨c, cs, hroot⟩ := List.exists_cons_of_ne_nil r.doc_root_ne
  rw [hroot, List.cons_append] at hrest
  rw [hroot, (List.cons.inj hrest).1]
  rfl

theorem Reaches.real (hr : r.Reaches) : r.t.Real r.path := by
  have hleads : r.t.leads r.asked = some r.path := r.asks
  rw [Tree.leads, asked, List.head?_append_of_ne_nil _ r.doc_root_ne, hr.absolute, if_pos rfl] at hleads
  exact r.t.keeps_real.resolve .root hleads

def opened (r : FileRequest) : OpenFile :=
  if r.content = [] then ⟨none, npos, r.timeUpdate⟩
  else ⟨some r.content, r.content.length, r.timeUpdate⟩

theorem opened_time (r : FileRequest) : r.opened.timeUpdate = r.timeUpdate := by
  unfold opened
  split <;> rfl

theorem Reaches.opens (hr : r.Reaches) :
    openedFile r.t r.queryUri r.docRoot r.fileName = some r.opened := by
  have htext : pathText r.path = Paths.text slash r.path := if_neg r.path_ne
  have hlookup := hr.real.lookup r.path_ne (htext ▸ hr.path_short)
  have hfile : r.t.entry r.path = some (.file r.content r.timeUpdate) := r.is_file
  simp only [openedFile, requested_name, (canonic_file_name r).mpr ⟨hr, rfl⟩, openFile, htext,
    hlookup, hfile, opened, Option.bind_eq_bind, Option.bind_some, List.length_eq_zero_iff]
  split <;> rfl

/-- Out of reach of the root every file is answered with 404. -/
theorem refused (h : ¬ r.Reaches) (now tm : Int) :
    r.p.sendFile r.t now tm r.queryUri r.docRoot r.fileName = r.p.notFound now := by
  have hcanonic : canonicFileName r.t r.docRoot r.asked = none :=
    Option.eq_none_iff_forall_ne_some.mpr fun canonic he => h ((canonic_file_name r).mp he).1
  simp only [HttpProcessor.sendFile, requested_name, hcanonic, Option.bind_eq_bind, Option.bind_some]

theorem not_served (h : ¬ r.Reaches) : ¬ r.Serves now tm := by
  rintro ⟨file, hfile, hanswer⟩
  rw [refused h] at hfile
  have hstatus := HttpProcessor.not_found_status hfile
  split at hanswer
  · exact absurd (hstatus.unique hanswer.status) (by decide)
  · exact absurd (hstatus.unique hanswer.status) (by decide)

theorem opened_mapped_iff (r : FileRequest) : r.opened.memory.isSome ↔ r.content ≠ [] := by
  unfold opened
  split
  · rename_i hempty
    simp [hempty]
  · rename_i hcontent
    simp [hcontent]

/-- What is served of the opened file is the content of the file. -/
theorem sends_of_served (hdata : r.p.isSendData = some sendData)
    (hserved : SentFile.Served file r.opened sendData) : r.Sends file := by
  refine ⟨hserved.status, ?_⟩
  have hcontent := hserved.content
  rw [hdata]
  cases sendData with
  | false =>
    have hnothing : file.sent.body ++ file.data = [] := hcontent
    rw [hnothing]
    rfl
  | true =>
    rw [if_pos rfl, opened] at hcontent
    rw [if_pos rfl]
    split at hcontent
    · cases hcontent
    · exact (Option.some.inj hcontent).symm

theorem served_iff_of_reaches (hr : r.Reaches) : r.Serves now tm ↔
    r.Unmodified tm ∨ (r.p.isSendData = some true → r.content ≠ []) := by
  obtain ⟨version, hversion⟩ := Option.isSome_iff_exists.mp r.version
  obtain ⟨sendData, hdata⟩ : ∃ sendData, r.p.isSendData = some sendData := by
    obtain ⟨method, hmethod⟩ := Option.isSome_iff_exists.mp r.method
    exact ⟨_, by rw [HttpProcessor.isSendData, hmethod]; rfl⟩
  by_cases hun : r.Unmodified tm
  · refine iff_of_true ?_ (.inl hun)
    obtain ⟨file, hfile, hnot⟩ := HttpProcessor.send_file_older hversion hdata hun.1 hr.opens now
      (r.opened_time.symm ▸ hun.2)
    exact ⟨file, hfile, by rwa [if_pos hun]⟩
  · have hlater : ¬ ((r.p.header.getHeaderParameter (ascii "If-Modified-Since") none).isSome ∧
        r.opened.timeUpdate ≤ tm) := by
      rw [opened_time]
      exact hun
    rw [or_iff_right hun, ← opened_mapped_iff, hdata, Option.some.injEq]
    rcases HttpProcessor.send_file_newer hversion hdata r.status hr.opens now hlater with
      ⟨⟨file, hfile, hserved⟩, hmapped⟩ | ⟨hnone, hmissing⟩
    · exact iff_of_true ⟨file, hfile, by rw [if_neg hun]; exact sends_of_served hdata hserved⟩ hmapped
    · refine iff_of_false ?_ hmissing
      rintro ⟨file, hfile, -⟩
      rw [hnone] at hfile
      cases hfile

/-- A file below the root is served if and only if its path begins with the root as
it is configured, there is room for the path and the name that is asked for, and
the file has a content where one is to be sent. -/
theorem served_iff (r : FileRequest) (now tm : Int) : r.Serves now tm ↔
    r.Reaches ∧ (r.Unmodified tm ∨ (r.p.isSendData = some true → r.content ≠ [])) := by
  by_cases hr : r.Reaches
  · rw [served_iff_of_reaches hr, and_iff_right hr]
  · exact iff_of_false (not_served hr) fun h => hr h.1

theorem relative_root_refused (h : r.docRoot.head? ≠ some slash) : ¬ r.Serves now tm :=
  not_served fun hr => h hr.absolute

/-- The site with its own directory as the working directory. -/
def keySite : Tree := { twoSites with
  cwd := [ascii "srv", ascii "www-private"]
  cwd_named := by decide }

theorem key_asked : keySite.leads (ascii "./" ++ ascii "/key") =
    some ([ascii "srv", ascii "www-private"] ++ [ascii "key"]) := by
  have hroot : keySite.lookup (ascii "./") = some [ascii "srv", ascii "www-private"] := by
    decide +kernel
  have hwalk : keySite.walk [ascii "srv", ascii "www-private"] ((ascii "key").splitOn slash) =
      .arrived ([ascii "srv", ascii "www-private"] ++ [ascii "key"]) := rfl
  exact Tree.leads_behind (Tree.lookup_leads hroot).2 (Tree.lookup_leads hroot).1 hwalk

/-- A request for `/key` below the root that is the default. -/
def keyBelow : FileRequest where
  t := keySite
  p := keyRequest (ascii "close")
  queryUri := ascii "/key"
  docRoot := ascii "./"
  fileName := []
  root := [ascii "srv", ascii "www-private"]
  below := [ascii "key"]
  content := ascii "k"
  timeUpdate := 0
  version := by rw [close_request_parsed.1.1]; rfl
  method := by decide +kernel
  status := rfl
  root_named := by decide +kernel
  is_below := by decide
  is_file := rfl
  no_nul := by decide
  asks := key_asked

/-- It is answered with 404. -/
theorem default_root_refused : ¬ ∀ (r : FileRequest) now tm, r.Serves now tm := fun h =>
  relative_root_refused (r := keyBelow) (by decide) (h keyBelow 0 0)

end FileRequest

end Khorost
