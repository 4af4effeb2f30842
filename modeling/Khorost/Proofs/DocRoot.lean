import Khorost.Proofs.TreeWalk

namespace Khorost

/-- A text that `realpath` can give: the path of names alone. -/
def IsPath (s : List UInt8) : Prop := ∃ path, (∀ name ∈ path, IsName name) ∧ pathText path = s

theorem lookup_named {t : Tree} (h : t.lookup name = some path) : ∀ n ∈ path, IsName n := by
  unfold Tree.lookup at h
  split at h
  · cases h
  · refine t.keeps_named.resolve ?_ h
    split
    · exact nofun
    · exact t.cwd_named

theorem realpath_canonical {t : Tree} (h : t.realpath name = some canonic) :
    IsPath canonic ∧ canonic.length < maxPath := by
  obtain ⟨path, hlookup, h⟩ := Option.bind_eq_some_iff.mp h
  split at h
  · rename_i hlen
    cases h
    exact ⟨⟨path, lookup_named hlookup, rfl⟩, hlen⟩
  · cases h

/-- What is opened for a request lies at or below the document root. -/
def Confined (t : Tree) (docRoot queryUri fileName : List UInt8) : Prop :=
  ∀ name ∈ requestedName t queryUri docRoot fileName,
    ∀ canonic ∈ canonicFileName t docRoot name, Paths.Below slash docRoot canonic

/-- The name that is asked for leads to a path that goes on in the middle of the
last name of the document root. -/
def Strays (t : Tree) (docRoot queryUri fileName : List UInt8) : Prop :=
  ∃ name ∈ requestedName t queryUri docRoot fileName, name.length < maxPath ∧
    ∃ c rest, t.realpath (cStr name) = some (docRoot ++ c :: rest) ∧ c ≠ slash

/-- A document root that no path goes on behind but with a slash: it ends with one,
or is not the beginning of a path, or leaves no room for another byte. -/
def RootSafe (docRoot : List UInt8) : Prop :=
  docRoot.getLast? = some slash ∨ ¬ IsPath (docRoot ++ [120]) ∨ maxPath ≤ docRoot.length + 1

theorem canonic_file_some : canonicFileName t docRoot name = some canonic ↔
    name.length < maxPath ∧ t.realpath (cStr name) = some canonic ∧ docRoot <+: canonic := by
  unfold canonicFileName
  split
  · rename_i hlong
    exact iff_of_false (by simp) (fun h => by omega)
  · rename_i hshort
    rw [and_iff_right (by omega)]
    constructor
    · intro h
      obtain ⟨found, hfound, h⟩ := Option.bind_eq_some_iff.mp h
      split at h
      · cases h
      · rename_i hroot
        cases h
        exact ⟨hfound, List.prefix_iff_eq_take.mpr (not_not.mp hroot).symm⟩
    · rintro ⟨hreal, hroot⟩
      rw [hreal, Option.bind_eq_bind, Option.bind_some, if_neg]
      rw [not_not]
      exact (List.prefix_iff_eq_take.mp hroot).symm

/-- For one request the check is right unless the path strays from the root. -/
theorem confined_iff (t : Tree) (docRoot queryUri fileName : List UInt8) :
    Confined t docRoot queryUri fileName ↔
      docRoot.getLast? = some slash ∨ ¬ Strays t docRoot queryUri fileName := by
  by_cases hlast : docRoot.getLast? = some slash
  · refine iff_of_true (fun name _ canonic hc => ?_) (.inl hlast)
    obtain ⟨-, -, rest, rfl⟩ := canonic_file_some.mp hc
    exact (Paths.below_iff docRoot rest).mpr (.inl hlast)
  · rw [or_iff_right hlast]
    constructor
    · rintro hall ⟨name, hname, hshort, c, rest, hreal, hne⟩
      have hbelow := hall name hname _
        (canonic_file_some.mpr ⟨hshort, hreal, List.prefix_append _ _⟩)
      exact hne (((Paths.below_iff docRoot _).mp hbelow).resolve_left hlast c rfl)
    · intro hnone name hname canonic hc
      obtain ⟨hshort, hreal, rest, rfl⟩ := canonic_file_some.mp hc
      refine (Paths.below_iff docRoot rest).mpr (.inr fun c hhead => ?_)
      by_contra hne
      obtain ⟨rest, rfl⟩ := List.head?_eq_some_iff.mp hhead
      exact hnone ⟨name, hname, hshort, c, rest, hreal, hne⟩

/-- The beginning of a name with another letter behind it is a name. -/
theorem IsName.extend (h : IsName name) (hcut : cut <+: name) : IsName (cut ++ [120]) := by
  have hmem : ∀ {c}, c ∉ name → c ≠ 120 → c ∉ cut ++ [120] := by
    intro c hname hne hin
    rcases List.mem_append.mp hin with hin | hin
    · exact hname (hcut.subset hin)
    · exact hne (List.mem_singleton.mp hin)
  have hlast : (120 : UInt8) ∈ cut ++ [120] := List.mem_append_right _ (List.mem_singleton_self _)
  refine ⟨List.ne_nil_of_mem hlast, hmem h.no_slash (by decide), hmem h.no_nul (by decide),
    fun he => ?_, fun he => ?_⟩
  · rw [he] at hlast
    exact absurd hlast (by decide)
  · rw [he] at hlast
    exact absurd hlast (by decide)

/-- A path that strays shows that the root can be gone on behind. -/
theorem root_of_strays (h : Strays t docRoot queryUri fileName) :
    IsPath (docRoot ++ [120]) ∧ docRoot.length + 1 < maxPath := by
  obtain ⟨name, -, -, c, rest, hreal, hne⟩ := h
  obtain ⟨⟨path, hnames, hpath⟩, hlen⟩ := realpath_canonical hreal
  refine ⟨?_, by rw [List.length_append, List.length_cons] at hlen; omega⟩
  unfold pathText at hpath
  split at hpath
  · cases docRoot with
    | nil => exact absurd (List.cons.inj hpath).1.symm hne
    | cons d docRoot => simp at hpath
  · obtain ⟨front, last, cut, hfront, hlast, hcut, hroot⟩ := Paths.cut_inside hpath hne
    refine ⟨front ++ [cut ++ [120]], fun n hn => ?_, ?_⟩
    · rcases List.mem_append.mp hn with hn | hn
      · exact hnames n (hfront n hn)
      · obtain rfl := List.mem_singleton.mp hn
        exact (hnames last hlast).extend hcut
    · rw [pathText, if_neg (by simp), hroot]
      simp [Paths.text]

/-- The tree of one file and the directories that lead to it. -/
def oneFile (path : List (List UInt8)) (h : ∀ name ∈ path, IsName name) : Tree where
  entry p :=
    if p = path then some (.file [] 0) else if p <+: path then some (.directory 0 0) else none
  cwd := []
  named := by
    intro p e he name hin
    split at he
    · rename_i hp
      exact h name (hp ▸ hin)
    · split at he
      · rename_i hp
        exact h name (hp.subset hin)
      · cases he
  cwd_named := nofun

theorem one_file_real (h : ∀ name ∈ path, IsName name) (hfront : front <+: path) :
    (oneFile path h).Real front := by
  induction front using List.reverseRecOn with
  | nil => exact .root
  | append_singleton front name ih =>
    have hbefore : front <+: path := (List.prefix_append front [name]).trans hfront
    have hne : front ≠ path := by
      rintro rfl
      exact absurd hfront.length_le (by simp)
    have hdirectory : (oneFile path h).isDirectory front = true := by
      simp [Tree.isDirectory, oneFile, hne, hbefore, Entry.isDirectory]
    by_cases hlast : front ++ [name] = path
    · exact .next (ih hbefore) hdirectory (if_pos hlast) (by simp)
    · exact .next (ih hbefore) hdirectory ((if_neg hlast).trans (if_pos hfront)) (by simp)

theorem c_str_path (h : ∀ name ∈ path, IsName name) :
    cStr (Paths.text slash path) = Paths.text slash path := by
  refine List.takeWhile_eq_self_iff.mpr fun c hc => ?_
  rw [decide_eq_true_iff]
  rintro rfl
  obtain ⟨name, hname, hin⟩ := List.mem_flatMap.mp hc
  rcases List.mem_cons.mp hin with he | hin
  · exact absurd he (by decide)
  · exact (h name hname).no_nul hin

/-- Any other root has a tree and a request for which a file next to it is opened. -/
theorem stray_of_unsafe (h : ¬ RootSafe docRoot) :
    ∃ t queryUri, ¬ Confined t docRoot queryUri [] := by
  obtain ⟨hlast, hpath, hlen⟩ := not_or.mp h |>.imp_right not_or.mp
  obtain ⟨path, hnames, htext⟩ := not_not.mp hpath
  have hne : path ≠ [] := by
    rintro rfl
    cases docRoot with
    | nil => exact absurd (List.cons.inj htext).1 (by decide)
    | cons d docRoot => simp [pathText] at htext
  rw [pathText, if_neg hne] at htext
  have hroom : (Paths.text slash path).length < maxPath := by
    rw [htext, List.length_append, List.length_singleton]
    omega
  have hlookup := (one_file_real hnames List.prefix_rfl).lookup hne hroom
  have hcStr := c_str_path hnames
  refine ⟨oneFile path hnames, [120], fun hall => ?_⟩
  have hdir : (oneFile path hnames).isDir (docRoot ++ [120]) = false := by
    rw [← htext, Tree.isDir, hlookup]
    simp [Tree.isDirectory, oneFile, hne, Entry.isDirectory]
  have hname : requestedName (oneFile path hnames) [120] docRoot [] = some (docRoot ++ [120]) := by
    have hx : (120 : UInt8) ≠ slash := by decide
    rw [htext] at hcStr
    simp [requestedName, hx, hcStr, hdir]
  have hreal : (oneFile path hnames).realpath (cStr (docRoot ++ [120])) =
      some (docRoot ++ [120]) := by
    rw [← htext, hcStr, Tree.realpath, hlookup]
    simp only [Option.bind_eq_bind, Option.bind_some, pathText, if_neg hne, if_pos hroom]
  have hbelow := hall _ hname _ (canonic_file_some.mpr
    ⟨by rwa [← htext], hreal, List.prefix_append _ _⟩)
  have hslash := ((Paths.below_iff docRoot _).mp hbelow).resolve_left hlast 120 rfl
  exact absurd hslash (by decide)

/-- `send_file` opens nothing outside of a document root, whatever is asked for and
whatever the directories hold, if and only if the root ends with a slash, or is
not a path, or is too long; for any other root exactly the requests that stray
go wrong. -/
theorem send_file_confined_iff (docRoot : List UInt8) :
    ((∀ t queryUri fileName, Confined t docRoot queryUri fileName) ↔ RootSafe docRoot) ∧
      ∀ t queryUri fileName, Confined t docRoot queryUri fileName ↔
        docRoot.getLast? = some slash ∨ ¬ Strays t docRoot queryUri fileName := by
  refine ⟨⟨fun hall => ?_, fun hsafe t queryUri fileName => ?_⟩, fun t queryUri fileName =>
    confined_iff t docRoot queryUri fileName⟩
  · by_contra hunsafe
    obtain ⟨t, queryUri, hnot⟩ := stray_of_unsafe hunsafe
    exact hnot (hall t queryUri [])
  · rw [confined_iff]
    refine or_iff_not_imp_left.mpr fun hlast hstrays => ?_
    obtain ⟨hpath, hlen⟩ := root_of_strays hstrays
    rcases hsafe with hslash | hno | hlong
    · exact hlast hslash
    · exact hno hpath
    · omega

/-- A site and, in the same directory, a file that is not for the public. -/
def twoSites : Tree where
  entry path :=
    if path ∈ [[ascii "srv"], [ascii "srv", ascii "www"], [ascii "srv", ascii "www-private"]] then
      some (.directory 4096 0)
    else if path = [ascii "srv", ascii "www-private", ascii "key"] then some (.file (ascii "k") 0)
    else none
  cwd := []
  named := by
    have hnames : ∀ path ∈ [[ascii "srv"], [ascii "srv", ascii "www"],
        [ascii "srv", ascii "www-private"], [ascii "srv", ascii "www-private", ascii "key"]],
        ∀ name ∈ path, IsName name := by decide
    intro path e he
    refine hnames path ?_
    split at he
    · rename_i hp
      exact List.mem_append_left [_] hp
    · split at he
      · rename_i hp
        exact List.mem_append_right [_, _, _] (List.mem_singleton.mpr hp)
      · cases he
  cwd_named := nofun

/-- The document root `/srv/www` does not keep the file of its neighbour back. -/
theorem neighbour_served : ¬ ∀ t docRoot queryUri fileName,
    Confined t docRoot queryUri fileName := by
  intro h
  have hopen : (requestedName twoSites (ascii "/../www-private/key") (ascii "/srv/www") []).bind
      (canonicFileName twoSites (ascii "/srv/www")) = some (ascii "/srv/www-private/key") := by
    decide +kernel
  obtain ⟨name, hname, hcanonic⟩ := Option.bind_eq_some_iff.mp hopen
  have hbelow := h twoSites _ _ _ name hname _ hcanonic
  have hsplit : ascii "/srv/www-private/key" = ascii "/srv/www" ++ ascii "-private/key" := by decide
  rw [hsplit, Paths.below_iff] at hbelow
  rcases hbelow with hlast | hnext
  · exact absurd hlast (by decide)
  · exact absurd (hnext 45 (by decide)) (by decide)

end Khorost
