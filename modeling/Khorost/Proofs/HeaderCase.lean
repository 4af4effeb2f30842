import Khorost.Proofs.PairLists
import Khorost.Proofs.SideBySide

namespace Khorost

open HttpConnection

theorem lower_lower (b : UInt8) : toLower (toLower b) = toLower b := by
  unfold toLower
  grind

theorem lower_clear (hc : c ∈ [nul, cr, lf, colon, space]) (h : toLower b = toLower c) : b = c := by
  have hsame : toLower c = c := by
    simp only [List.mem_cons, List.not_mem_nil, or_false] at hc
    rcases hc with rfl | rfl | rfl | rfl | rfl <;> rfl
  rw [hsame] at h
  unfold toLower at h
  simp only [List.mem_cons, List.not_mem_nil, or_false] at hc
  grind

namespace Field

/-- The field under a name that differs in the letter case. -/
def rename (f : Field) (key : List UInt8) (h : f.key.map toLower = key.map toLower) : Field where
  key := key
  value := f.value
  key_clear := by
    intro c hc hstop
    have hmem : toLower c ∈ f.key.map toLower := by
      rw [h]
      exact List.mem_map_of_mem hc
    obtain ⟨b, hb, hlower⟩ := List.mem_map.mp hmem
    have hsame : b = c := by
      refine lower_clear ?_ hlower
      simp only [List.mem_cons, List.not_mem_nil, or_false] at hstop ⊢
      tauto
    exact f.key_clear b hb (hsame ▸ hstop)
  key_start := by
    intro hhead
    have hmap : (f.key.map toLower).head? = some (toLower space) := by
      rw [h, List.head?_map, hhead]
      rfl
    rw [List.head?_map] at hmap
    obtain ⟨b, hb, hlower⟩ := Option.map_eq_some_iff.mp hmap
    obtain rfl := lower_clear (by simp) hlower
    exact f.key_start hb
  value_clear := f.value_clear

theorem rename_recased (f : Field) (h : f.key.map toLower = name.map toLower) :
    f.Recased (f.rename name h) where
  key := by
    rw [strcase_clear f.key_no_nul (f.rename name h).key_no_nul]
    exact beq_iff_eq.mpr h
  value := rfl

/-- A name without a NUL is that of a field if only the letter case differs. -/
theorem same_letters (hn : nul ∉ name) (h : strcaseEq name (key f) = true) :
    f.key.map toLower = name.map toLower := by
  rw [strcase_clear hn f.key_no_nul] at h
  exact (beq_iff_eq.mp h).symm

def lowered (f : Field) : Field := f.rename (f.key.map toLower) (by simp [lower_lower])

theorem lowered_recased (f : Field) : f.Recased f.lowered := f.rename_recased _

/-- The name as the parser spells it, if it is one of those that the parser looks for. -/
def spelled (f : Field) : Field :=
  if h : strcaseEq (ascii "Content-Length") f.key = true then
    f.rename (ascii "Content-Length") (same_letters (by decide) h)
  else if h : strcaseEq (ascii "Cookie") f.key = true then
    f.rename (ascii "Cookie") (same_letters (by decide) h)
  else f

theorem spelled_recased (f : Field) : f.Recased f.spelled := by
  unfold spelled
  split
  · exact f.rename_recased _
  · split
    · exact f.rename_recased _
    · exact .refl f

theorem spelled_length (h : strcaseEq (ascii "Content-Length") f.key = true) :
    (spelled f).IsLength := by
  unfold spelled
  rw [dif_pos h]
  rfl

theorem spelled_cookie (h : strcaseEq (ascii "Cookie") f.key = true) :
    (spelled f).key = ascii "Cookie" := by
  have hno : ¬ strcaseEq (ascii "Content-Length") f.key = true := by
    intro hlength
    have hnames := Request.strcase_trans (strcase_symm hlength) (strcase_symm h)
    exact absurd hnames (by decide)
  unfold spelled
  rw [dif_neg hno, dif_pos h]
  rfl

theorem lowered_other (f : Field) (hname : (name.map toLower) ≠ name) : f.lowered.key ≠ name := by
  intro h
  refine hname ?_
  rw [← h]
  change (f.key.map toLower).map toLower = f.key.map toLower
  simp [lower_lower]

end Field

namespace Head

def rename (r : Head) (names : Field → Field) : Head := { r with fields := r.fields.map names }

theorem renamed (r : Head) {names : Field → Field} (h : ∀ f, Field.Recased f (names f)) :
    r.Recased (r.rename names) where
  method := rfl
  uri := rfl
  query := rfl
  version := rfl
  fields := List.forall₂_map_right_iff.mpr (List.forall₂_same.mpr fun f _ => h f)

/-- Whatever follows the head, however it is cut and whatever is in memory: with the
names of the fields in other letter cases the message stays the same, in runs whose calls
do not move the fill back. -/
def CaseBlind (r : Head) : Prop :=
  ∀ (r' : Head) (u : Uninitialised) (c : Connection HttpConnection) (tail : List UInt8)
    (segments segments' : List (List UInt8)), r.Recased r' → Request.Between c →
    List.Forall₂ (fun s s' => s.length = s'.length) segments segments' →
    segments.flatten <+: r.text ++ tail → segments'.flatten <+: r'.text ++ tail →
    Request.EachArrival (fun c _ data => Addressable c data) u c segments →
    c.RunCalls (StaysForward u) (dataProcessing u) segments →
    c.RunCalls (StaysForward u) (dataProcessing u) segments' →
    Option.Rel SameMessage
      (c.reads (dataProcessing u) segments).derived.processed[c.derived.processed.length]?
      (c.reads (dataProcessing u) segments').derived.processed[c.derived.processed.length]?

variable {r : Head} {c : Connection HttpConnection}

theorem blind_of_any_case (hcase : ∀ f ∈ r.fields, f.AnyCase) : r.CaseBlind := by
  intro r' u c tail segments segments' hr hb hsizes ⟨more, hmore⟩ ⟨more', hmore'⟩ hmemory hu hu'
  have hstart := abreast_start hb hr u tail
  rw [← hmore, ← hmore'] at hstart
  exact (hstart.reads hr hcase hsizes hmemory hu hu').entries

theorem view_cookies (r : Head) : cookiesOf r.view.fields = [] ↔
    ∀ f ∈ r.fields, f.key ≠ ascii "Cookie" := by
  rw [view_fields, cookiesOf, List.flatMap_eq_nil_iff]
  constructor
  · intro h f hf hkey
    have hnil := h (stored f) (List.mem_map_of_mem hf)
    rw [if_pos (show (stored f).1 = ascii "Cookie" from hkey)] at hnil
    exact pairs_of_nonempty _ _ _ hnil
  · intro h g hg
    obtain ⟨f, hf, rfl⟩ := List.mem_map.mp hg
    exact if_neg (h f hf)

/-- A byte behind the head of a request whose body is to be empty. -/
def blocking (r : Head) : List UInt8 := if r.view.contentLength = 0 then [0] else []

theorem blocking_waits (r : Head) (hl : r.view.contentLength ≠ npos) :
    r.view.readBody r.blocking = (r.view, r.blocking) := by
  have hphase : r.view.bodyProcess = .processingFirst := rfl
  rw [View.readBody, if_pos hphase]
  unfold blocking
  split
  · rename_i hzero
    rw [if_neg (by simp [hl]), if_pos (by rw [hzero]; rfl)]
  · rename_i hzero
    rw [if_neg (by simp [hl, hzero]), if_pos List.take_nil]

/-- A request with a length is not processed with its head alone. -/
theorem length_waits (hb : Request.Between c) (hl : r.view.contentLength ≠ npos)
    (u : Uninitialised) :
    (c.stubConnRead (dataProcessing u) (r.text ++ r.blocking)).derived.processed =
      c.derived.processed := by
  let stale := (Connection.readInto c.socketBuffer (r.text ++ r.blocking)).stale
  let I : HttpConnection → List UInt8 → Prop := fun d q => d.processed = c.derived.processed ∧
    ∃ v, Shows (d.processor u) v ∧ v.Sound ∧ v.headerProcess ≠ .processingNext ∧ ¬ v.UriCut q ∧
      v.read q = (r.view, r.blocking)
  have hview : r.view.read r.blocking = (r.view, r.blocking) := r.blocking_waits hl
  have step : ∀ d q, I d q → q ≠ [] → ∃ d' n,
      dataProcessing u d (q ++ stale) q.length = some (d', n) ∧
        ((n ≤ q.length ∧ I d' (q.drop n)) ∨ False) := by
    rintro d q ⟨hp, v, hs, hv, hphase, hcut, hread⟩ -
    obtain ⟨h, hshows, he⟩ := processing_follows hs hv q stale (fun h => absurd h hcut)
      (HttpHeader.stays_outside_lines (hs.headerProcess ▸ hphase))
    have hdrop := List.suffix_iff_eq_drop.mp (View.read_suffix v q)
    rw [hread] at hshows he hdrop
    have hwaits : ¬ (q.length - r.blocking.length ≠ 0 ∧ h.isReady = true) := by
      rintro ⟨-, hready⟩
      exact Phase.noConfusion (hshows.is_ready.mp hready).2
    rw [if_neg hwaits] at he
    refine ⟨_, _, he, .inl ⟨Nat.sub_le _ _, hp, r.view, hshows, r.view_sound, Phase.noConfusion, ?_, ?_⟩⟩
    · exact fun hcut => Phase.noConfusion hcut.first
    · rw [← hdrop]
      exact hview
  have hI : I c.derived (c.socketBuffer.content ++ (r.text ++ r.blocking)) := by
    rw [hb.content]
    refine ⟨rfl, .cleared, ?_, View.sound_cleared, Phase.noConfusion, r.not_uri_cut _, ?_⟩
    · rw [processor, hb.idle]
      exact shows_new _
    · rw [List.nil_append, read_text]
      exact r.blocking_waits hl
  have hne : r.text ++ r.blocking ≠ [] := by simp [text, firstLine]
  rcases read_rule (I := I) (J := fun _ => False) stale rfl step (fun _ _ _ _ _ h _ => h) hb.fault
    hne hI with ⟨-, ⟨hp, -⟩, -⟩ | hJ
  · exact hp
  · exact hJ.elim

theorem read_into_full (b : AutoBuffer UInt8) (data : List UInt8) :
    (Connection.readInto b data).fullSize = (b.checkSize (b.fillSize + data.length)).fullSize := by
  have hroom := b.check_size_full data.length
  rw [AutoBuffer.fullSize] at hroom
  simp only [Connection.readInto, AutoBuffer.decrementFreeSize, AutoBuffer.writeFree,
    AutoBuffer.rewrite, AutoBuffer.fullSize, List.length_append, List.length_take, List.length_drop]
  omega

theorem zeroed_addressable (data : List UInt8) : Addressable Request.zeroed data := by
  have hfill : (Connection.readInto Request.zeroed.socketBuffer data).fillSize = data.length := by
    rw [← AutoBuffer.content_length, Connection.read_into_content]
    rfl
  have hfull : (Connection.readInto Request.zeroed.socketBuffer data).fullSize ≤
      data.length + 2048 := by
    have hempty : Request.zeroed.socketBuffer = AutoBuffer.empty fun _ => 0 := rfl
    rw [read_into_full, hempty]
    simp only [AutoBuffer.checkSize, AutoBuffer.empty, AutoBuffer.fillSize, AutoBuffer.fullSize,
      AutoBuffer.realloc, AutoBuffer.defaultBufferGranulate, Nat.zero_add]
    split <;> split <;>
      simp only [List.length_append, List.length_map, List.length_range', List.length_nil] <;> omega
  unfold Addressable AutoBuffer.freeSize
  rw [hfill, npos]
  omega

/-- What becomes of a head that arrives at once, with `tail` behind it. -/
def entry (r : Head) (tail : List UInt8) : Option (HttpHeader × Nat) :=
  (Request.zeroed.reads (dataProcessing Request.zeros) [r.text ++ tail]).derived.processed[0]?

theorem CaseBlind.entry (hr : r.CaseBlind) (h : r.Recased r') (tail : List UInt8) :
    Option.Rel SameMessage (r.entry tail) (r'.entry tail) := by
  refine hr r' Request.zeros Request.zeroed tail [r.text ++ tail] [r'.text ++ tail] h
    Request.zeroed_between (.cons ?_ .nil) (by simp) (by simp) ?_
    ⟨Connection.forward_of_zero (fun _ => rfl) _ _, trivial⟩
    ⟨Connection.forward_of_zero (fun _ => rfl) _ _, trivial⟩
  · rw [List.length_append, List.length_append, h.text_length]
  · intro before data after hsplit
    obtain ⟨rfl, rfl, rfl⟩ : before = [] ∧ data = r.text ++ tail ∧ after = [] := by
      cases before with
      | nil => simpa [eq_comm] using hsplit
      | cons s before => simp at hsplit
    exact zeroed_addressable _

/-- Without a length the entry has the cookies of the head. -/
theorem entry_ready (hl : r.view.contentLength = npos) (tail : List UInt8) : ∃ a,
    r.entry tail = some a ∧ pairTexts a.1.headerText a.1.cookies = cookiesOf r.view.fields := by
  obtain ⟨h, n, ⟨more, hp⟩, hs, -⟩ := absent_ready Request.zeroed_between hl Request.zeros tail
  exact ⟨(h, n), (congrArg (·[0]?) hp.symm).trans rfl, pair_texts_shown h.abHeader hs.cookies⟩

theorem size_atoi_npos (h : sizeT (atoi s) = npos) : atoi s = -1 := by
  have hbounds := atoi_bounds s
  rw [sizeT, npos] at h
  omega

/-- In small letters no name is read as one of those that the parser looks for. -/
theorem lowered_view (r : Head) : (r.rename Field.lowered).view.contentLength = npos ∧
    cookiesOf (r.rename Field.lowered).view.fields = [] := by
  constructor
  · refine length_kept (v := r.firstView) (r.fields.map Field.lowered) (.inr fun g hg => ?_)
    obtain ⟨f, -, rfl⟩ := List.mem_map.mp hg
    exact f.lowered_other (by decide)
  · refine (view_cookies _).mpr fun g hg => ?_
    obtain ⟨f, -, rfl⟩ := List.mem_map.mp hg
    exact f.lowered_other (by decide)

/-- A head that is blind to the case of its names is read without a length and
without cookies, however they are written. -/
theorem CaseBlind.unread (hr : r.CaseBlind) (h : r.Recased r') :
    r'.view.contentLength = npos ∧ cookiesOf r'.view.fields = [] := by
  obtain ⟨hnone, hempty⟩ := r.lowered_view
  have hlower := r.renamed Field.lowered_recased
  have hentry : ∀ tail, ∃ a, r.entry tail = some a ∧ pairTexts a.1.headerText a.1.cookies = [] := by
    intro tail
    obtain ⟨a', ha', hcookies⟩ := entry_ready hnone tail
    have hrel := hr.entry hlower tail
    rw [ha'] at hrel
    generalize r.entry tail = found at hrel ⊢
    cases hrel with
    | @some a _ hsame => exact ⟨a, rfl, by rw [hsame.cookies, hcookies, hempty]⟩
  have hlength : r'.view.contentLength = npos := by
    by_contra hl
    obtain ⟨a, ha, -⟩ := hentry r'.blocking
    have hwaits := length_waits Request.zeroed_between hl Request.zeros
    have hrel := hr.entry h r'.blocking
    have hno : r'.entry r'.blocking = none := congrArg (·[0]?) hwaits
    rw [ha, hno] at hrel
    cases hrel
  refine ⟨hlength, ?_⟩
  obtain ⟨a, ha, hcookies⟩ := hentry []
  obtain ⟨a', ha', hcookies'⟩ := entry_ready hlength []
  have hrel := hr.entry h []
  rw [ha, ha'] at hrel
  cases hrel with
  | some hsame => rw [← hcookies', ← hsame.cookies, hcookies]

/-- Spelled as the parser spells it, a length or a cookie would be read. -/
theorem any_case_of_blind (hr : r.CaseBlind) : ∀ f ∈ r.fields, f.AnyCase := by
  intro f hf
  obtain ⟨hlength, hcookies⟩ := hr.unread (r.renamed Field.spelled_recased)
  have hmem : f.spelled ∈ (r.rename Field.spelled).fields := List.mem_map_of_mem hf
  refine ⟨?_, fun hname => ?_⟩
  · by_contra hname
    exact (view_cookies _).mp hcookies f.spelled hmem
      (Field.spelled_cookie (Bool.not_eq_false _ ▸ hname))
  · by_contra hvalue
    refine length_found hmem (Field.spelled_length hname) (fun hsize => ?_) _ hlength
    rw [← f.spelled_recased.text] at hsize
    exact hvalue (size_atoi_npos hsize)

/-- The letter case of the names makes no difference to a request exactly if none of
them is that of a cookie or that of a length, unless its value is -1. -/
theorem case_blind_iff (r : Head) : r.CaseBlind ↔ ∀ f ∈ r.fields, f.AnyCase :=
  ⟨any_case_of_blind, blind_of_any_case⟩

/-- The length of a body of three bytes is not found in small letters. -/
theorem length_in_small_letters : ¬ ∀ r : Head, r.CaseBlind := by
  intro h
  have hcase := any_case_of_blind (h (posting Request.lengthThree)) Request.lengthThree
    List.mem_cons_self
  exact absurd hcase (by decide)

end Head

end Khorost
