import Mathlib.Data.List.Induction
import Khorost.Proofs.Segments

namespace Khorost.Request

open HttpConnection

/-- `P` holds of every arrival of a run: of the connection in front of it, of
what has arrived before, and of the data. -/
def EachArrival (P : Connection HttpConnection → List UInt8 → List UInt8 → Prop)
    (u : Uninitialised) (c : Connection HttpConnection) (segments : List (List UInt8)) : Prop :=
  ∀ before data after, segments = before ++ data :: after →
    P (c.reads (dataProcessing u) before) before.flatten data

variable {P : Connection HttpConnection → List UInt8 → List UInt8 → Prop} {u : Uninitialised}
  {c : Connection HttpConnection} {r : Request} {segments : List (List UInt8)}

theorem EachArrival.init (h : EachArrival P u c (segments ++ [data])) :
    EachArrival P u c segments := by
  rintro before data' after rfl
  exact h before data' (after ++ [data]) (by simp)

theorem EachArrival.last (h : EachArrival P u c (segments ++ [data])) :
    P (c.reads (dataProcessing u) segments) segments.flatten data :=
  h segments data [] rfl

theorem EachArrival.part (h : EachArrival P u c segments) (hb : before <+: segments) :
    EachArrival P u c before := by
  obtain ⟨after, rfl⟩ := hb
  rintro before' data after' rfl
  exact h before' data (after' ++ after) (by simp)

/-- No call that the arrival leads to moves the fill of the header buffer back. -/
def Forward (u : Uninitialised) (c : Connection HttpConnection) (data : List UInt8) : Prop :=
  c.ReadCalls (HttpConnection.StaysForward u) (dataProcessing u) data

/-- Careful arrivals, and in a tidy run none that ends inside a line end or moves the fill
back. -/
def Clear (r : Request) (u : Uninitialised) (tidy : Prop) (c : Connection HttpConnection)
    (before data : List UInt8) : Prop :=
  Careful r c before data ∧ (tidy → ∀ left, ¬ LineCut r (before ++ data) left) ∧
    (tidy → Forward u c data)

theorem reads_stand (hb : Between c) (hfits : segments.flatten <+: r.serialize ++ more)
    (hstuck : r.body ≠ [] ∨ segments.flatten.length ≤ r.serialize.length)
    (hc : EachArrival (Clear r u tidy) u c segments) :
    Stands r u c.derived.processed tidy segments.flatten (c.reads (dataProcessing u) segments) := by
  induction segments using List.reverseRecOn with
  | nil => exact hb.stands r u tidy
  | append_singleton segments data ih =>
    rw [List.flatten_append, List.flatten_singleton] at hfits hstuck ⊢
    have hlen : (segments.flatten ++ data).length = segments.flatten.length + data.length :=
      List.length_append
    have hs := ih ((List.prefix_append _ _).trans hfits) (hstuck.imp_right (fun h => by omega))
      hc.init
    rw [Connection.reads_append]
    change Stands r u _ tidy _ (Connection.stubConnRead _ _ data)
    by_cases hdata : data = []
    · have hskip : (c.reads (dataProcessing u) segments).stubConnRead (dataProcessing u) data =
          c.reads (dataProcessing u) segments := by
        simp [Connection.stubConnRead, hdata]
      rw [hskip, hdata, List.append_nil]
      exact hs
    · exact hs.read hdata hfits hc.last.1 hstuck hc.last.2.1 hc.last.2.2

/-- The arrival ends neither inside a line end nor, with something other than a
quiet byte in memory behind it, right behind a URI without a query. Where it ends inside a
name, the unassigned `chunk_size` does not move the fill back. -/
structure Unbroken (r : Request) (u : Uninitialised) (c : Connection HttpConnection)
    (before data : List UInt8) : Prop where
  line : ∀ left, ¬ LineCut r (before ++ data) left
  uri : UriCut r (before ++ data) → Quiet c data
  forward : Forward u c data

/-- The two parsers answer every question alike. -/
structure SameAnswers (h h' : HttpHeader) : Prop where
  method : h.getQueryMethod = h'.getQueryMethod
  uri : h.getQueryUri = h'.getQueryUri
  version : h.getQueryVersion = h'.getQueryVersion
  parameter : ∀ key defaultValue, h.getParameter key defaultValue = h'.getParameter key defaultValue
  exist : ∀ key, h.isParameterExist key = h'.isParameterExist key
  header : ∀ param defaultValue,
    h.getHeaderParameter param defaultValue = h'.getHeaderParameter param defaultValue
  cookie : ∀ key defaultValue, h.getCookie key defaultValue = h'.getCookie key defaultValue
  body : h.getBody = h'.getBody

theorem Answers.same (ha : Answers h r) (ha' : Answers h' r) : SameAnswers h h' where
  method := ha.method.trans ha'.method.symm
  uri := ha.uri.trans ha'.uri.symm
  version := ha.version.trans ha'.version.symm
  parameter key d := (ha.parameter key d).trans (ha'.parameter key d).symm
  exist key := (ha.exist key).trans (ha'.exist key).symm
  header param d := (ha.header param d).trans (ha'.header param d).symm
  cookie key d := (ha.cookie key d).trans (ha'.cookie key d).symm
  body := ha.body.trans ha'.body.symm

theorem EachArrival.clear (hr : segments.flatten <+: r.serialize)
    (hu : EachArrival (Unbroken r u) u c segments) : EachArrival (Clear r u True) u c segments := by
  rintro before data after rfl
  obtain ⟨hline, huri, hforward⟩ := hu before data after rfl
  refine ⟨⟨fun left hcut => absurd hcut (hline left), huri, fun _ => ?_⟩, fun _ => hline,
    fun _ => hforward⟩
  have hle := hr.length_le
  simp only [List.flatten_append, List.flatten_cons, List.length_append] at hle ⊢
  omega

/-- Before all of the request is there nothing new has been processed. -/
theorem Stands.short (hs : Stands r u done tidy arrived c)
    (hlt : arrived.length < r.serialize.length) : c.derived.processed = done := by
  cases hs with
  | underway _ _ under _ => exact under.processed
  | finished whole _ _ _ => omega
  | passed beyond _ => omega

theorem Stands.whole (hs : Stands r u done True arrived c)
    (heq : arrived.length = r.serialize.length) :
    ∃ h, c.derived.processed = done ++ [(h, r.serialize.length)] ∧ Answers h r := by
  cases hs with
  | underway short _ _ _ => omega
  | finished _ _ _ served =>
    obtain ⟨h, hp, hh⟩ := served.processed
    exact ⟨h, hp, hh.answers trivial⟩
  | passed beyond _ => omega

/-- A whole request is taken by one call, which begins with its first line. -/
theorem Between.whole_forward (hb : Between c) (r : Request) : Forward u c r.serialize := by
  intro _ _
  have hproc : c.derived.processor u = .new (u.heap c.derived.created) := by
    rw [processor, hb.idle]
    rfl
  have hsplit := (Connection.readInto c.socketBuffer r.serialize).buffer_split
  have hlen := (Connection.readInto c.socketBuffer r.serialize).content_length
  simp only [Connection.read_into_content, hb.content, List.nil_append] at hsplit hlen
  dsimp only
  rw [hsplit, ← hlen]
  refine LoopCalls.once (P := HttpConnection.StaysForward u) ?_ (fun d' n he => ?_) _
  · refine HttpHeader.stays_outside_lines ?_
    rw [hproc]
    exact Phase.noConfusion
  · obtain ⟨h', hcall, ha⟩ := whole_completes (r := r) (h := c.derived.processor u)
      (by rw [hproc]; exact shows_new _)
      (Connection.readInto c.socketBuffer r.serialize).stale (u.chunkSize c.derived.calls)
    have hpos := List.length_pos_iff.mpr r.serialize_nonempty
    rw [processing_serves hcall ⟨by omega, ha.ready⟩] at he
    exact (Prod.mk.inj (Option.some.inj he)).2.symm

theorem unbroken_whole (hb : Between c) (r : Request) :
    EachArrival (Unbroken r u) u c [r.serialize] := by
  intro before data after h
  obtain ⟨rfl, rfl, rfl⟩ : before = [] ∧ data = r.serialize ∧ after = [] := by
    cases before with
    | nil => simpa [eq_comm] using h
    | cons s before => simp at h
  refine ⟨fun left hcut => ?_, fun hcut => ?_, hb.whole_forward r⟩
  · have hlen := congrArg List.length hcut.2
    rw [List.length_append, List.flatten_nil, List.nil_append, List.length_cons] at hlen
    omega
  · have hlen := congrArg List.length hcut.2
    have hpos := List.length_pos_iff.mpr r.version_on_nonempty
    rw [List.length_append, List.flatten_nil, List.nil_append] at hlen
    omega

theorem LineCut.next (h : LineCut r arrived left) :
    (r.serialize.drop arrived.length).head? = some lf := by
  rw [h.2, List.drop_left]
  rfl

theorem UriCut.length (h : UriCut r arrived) :
    arrived.length + r.versionOn.length = r.serialize.length := by
  rw [h.2, List.length_append]

theorem header_and_body (r : Request) : r.headerLength + r.body.length = r.serialize.length := by
  have hlines : ∀ fields, r.body <:+ r.linesFrom fields := fun fields =>
    (List.suffix_append [cr, lf] r.body).trans (List.suffix_append _ _)
  have hversion : r.body <:+ r.versionOn :=
    ((hlines r.fields).trans (List.suffix_append [cr, lf] _)).trans (List.suffix_append _ _)
  have huri : r.body <:+ r.uriOn := by
    unfold uriOn queryOn
    cases r.query with
    | none => exact (hversion.trans (List.suffix_append [space] _)).trans (List.suffix_append _ _)
    | some q =>
      exact ((hversion.trans (List.suffix_append [space] _)).trans
        (List.suffix_append (question :: q) _)).trans (List.suffix_append _ _)
  have hle := ((huri.trans (List.suffix_append [space] _)).trans
    (List.suffix_append r.method _)).length_le
  exact Nat.sub_add_cancel hle

theorem BodyCut.length (h : BodyCut r arrived) : r.headerLength < arrived.length := by
  obtain ⟨got, left, hg, -, hbody, hs⟩ := h
  have hgot := List.length_pos_iff.mpr hg
  have hlen := r.header_and_body
  rw [hs, hbody, List.length_append, List.length_append] at hlen
  omega

def getRoot : Request where
  method := ascii "GET"
  uri := ascii "/"
  query := none
  version := ascii "HTTP/1.1"
  fields := []
  body := []
  method_nonempty := by decide
  method_clear := clear_literal (by decide)
  uri_nonempty := by decide
  uri_clear := clear_literal (by decide)
  query_clear := by simp
  version_nonempty := by decide
  version_clear := clear_literal (by decide)
  version_start := by decide
  length_given := by simp
  body_absent := by simp
  body_lt := by decide

/-- A connection on which nothing has arrived, in memory filled with zeros. -/
def zeroed : Connection HttpConnection := Connection.idle (fun _ => 0) start

def zeros : Uninitialised := ⟨fun _ _ => 0, fun _ => 0⟩

theorem zeroed_between : Between zeroed := ⟨rfl, rfl, rfl, rfl⟩

theorem Stands.first (hs : Stands r u done tidy arrived c)
    (hle : r.serialize.length ≤ arrived.length) : First r done tidy c.derived := by
  cases hs with
  | underway short _ _ _ => omega
  | finished _ _ _ served => exact served.first
  | passed _ first => exact first

def lengthThree : Field where
  key := ascii "Content-Length"
  value := ascii "3"
  key_clear := clear_literal (by decide)
  key_start := by decide
  value_clear := clear_literal (by decide)

def postThree : Request where
  method := ascii "POST"
  uri := ascii "/"
  query := none
  version := ascii "HTTP/1.1"
  fields := [lengthThree]
  body := ascii "xyz"
  method_nonempty := by decide
  method_clear := clear_literal (by decide)
  uri_nonempty := by decide
  uri_clear := clear_literal (by decide)
  query_clear := by simp
  version_nonempty := by decide
  version_clear := clear_literal (by decide)
  version_start := by decide
  length_given := by
    simp only [List.mem_singleton, forall_eq]
    exact fun _ => ⟨by decide, List.all_eq_true.mp (by decide), by decide⟩
  body_absent := fun h => absurd rfl (h lengthThree (by simp))
  body_lt := by decide

end Khorost.Request
