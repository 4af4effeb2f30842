import Khorost.Proofs.Arrivals

namespace Khorost.Request

open HttpConnection

/-- The request is dispatched, and the connection goes on with the bytes behind
it as it does with those of a new request. -/
def ServedThenFollowed (r : Request) (u : Uninitialised) (c : Connection HttpConnection)
    (following : List UInt8) : Prop :=
  let stale := (Connection.readInto c.socketBuffer (r.serialize ++ following)).stale
  ∃ h d, Answers h r ∧ d.httpProcessor = none ∧ d.taken = 0 ∧
    d.processed = c.derived.processed ++ [(h, r.serialize.length)] ∧
    (c.stubConnRead (dataProcessing u) (r.serialize ++ following)).derived =
      (compileLoop (dataProcessing u) (following ++ stale) following.length following.length 0 d).1

variable {r : Request} {u : Uninitialised} {c : Connection HttpConnection} {following : List UInt8}

theorem ServedThenFollowed.processed (hs : ServedThenFollowed r u c following) :
    ∃ h, c.derived.processed ++ [(h, r.serialize.length)] <+:
      (c.stubConnRead (dataProcessing u) (r.serialize ++ following)).derived.processed := by
  obtain ⟨h, d, -, -, -, hd, hloop⟩ := hs
  refine ⟨h, ?_⟩
  rw [hloop, ← hd]
  exact compile_loop_keep (J := fun d' => d.processed <+: d'.processed)
    (fun _ _ _ _ _ hp he => hp.trans (processed_kept he)) _ _ _ _ _ List.prefix_rfl

theorem alone_served (hb : Between c) (r : Request) (u : Uninitialised) :
    ServedThenFollowed r u c [] := by
  have hfits : [r.serialize].flatten <+: r.serialize := by simp
  have hs := reads_stand (u := u) hb (hfits.trans (List.prefix_append _ [])) (.inr hfits.length_le)
    ((unbroken_whole hb r).clear hfits)
  have hlen : [r.serialize].flatten.length = r.serialize.length := by simp
  cases hs with
  | underway short _ _ _ => omega
  | passed beyond _ => omega
  | finished _ _ _ served =>
    obtain ⟨h, hp, hh⟩ := served.processed
    refine ⟨h, _, hh.answers trivial, served.idle, served.taken, hp, ?_⟩
    rw [List.append_nil]
    rfl

/-- Something follows a request that declares an empty body: no call dispatches it. -/
structure Stuck (r : Request) (u : Uninitialised) (done : List (HttpHeader × Nat))
    (following : List UInt8) (d : HttpConnection) (p : List UInt8) (t : Todo) : Prop where
  left : p = r.rest t ++ following
  at_ : r.At t
  shows : Shows (d.processor u) (r.view t)
  processed : d.processed = done

theorem Stuck.arrival (hs : Stuck r u done following d p t) (hbody : r.body = [])
    (hf : following ≠ []) (stale : List UInt8) : Arrival r t p following stale := by
  have hpos := List.length_pos_iff.mpr hf
  have hlen : p.length = (r.rest t).length + following.length := by
    rw [hs.left, List.length_append]
  have hnone : ∀ tail, p ++ tail ≠ r.rest t := by
    intro tail ht
    have := congrArg List.length ht
    rw [List.length_append] at this
    omega
  refine ⟨hs.left ▸ List.prefix_rfl, fun tail _ ht => absurd ht (hnone tail),
    fun tail ht => absurd ht (hnone tail), ?_⟩
  rintro seen got left rfl hg
  have hgot : got ++ left = [] := hs.at_.2.1.trans hbody
  exact absurd (List.append_eq_nil_iff.mp hgot).1 hg

theorem stuck_step (hs : Stuck r u done following d p t) (hbody : r.body = [])
    (hgiven : ∃ f ∈ r.fields, f.IsLength) (hf : following ≠ []) (stale : List UInt8) :
    ∃ d' n, dataProcessing u d (p ++ stale) p.length = some (d', n) ∧ n ≤ p.length ∧
      ∃ t', Stuck r u done following d' (p.drop n) t' := by
  have hpos := List.length_pos_iff.mpr hf
  have hlen : p.length = (r.rest t).length + following.length := by
    rw [hs.left, List.length_append]
  have hp : p ≠ [] := List.length_pos_iff.mp (by omega)
  obtain ⟨h, n, he, hle, hcase⟩ :=
    process_outcome (u := u.chunkSize d.calls) hs.shows hs.at_ hp (hs.arrival hbody hf stale)
      (rest_stays hs.shows hs.at_ (hs.left ▸ List.prefix_append _ _))
  rw [Nat.zero_add] at he
  rcases hcase with ⟨t', hw⟩ | ⟨seen, hd⟩
  · have hnot : ¬ (n ≠ 0 ∧ h.isReady = true) := by
      rw [not_ready_view hw.shows]
      simp
    have hleft : p.take n ++ p.drop n = p.take n ++ (r.rest t' ++ following) := by
      rw [List.take_append_drop, ← List.append_assoc, hw.taken, hs.left]
    exact ⟨_, n, processing_waits he hnot, hle, t', List.append_cancel_left hleft, hw.at_, hw.shows,
      hs.processed⟩
  · have halone := hd.alone hbody hgiven
    omega

/-- A request that declares an empty body is dispatched, and what follows is taken
for the next request, exactly if nothing follows. -/
theorem empty_body_served_iff (hb : Between c) (hgiven : ∃ f ∈ r.fields, f.IsLength)
    (hbody : r.body = []) :
    ServedThenFollowed r u c following ↔ following = [] := by
  constructor
  · intro hs
    apply Classical.byContradiction
    intro hf
    obtain ⟨h, hp⟩ := hs.processed
    have hne : r.serialize ++ following ≠ [] := by
      simp [hf]
    have hI : ∃ t, Stuck r u c.derived.processed following c.derived
        (c.socketBuffer.content ++ (r.serialize ++ following)) t := by
      refine ⟨.method, ?_, trivial, ?_, rfl⟩
      · rw [hb.content]
        rfl
      · rw [processor, hb.idle]
        exact shows_new _
    have step : ∀ d p, (∃ t, Stuck r u c.derived.processed following d p t) → p ≠ [] → ∃ d' n,
        dataProcessing u d (p ++ (Connection.readInto c.socketBuffer
          (r.serialize ++ following)).stale) p.length = some (d', n) ∧
          ((n ≤ p.length ∧ ∃ t, Stuck r u c.derived.processed following d' (p.drop n) t) ∨
            False) := by
      rintro d p ⟨t, hst⟩ -
      obtain ⟨d', n, he, hle, hst'⟩ := stuck_step hst hbody hgiven hf _
      exact ⟨d', n, he, .inl ⟨hle, hst'⟩⟩
    rcases read_rule (J := fun _ => False) _ rfl step (by simp) hb.fault hne hI with
      ⟨-, ⟨t, hst⟩, -⟩ | hJ
    · rw [hst.processed] at hp
      have hlen := hp.length_le
      rw [List.length_append, List.length_singleton] at hlen
      omega
    · exact hJ
  · rintro rfl
    exact alone_served hb r u

def lengthZero : Field :=
  { lengthThree with value := ascii "0", value_clear := clear_literal (by decide) }

def getEmpty : Request :=
  { getRoot with
    fields := [lengthZero]
    length_given := by
      simp only [List.mem_singleton, forall_eq]
      exact fun _ => ⟨by decide, List.all_eq_true.mp (by decide), by decide⟩
    body_absent := fun _ => rfl }

theorem empty_served : ServedThenFollowed getEmpty zeros zeroed [] :=
  (empty_body_served_iff zeroed_between ⟨lengthZero, by simp [getEmpty], rfl⟩ rfl).mpr rfl

/-- One byte behind the request keeps it from being dispatched. -/
theorem follower_blocks : ¬ ∀ (r : Request) (u : Uninitialised) (c : Connection HttpConnection)
    (following : List UInt8), Between c → (∃ f ∈ r.fields, f.IsLength) → r.body = [] →
    ServedThenFollowed r u c following := by
  intro h
  obtain ⟨_, hp⟩ := (h getEmpty zeros zeroed (ascii "G") zeroed_between
    ⟨lengthZero, by simp [getEmpty], rfl⟩ rfl).processed
  have hlen := hp.length_le
  have hnone : ((zeroed.stubConnRead (dataProcessing zeros)
    (getEmpty.serialize ++ ascii "G")).derived.processed).length = 0 := by decide +kernel
  rw [hnone, List.length_append] at hlen
  cases hlen

end Khorost.Request
