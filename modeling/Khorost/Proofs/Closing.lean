import Khorost.App.HttpTask

namespace Khorost

/-- Behind the closing of a connection nothing is dispatched or sent any more. -/
def SilentAfterClose (trace : List ConnectionEvent) : Prop :=
  trace.Pairwise fun e e' => e.isClosed = true → e'.isLoud = false

instance (trace : List ConnectionEvent) : Decidable (SilentAfterClose trace) :=
  inferInstanceAs (Decidable (List.Pairwise _ _))

def HasClosed (trace : List ConnectionEvent) : Prop := ∃ e ∈ trace, e.isClosed = true

theorem not_closed_append (h : ¬ HasClosed trace) (h' : ¬ HasClosed later) :
    ¬ HasClosed (trace ++ later) := by
  rintro ⟨e, he, hclosed⟩
  rcases List.mem_append.mp he with he | he
  · exact h ⟨e, he, hclosed⟩
  · exact h' ⟨e, he, hclosed⟩

theorem silent_of_not_closed (h : ¬ HasClosed trace) : SilentAfterClose trace :=
  List.Pairwise.imp_of_mem (fun he _ _ hclosed => absurd ⟨_, he, hclosed⟩ h)
    (List.pairwise_of_forall fun _ _ => trivial)

theorem silent_earlier (hp : trace <+: later) (h : SilentAfterClose later) :
    SilentAfterClose trace := List.Pairwise.sublist hp.sublist h

theorem silent_closed (h : ¬ HasClosed trace) : SilentAfterClose (trace ++ [.closed]) := by
  refine List.pairwise_append.mpr ⟨silent_of_not_closed h, List.pairwise_singleton .., ?_⟩
  intro e he e' _ hclosed
  exact absurd ⟨e, he, hclosed⟩ h

theorem not_silent (h : HasClosed trace) (hloud : e.isLoud = true)
    (hp : trace ++ [e] <+: later) : ¬ SilentAfterClose later := by
  intro hs
  obtain ⟨c, hc, hclosed⟩ := h
  have hpair := (List.pairwise_append.mp (silent_earlier hp hs)).2.2 c hc e (by simp) hclosed
  rw [hloud] at hpair
  cases hpair

namespace Answers

variable {processHttp : ProcessHttp σ}

/-- Reading goes on, and nothing has been closed. -/
structure Open (a : Answers σ) : Prop where
  bev : ∃ output, a.bev = some ⟨output, true, false⟩
  crashed : a.crashed = false
  trace : ¬ HasClosed a.trace

theorem opened_open (server : σ) : Open (opened server) :=
  ⟨⟨[], rfl⟩, rfl, fun ⟨_, he, _⟩ => nomatch he⟩

theorem Open.reading {a : Answers σ} (h : Open a) : a.reading = true := by
  obtain ⟨output, hbev⟩ := h.bev
  rw [Answers.reading, hbev]
  rfl

theorem send_all {a : Answers σ} {r w : Bool} (hbev : a.bev = some ⟨output, r, w⟩)
    (sends : List (List UInt8)) :
    sends.foldl sendData a = { a with
      bev := some ⟨output ++ sends.flatten, r, w⟩
      trace := a.trace ++ sends.map .sent } := by
  induction sends generalizing a output with
  | nil => simp [← hbev]
  | cons bytes sends ih =>
    have hsend : a.sendData bytes = { a with
        bev := some ⟨output ++ bytes, r, w⟩
        trace := a.trace ++ [.sent bytes] } := by
      rw [sendData, hbev]
    rw [List.foldl_cons, hsend, ih rfl]
    simp

/-- What `processing` has come to when it looks at `is_auto_close`. -/
def answered (processHttp : ProcessHttp σ) (a : Answers σ) (h : HttpHeader)
    (output : List UInt8) : Answers σ :=
  let answer := processHttp a.server h
  { a with
    server := answer.server
    bev := some ⟨output ++ answer.sends.flatten, true, false⟩
    trace := a.trace ++ (.dispatched h :: answer.sends.map .sent) }

theorem processing_eq {a : Answers σ} (hbev : a.bev = some ⟨output, true, false⟩)
    (h : HttpHeader) : a.processing processHttp h =
      if (processHttp a.server h).autoClose then (a.answered processHttp h output).closeConnection
      else a.answered processHttp h output := by
  have hsends := send_all (a := { a with
    server := (processHttp a.server h).server
    trace := a.trace ++ [.dispatched h] }) hbev (processHttp a.server h).sends
  simp only [List.append_assoc, List.singleton_append] at hsends
  rw [processing, hsends]
  rfl

theorem not_closed_answered {a : Answers σ} (ht : ¬ HasClosed a.trace) :
    ¬ HasClosed (a.answered processHttp h output).trace := by
  refine not_closed_append ht ?_
  rintro ⟨e, he, hclosed⟩
  rcases List.mem_cons.mp he with rfl | he
  · cases hclosed
  · obtain ⟨bytes, -, rfl⟩ := List.mem_map.mp he
    cases hclosed

theorem close_some {a : Answers σ} {bev : Bufferevent} (hbev : a.bev = some bev) :
    a.closeConnection.trace = a.trace ++ [.closed] ∧ a.closeConnection.reading = false ∧
      a.closeConnection.crashed = a.crashed ∧ a.closeConnection.server = a.server := by
  simp only [closeConnection, hbev]
  split
  · exact ⟨rfl, rfl, rfl, rfl⟩
  · exact ⟨rfl, rfl, rfl, rfl⟩

/-- An answer without a close leaves the connection open. -/
theorem Open.processing {a : Answers σ} (ho : Open a)
    (hauto : (processHttp a.server h).autoClose = false) :
    Open (a.processing processHttp h) := by
  obtain ⟨output, hbev⟩ := ho.bev
  rw [processing_eq hbev, hauto]
  exact ⟨⟨_, rfl⟩, ho.crashed, not_closed_answered ho.trace⟩

/-- An answer with a close ends the reading, and is the last of what the connection
has to show. -/
theorem Open.processing_close {a : Answers σ} (ho : Open a)
    (hauto : (processHttp a.server h).autoClose = true) :
    (a.processing processHttp h).reading = false ∧ (a.processing processHttp h).crashed = false ∧
      HasClosed (a.processing processHttp h).trace ∧
      SilentAfterClose (a.processing processHttp h).trace := by
  obtain ⟨output, hbev⟩ := ho.bev
  have hquiet : ¬ HasClosed (a.answered processHttp h output).trace := not_closed_answered ho.trace
  obtain ⟨htrace, hread, hcrash, -⟩ := close_some (rfl :
    (a.answered processHttp h output).bev = some _)
  rw [processing_eq hbev, hauto, if_pos rfl, htrace]
  exact ⟨hread, hcrash.trans ho.crashed, ⟨.closed, by simp, rfl⟩, silent_closed hquiet⟩

theorem send_kept (a : Answers σ) (bytes : List UInt8) :
    a.trace <+: (a.sendData bytes).trace ∧ (a.reading = false → (a.sendData bytes).reading = false) ∧
      (a.sendData bytes).server = a.server := by
  unfold sendData reading
  cases a.bev with
  | none => exact ⟨List.prefix_rfl, fun _ => rfl, rfl⟩
  | some bev => exact ⟨List.prefix_append _ _, fun h => h, rfl⟩

theorem sends_kept (a : Answers σ) (sends : List (List UInt8)) :
    a.trace <+: (sends.foldl sendData a).trace ∧
      (a.reading = false → (sends.foldl sendData a).reading = false) ∧
      (sends.foldl sendData a).server = a.server := by
  induction sends generalizing a with
  | nil => exact ⟨List.prefix_rfl, id, rfl⟩
  | cons bytes sends ih =>
    obtain ⟨htrace, hread, hserver⟩ := send_kept a bytes
    obtain ⟨htrace', hread', hserver'⟩ := ih (a.sendData bytes)
    exact ⟨htrace.trans htrace', fun h => hread' (hread h), hserver'.trans hserver⟩

theorem close_kept (a : Answers σ) :
    a.trace <+: a.closeConnection.trace ∧ a.closeConnection.reading = false ∧
      a.closeConnection.server = a.server := by
  cases hbev : a.bev with
  | none =>
    have hcrash : a.closeConnection = { a with crashed := true } := by
      rw [closeConnection, hbev]
    rw [hcrash, reading, hbev]
    exact ⟨List.prefix_rfl, rfl, rfl⟩
  | some bev =>
    obtain ⟨htrace, hread, -, hserver⟩ := close_some hbev
    rw [htrace]
    exact ⟨List.prefix_append _ _, hread, hserver⟩

/-- Whatever has become of the connection, the request has been dispatched. -/
theorem processing_kept (processHttp : ProcessHttp σ) (a : Answers σ) (h : HttpHeader) :
    a.trace ++ [.dispatched h] <+: (a.processing processHttp h).trace ∧
      (a.reading = false → (a.processing processHttp h).reading = false) ∧
      (a.processing processHttp h).server = (processHttp a.server h).server := by
  obtain ⟨htrace, hread, hserver⟩ := sends_kept { a with
    server := (processHttp a.server h).server
    trace := a.trace ++ [.dispatched h] } (processHttp a.server h).sends
  rw [processing]
  split
  · obtain ⟨htrace', hread', hserver'⟩ := close_kept ((processHttp a.server h).sends.foldl sendData
      { a with
        server := (processHttp a.server h).server
        trace := a.trace ++ [.dispatched h] })
    exact ⟨htrace.trans htrace', fun _ => hread', hserver'.trans hserver⟩
  · exact ⟨htrace, hread, hserver⟩

/-- One request after the other, as long as the program runs. -/
def answerAll (processHttp : ProcessHttp σ) (a : Answers σ) : List HttpHeader → Answers σ
  | [] => a
  | h :: hs =>
    let a := a.processing processHttp h
    if a.crashed then a else answerAll processHttp a hs

theorem answer_all_kept (a : Answers σ) (hs : List HttpHeader) :
    a.trace <+: (a.answerAll processHttp hs).trace ∧
      (a.reading = false → (a.answerAll processHttp hs).reading = false) := by
  induction hs generalizing a with
  | nil => exact ⟨List.prefix_rfl, id⟩
  | cons h hs ih =>
    obtain ⟨htrace, hread, -⟩ := processing_kept processHttp a h
    have hfirst := (List.prefix_append a.trace _).trans htrace
    rw [answerAll]
    split
    · exact ⟨hfirst, hread⟩
    · obtain ⟨htrace', hread'⟩ := ih (a.processing processHttp h)
      exact ⟨hfirst.trans htrace', fun h => hread' (hread h)⟩

def autoCloses (processHttp : ProcessHttp σ) (server : σ) : List HttpHeader → List Bool
  | [] => []
  | h :: hs =>
    (processHttp server h).autoClose :: autoCloses processHttp (processHttp server h).server hs

def serverAfter (processHttp : ProcessHttp σ) (server : σ) (hs : List HttpHeader) : σ :=
  hs.foldl (fun server h => (processHttp server h).server) server

theorem Open.answer_all {a : Answers σ} (ho : Open a) (hs : List HttpHeader)
    (hauto : true ∉ autoCloses processHttp a.server hs) :
    Open (a.answerAll processHttp hs) ∧
      (a.answerAll processHttp hs).server = serverAfter processHttp a.server hs := by
  induction hs generalizing a with
  | nil => exact ⟨ho, rfl⟩
  | cons h hs ih =>
    rw [autoCloses, List.mem_cons, not_or] at hauto
    have hkeep : (processHttp a.server h).autoClose = false := by
      simpa using hauto.1
    have ho' := ho.processing hkeep
    have hserver := (processing_kept processHttp a h).2.2
    have hrest := ih ho' (by rw [hserver]; exact hauto.2)
    rw [answerAll, ho'.crashed]
    rw [hserver] at hrest
    exact hrest

/-- With a close among them all is silent behind it if it is the last of them. -/
theorem Open.answer_all_close {a : Answers σ} (ho : Open a) (hs : List HttpHeader)
    (hauto : true ∈ autoCloses processHttp a.server hs) :
    (a.answerAll processHttp hs).reading = false ∧
      (SilentAfterClose (a.answerAll processHttp hs).trace ↔
        true ∉ (autoCloses processHttp a.server hs).dropLast) := by
  induction hs generalizing a with
  | nil => cases hauto
  | cons h hs ih =>
    obtain ⟨-, -, hserver⟩ := processing_kept processHttp a h
    rw [autoCloses] at hauto ⊢
    cases hclose : (processHttp a.server h).autoClose with
    | false =>
      have ho' := ho.processing hclose
      have hlater : true ∈ autoCloses processHttp (a.processing processHttp h).server hs := by
        rw [hserver]
        simpa [hclose] using hauto
      obtain ⟨hread, hsilent⟩ := ih ho' hlater
      rw [answerAll, ho'.crashed]
      refine ⟨hread, hsilent.trans ?_⟩
      rw [hserver] at hlater ⊢
      rw [List.dropLast_cons_of_ne_nil (List.ne_nil_of_mem hlater)]
      simp
    | true =>
      obtain ⟨hread, hcrash, hclosed, hsilent⟩ := ho.processing_close hclose
      rw [answerAll, hcrash]
      refine ⟨(answer_all_kept _ hs).2 hread, ?_⟩
      cases hs with
      | nil => exact iff_of_true hsilent (by simp [autoCloses])
      | cons h' hs =>
        refine iff_of_false (not_silent (e := .dispatched h') hclosed rfl ?_) (by simp [autoCloses])
        obtain ⟨hnext, -, -⟩ :=
          processing_kept processHttp (a.processing processHttp h) h'
        simp only [Bool.false_eq_true, if_false, answerAll]
        split
        · exact hnext
        · exact hnext.trans (answer_all_kept _ hs).1

end Answers

namespace Conversation

open Answers

variable {u : Uninitialised} {processHttp : ProcessHttp σ}

/-- A call does what it does without the answers, and answers the request that
has become ready, if any. -/
theorem data_processing_cases (u : Uninitialised) (processHttp : ProcessHttp σ)
    (c : Conversation σ) (buffer : List UInt8) (size : Nat) :
    (HttpConnection.dataProcessing u c.http buffer size = none ∧
      dataProcessing u processHttp c buffer size = none) ∨
    (∃ d n, HttpConnection.dataProcessing u c.http buffer size = some (d, n) ∧
      d.processed = c.http.processed ∧
      dataProcessing u processHttp c buffer size = some (⟨d, c.answers⟩, n)) ∨
    ∃ d n request, HttpConnection.dataProcessing u c.http buffer size = some (d, n) ∧
      d.processed = c.http.processed ++ [request] ∧ n ≠ 0 ∧
      dataProcessing u processHttp c buffer size =
        some (⟨d, c.answers.processing processHttp request.1⟩,
          if (c.answers.processing processHttp request.1).crashed then 0 else n) := by
  cases he : (c.http.processor u).processData buffer size (u.chunkSize c.http.calls) with
  | none =>
    refine .inl ⟨?_, ?_⟩
    · rw [HttpConnection.dataProcessing, he]
      rfl
    · simp only [dataProcessing, he]
      rfl
  | some result =>
    obtain ⟨h, n⟩ := result
    right
    by_cases hready : n ≠ 0 ∧ h.isReady = true
    · refine .inr ⟨_, n, (h, c.http.taken + n), HttpConnection.processing_serves he hready, rfl,
        hready.1, ?_⟩
      simp only [dataProcessing, he, Option.bind_eq_bind, Option.bind_some]
      rw [if_pos hready]
    · refine .inl ⟨_, n, HttpConnection.processing_waits he hready, rfl, ?_⟩
      simp only [dataProcessing, he, Option.bind_eq_bind, Option.bind_some]
      rw [if_neg hready]

/-- The loop answers the requests it would find without the answers, and then
stands where it would have stood, unless the program has ended. -/
theorem compile_loop_answers (u : Uninitialised) (processHttp : ProcessHttp σ)
    (memory : List UInt8) (fill fuel s : Nat) (d : HttpConnection)
    (a : Answers σ) (ha : a.crashed = false) :
    ∃ requests, (compileLoop (HttpConnection.dataProcessing u) memory fill fuel s d).1.processed =
        d.processed ++ requests ∧
      (compileLoop (dataProcessing u processHttp) memory fill fuel s ⟨d, a⟩).1.answers =
        a.answerAll processHttp (requests.map Prod.fst) ∧
      ((compileLoop (dataProcessing u processHttp) memory fill fuel s ⟨d, a⟩).1.answers.crashed =
          false →
        (compileLoop (dataProcessing u processHttp) memory fill fuel s ⟨d, a⟩).1.http =
            (compileLoop (HttpConnection.dataProcessing u) memory fill fuel s d).1 ∧
          (compileLoop (dataProcessing u processHttp) memory fill fuel s ⟨d, a⟩).2 =
            (compileLoop (HttpConnection.dataProcessing u) memory fill fuel s d).2) := by
  induction fuel generalizing s d a with
  | zero => exact ⟨[], (List.append_nil _).symm, rfl, fun _ => ⟨rfl, rfl⟩⟩
  | succ fuel ih =>
    by_cases hs : s < fill
    · simp only [compileLoop, if_pos hs]
      rcases data_processing_cases u processHttp ⟨d, a⟩ (memory.drop s)
        (fill - s) with ⟨hbase, hcall⟩ | ⟨d', n, hbase, hsame, hcall⟩ |
          ⟨d', n, request, hbase, hmore, hn, hcall⟩
      · rw [hbase, hcall]
        exact ⟨[], (List.append_nil _).symm, rfl, fun _ => ⟨rfl, rfl⟩⟩
      · rw [hbase, hcall]
        dsimp only at hsame ⊢
        by_cases hn : n = 0
        · simp only [if_pos hn]
          exact ⟨[], by rw [hsame, List.append_nil], rfl, fun _ => ⟨trivial, trivial⟩⟩
        · simp only [if_neg hn]
          rw [← hsame]
          exact ih (s + n) d' a ha
      · rw [hbase, hcall]
        dsimp only at hmore ⊢
        rw [if_neg hn]
        cases hcrash : (a.processing processHttp request.1).crashed with
        | true =>
          obtain ⟨later, hlater⟩ := compile_loop_keep (J := fun d => d'.processed <+: d.processed)
            (fun _ _ _ _ _ hkept hdp => hkept.trans (HttpConnection.processed_kept hdp))
            memory fill fuel (s + n) d' List.prefix_rfl
          refine ⟨request :: later, ?_, ?_, ?_⟩
          · rw [← hlater, hmore, List.append_assoc, List.singleton_append]
          · simp only [if_true, List.map_cons, answerAll, hcrash]
          · simp only [if_true, hcrash]
            intro h0
            cases h0
        | false =>
          obtain ⟨later, hlater, hanswers, hhttp⟩ := ih (s + n) d' _ hcrash
          simp only [Bool.false_eq_true, if_false, if_neg hn]
          refine ⟨request :: later, ?_, ?_, hhttp⟩
          · rw [hlater, hmore, List.append_assoc, List.singleton_append]
          · simp only [hanswers, List.map_cons, answerAll, hcrash, Bool.false_eq_true, if_false]
    · simp only [compileLoop, if_neg hs]
      exact ⟨[], (List.append_nil _).symm, rfl, fun _ => ⟨trivial, trivial⟩⟩

/-- The requests that become ready between two states of the parsing. -/
def completed (before after : Connection HttpConnection) : List HttpHeader :=
  (after.derived.processed.drop before.derived.processed.length).map Prod.fst

theorem compile_buffer_parsing {c : Connection (Conversation σ)}
    (hhttp : (compileLoop (dataProcessing u processHttp) c.socketBuffer.buffer
        c.socketBuffer.fillSize c.socketBuffer.fillSize 0 c.derived).1.http =
      (compileLoop (HttpConnection.dataProcessing u) c.socketBuffer.buffer
        c.socketBuffer.fillSize c.socketBuffer.fillSize 0 c.derived.http).1)
    (hresult : (compileLoop (dataProcessing u processHttp) c.socketBuffer.buffer
        c.socketBuffer.fillSize c.socketBuffer.fillSize 0 c.derived).2 =
      (compileLoop (HttpConnection.dataProcessing u) c.socketBuffer.buffer
        c.socketBuffer.fillSize c.socketBuffer.fillSize 0 c.derived.http).2) :
    parsing (c.compileBufferData (dataProcessing u processHttp)) =
      (parsing c).compileBufferData (HttpConnection.dataProcessing u) := by
  simp only [Connection.compileBufferData, parsing]
  generalize compileLoop (dataProcessing u processHttp) _ _ _ _ _ = full at hhttp hresult ⊢
  generalize compileLoop (HttpConnection.dataProcessing u) _ _ _ _ _ = base at hhttp hresult ⊢
  obtain ⟨d, s⟩ := full
  obtain ⟨d', s'⟩ := base
  dsimp only at hhttp hresult
  subst hhttp hresult
  cases s with
  | none => rfl
  | some s => rfl

theorem compile_buffer_answers (u : Uninitialised) (processHttp : ProcessHttp σ)
    (c : Connection (Conversation σ)) (ha : c.derived.answers.crashed = false) :
    (c.compileBufferData (dataProcessing u processHttp)).derived.answers =
        c.derived.answers.answerAll processHttp (completed (parsing c)
          ((parsing c).compileBufferData (HttpConnection.dataProcessing u))) ∧
      ((c.compileBufferData (dataProcessing u processHttp)).derived.answers.crashed = false →
        parsing (c.compileBufferData (dataProcessing u processHttp)) =
          (parsing c).compileBufferData (HttpConnection.dataProcessing u)) := by
  obtain ⟨b, receiveBytes, fault, d, a⟩ := c
  obtain ⟨requests, hmore, hanswers, hsame⟩ :=
    compile_loop_answers u processHttp b.buffer b.fillSize b.fillSize 0 d a ha
  have hlist : completed (parsing ⟨b, receiveBytes, fault, d, a⟩)
      ((parsing ⟨b, receiveBytes, fault, d, a⟩).compileBufferData
        (HttpConnection.dataProcessing u)) = requests.map Prod.fst := by
    rw [completed, Connection.compile_buffer_derived]
    dsimp only [parsing]
    rw [hmore, List.drop_left]
  rw [hlist, Connection.compile_buffer_derived]
  refine ⟨hanswers, fun hcrash => ?_⟩
  obtain ⟨hhttp, hresult⟩ := hsame hcrash
  exact compile_buffer_parsing hhttp hresult

theorem read_answers (u : Uninitialised) (processHttp : ProcessHttp σ)
    (c : Connection (Conversation σ)) (data : List UInt8)
    (ha : c.derived.answers.crashed = false) :
    (c.stubConnRead (dataProcessing u processHttp) data).derived.answers =
        c.derived.answers.answerAll processHttp (completed (parsing c)
          ((parsing c).stubConnRead (HttpConnection.dataProcessing u) data)) ∧
      ((c.stubConnRead (dataProcessing u processHttp) data).derived.answers.crashed = false →
        parsing (c.stubConnRead (dataProcessing u processHttp) data) =
          (parsing c).stubConnRead (HttpConnection.dataProcessing u) data) := by
  have hnone : c.derived.answers =
      c.derived.answers.answerAll processHttp (completed (parsing c) (parsing c)) := by
    rw [completed, List.drop_length]
    rfl
  unfold Connection.stubConnRead
  by_cases hfault : c.fault = true
  · rw [if_pos hfault, if_pos (show (parsing c).fault = true from hfault)]
    exact ⟨hnone, fun _ => rfl⟩
  · rw [if_neg hfault, if_neg (show ¬ (parsing c).fault = true from hfault)]
    by_cases hdata : data.length ≠ 0
    · rw [if_pos hdata, if_pos hdata]
      exact compile_buffer_answers u processHttp { c with
        socketBuffer := Connection.readInto c.socketBuffer data
        receiveBytes := c.receiveBytes + data.length } ha
    · rw [if_neg hdata, if_neg hdata]
      exact ⟨hnone, fun _ => rfl⟩

/-- Of the requests that one arrival completes only the last is answered with a
close. What comes behind an arrival with such an answer does not count. -/
def NoneBehind (u : Uninitialised) (processHttp : ProcessHttp σ) :
    σ → Connection HttpConnection → List Happening → Prop
  | _, _, [] => True
  | _, _, .ended :: _ => True
  | server, c, .flushed _ :: later => NoneBehind u processHttp server c later
  | server, c, .arrived data :: later =>
    let c' := c.stubConnRead (HttpConnection.dataProcessing u) data
    let closes := autoCloses processHttp server (completed c c')
    true ∉ closes.dropLast ∧ (true ∉ closes →
      NoneBehind u processHttp (serverAfter processHttp server (completed c c')) c' later)

theorem step_closed (u : Uninitialised) (processHttp : ProcessHttp σ)
    (c : Connection (Conversation σ)) (hread : c.derived.answers.reading = false)
    (happening : Happening) :
    (step u processHttp c happening).derived.answers.reading = false ∧
      (step u processHttp c happening).derived.answers.trace = c.derived.answers.trace := by
  cases happening with
  | arrived data =>
    rw [step, if_neg (by rw [hread]; exact Bool.false_ne_true)]
    exact ⟨hread, rfl⟩
  | flushed n =>
    have hflush : (c.derived.answers.flushed n).reading = false ∧
        (c.derived.answers.flushed n).trace = c.derived.answers.trace := by
      unfold flushed reading at *
      cases hbev : c.derived.answers.bev with
      | none => exact ⟨by rw [hbev]; rfl, rfl⟩
      | some bev =>
        rw [hbev] at hread
        dsimp only
        split
        · exact ⟨rfl, rfl⟩
        · exact ⟨hread, rfl⟩
    exact hflush
  | ended => exact ⟨rfl, rfl⟩

theorem run_closed (happenings : List Happening) (c : Connection (Conversation σ))
    (hread : c.derived.answers.reading = false) :
    (happenings.foldl (step u processHttp) c).derived.answers.trace =
      c.derived.answers.trace := by
  induction happenings generalizing c with
  | nil => rfl
  | cons happening happenings ih =>
    obtain ⟨hread', htrace⟩ := step_closed u processHttp c hread happening
    rw [List.foldl_cons, ih _ hread', htrace]

theorem silent_from_iff (happenings : List Happening) (c : Connection (Conversation σ))
    (ho : Open c.derived.answers) :
    SilentAfterClose (happenings.foldl (step u processHttp) c).derived.answers.trace ↔
      NoneBehind u processHttp c.derived.answers.server (parsing c) happenings := by
  induction happenings generalizing c with
  | nil => exact iff_of_true (silent_of_not_closed ho.trace) trivial
  | cons happening happenings ih =>
    rw [List.foldl_cons]
    cases happening with
    | arrived data =>
      obtain ⟨hanswers, hparsing⟩ :=
        read_answers u processHttp c data ho.crashed
      rw [step, if_pos ho.reading]
      dsimp only [NoneBehind]
      by_cases hauto : true ∈ autoCloses processHttp c.derived.answers.server (completed
          (parsing c) ((parsing c).stubConnRead (HttpConnection.dataProcessing u) data))
      · obtain ⟨hread, hsilent⟩ := ho.answer_all_close _ hauto
        rw [← hanswers] at hread hsilent
        rw [run_closed happenings _ hread, hsilent]
        exact ⟨fun h => ⟨h, fun hno => absurd hauto hno⟩, And.left⟩
      · obtain ⟨ho', hserver⟩ := ho.answer_all _ hauto
        rw [← hanswers] at ho' hserver
        rw [ih _ ho', hserver, hparsing ho'.crashed]
        exact ⟨fun h => ⟨fun hin => hauto ((List.dropLast_sublist _).subset hin), fun _ => h⟩,
          fun h => h.2 hauto⟩
    | flushed n =>
      obtain ⟨output, hbev⟩ := ho.bev
      have hflush : c.derived.answers.flushed n = { c.derived.answers with
          bev := some ⟨output.drop n, true, false⟩ } := by
        rw [flushed, hbev]
        exact if_neg (fun h => by cases h.1)
      have hserver : (step u processHttp c (.flushed n)).derived.answers.server =
          c.derived.answers.server := by
        rw [step, hflush]
      have ho' : Open (step u processHttp c (.flushed n)).derived.answers := by
        rw [step, hflush]
        exact ⟨⟨_, rfl⟩, ho.crashed, ho.trace⟩
      rw [ih _ ho', hserver]
      rfl
    | ended =>
      rw [run_closed happenings _ rfl]
      exact iff_of_true (silent_of_not_closed ho.trace) trivial

/-- Nothing is dispatched or sent behind a close if and only if no arrival has a
complete request behind the one that is answered with it. -/
theorem silent_after_close_iff (u : Uninitialised) (processHttp : ProcessHttp σ)
    (fresh : Nat → UInt8) (server : σ) (happenings : List Happening) :
    SilentAfterClose (run u processHttp fresh server happenings).derived.answers.trace ↔
      NoneBehind u processHttp server (Connection.idle fresh HttpConnection.start) happenings :=
  silent_from_iff happenings _ (opened_open server)

/-- Two requests without a version that keeps the connection open, in one arrival:
the second one is answered on the connection that the first one has closed. -/
theorem answered_after_close : ¬ ∀ (u : Uninitialised) (processHttp : ProcessHttp Unit)
    (fresh : Nat → UInt8) (happenings : List Happening),
    SilentAfterClose (run u processHttp fresh () happenings).derived.answers.trace := by
  intro h
  refine absurd (h ⟨fun _ _ => 0, fun _ => 0⟩
    (fun _ _ => ⟨(), [ascii "HTTP/1.0 200 Ok\r\n\r\n"], true⟩) (fun _ => 0)
    [.arrived (ascii "GET /a HTTP/1.0\r\n\r\nGET /b HTTP/1.0\r\n\r\n")]) ?_
  decide +kernel

end Conversation

end Khorost
