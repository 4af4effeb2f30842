import Khorost.Lib.Latest
import Khorost.Proofs.Arrivals
import Khorost.Proofs.HbResponses
import Khorost.Proofs.PairLists
import Khorost.Proofs.RoundTrip

namespace Khorost

open Messages

def setCookieName : List UInt8 := ascii "Set-Cookie: "

/-- What a line of a response sets: the name before the first equals sign, and the value
from there to the first semicolon. -/
def cookieSet (line : List UInt8) : Option (List UInt8 × List UInt8) :=
  if setCookieName.isPrefixOf line then
    let pair := (line.drop setCookieName.length).takeWhile (· ≠ semicolon)
    some (pair.takeWhile (· ≠ equals), (pair.dropWhile (· ≠ equals)).drop 1)
  else none

/-- The cookies that a client has after the headers of some responses, of which the
first lines are the status lines. -/
def cookiesKept (heads : List (List (List UInt8))) : List (List UInt8 × List UInt8) :=
  Latest.putAll (heads.flatMap fun lines => (lines.drop 1).filterMap cookieSet)

/-- The lines that a client reads in the head of a response. -/
def linesRead (sent : SentResponse) : List (List UInt8) :=
  ((readLines cr lf [] sent.head.flatten).map (·.1)).getD []

/-- The value of the `Cookie` header with which it sends them back. -/
def cookieHeader (kept : List (List UInt8 × List UInt8)) : List UInt8 :=
  (ascii "; ").intercalate (kept.map fun p => pairText (p.1, some p.2))

theorem split_text_spaced (div : UInt8) (rest done : List UInt8) (v : Option Nat) :
    splitText div true rest (space :: done) 0 v = splitText div true rest (space :: done) 1 v := by
  have htrimmed : ∀ done, trimmed true (space :: done) 0 = trimmed true (space :: done) 1 := by
    intro done
    simp [trimmed]
    omega
  induction rest generalizing done v with
  | nil => simp [splitText, htrimmed]
  | cons c rest ih =>
    simp only [splitText, List.cons_append, htrimmed, ih]

theorem pairs_of_spaced (hspace : div ≠ space) (text : List UInt8) :
    pairsOf div true (space :: text) = pairsOf div true text := by
  have hsplit : splitText div true (space :: text) [] 0 none =
      (space :: (splitText div true text [] 0 none).1,
        (splitText div true text [] 0 none).2.map (movePair 1)) := by
    rw [splitText, if_neg hspace.symm, if_neg (by decide), List.nil_append, split_text_spaced]
    exact split_text_shift div true text [space] [] 0 none
  rw [pairs_of_eq, pairs_of_eq, hsplit, List.map_map]
  apply List.map_congr_left
  intro p hp
  exact read_pair_behind [space] _ p

/-- A cookie that a `Cookie` header can carry to `parse_string`. -/
structure Storable (p : List UInt8 × List UInt8) : Prop where
  name_clear : ∀ b ∈ p.1, b ∉ [semicolon, equals, nul]
  name_start : p.1.head? ≠ some space
  value_clear : ∀ b ∈ p.2, b ∉ [semicolon, equals, nul]

theorem Storable.pairs (h : Storable p) :
    pairsOf semicolon true (pairText (p.1, some p.2)) = [(p.1, some p.2)] := by
  apply pairs_of_pair _ (by decide)
  · intro value hvalue hin
    obtain rfl := Option.some.inj hvalue
    exact h.value_clear equals hin (by simp)
  · refine ⟨h.name_clear, fun _ => h.name_start, ?_⟩
    intro value hvalue b hb hin
    obtain rfl := Option.some.inj hvalue
    apply h.value_clear b hb
    simp only [List.mem_cons, List.not_mem_nil, or_false] at hin ⊢
    exact hin.imp_right .inr

/-- The cookies of the header are those that were kept. -/
theorem header_pairs (h : ∀ p ∈ kept, Storable p) (hne : kept ≠ []) :
    pairsOf semicolon true (cookieHeader kept) = kept.map fun p => (p.1, some p.2) := by
  induction kept with
  | nil => exact absurd rfl hne
  | cons p kept ih =>
    have hp := (h p List.mem_cons_self).pairs
    cases kept with
    | nil => simpa [cookieHeader] using hp
    | cons p' kept =>
      have hjoin : cookieHeader (p :: p' :: kept) =
          pairText (p.1, some p.2) ++ semicolon :: space :: cookieHeader (p' :: kept) := by
        simp [cookieHeader, List.intercalate_cons_cons, ascii]
      rw [hjoin, pairs_of_join, hp, pairs_of_spaced (by decide),
        ih (fun q hq => h q (List.mem_cons_of_mem _ hq)) (by simp)]
      rfl

/-- The pairs of a request with the one `Cookie` header. -/
theorem cookies_of_field (fields : List Field)
    (h : fields.filter (fun f => f.key = ascii "Cookie") = [field]) :
    cookiesOf (fields.map fun f => (f.key, f.text)) = pairsOf semicolon true field.text := by
  have hfilter : cookiesOf (fields.map fun f => (f.key, f.text)) =
      (fields.filter fun f => f.key = ascii "Cookie").flatMap fun f =>
        pairsOf semicolon true f.text := by
    clear h
    induction fields with
    | nil => rfl
    | cons f fields ih =>
      simp only [cookiesOf, List.map_cons, List.flatMap_cons] at ih ⊢
      rw [ih]
      by_cases hkey : f.key = ascii "Cookie"
      · simp [hkey]
      · simp [hkey]
  simp [hfilter, h]

theorem header_start (h : ∀ p ∈ kept, Storable p) : (cookieHeader kept).head? ≠ some space := by
  have hpair : ∀ p, Storable p → ∀ rest, (p.1 ++ equals :: rest).head? ≠ some space := by
    intro p hp rest
    cases hname : p.1 with
    | nil => simp; decide
    | cons c name => simpa [hname] using hp.name_start
  cases kept with
  | nil => simp [cookieHeader]
  | cons p kept =>
    cases kept with
    | nil => simpa [cookieHeader, pairText] using hpair p (h p (by simp)) p.2
    | cons p' kept =>
      have hfirst := hpair p (h p (by simp)) (p.2 ++ ascii "; " ++ cookieHeader (p' :: kept))
      simpa [cookieHeader, List.intercalate_cons_cons, pairText] using hfirst

theorem lookup_kept (h : ∀ p ∈ kept, Storable p) (key : List UInt8) (d : Option (List UInt8)) :
    lookupPair (pairsOf semicolon true (cookieHeader kept)) key d =
      (kept.find? fun p => strcaseEq key p.1).elim d fun p => some p.2 := by
  by_cases hne : kept = []
  · subst hne
    have hempty : pairsOf semicolon true (cookieHeader []) = [([], none)] := rfl
    rw [hempty, lookupPair]
    by_cases hkey : strcaseEq key [] <;> simp [hkey]
  · rw [header_pairs h hne, lookupPair, List.find?_map]
    simp only [Function.comp_def]
    cases kept.find? fun p => strcaseEq key p.1 with
    | none => rfl
    | some p => rfl

theorem cookie_line_set {c : Cookie} (h : Storable (c.nameCookie, c.value)) :
    cookieSet (HttpProcessor.cookieLine c) = some (c.nameCookie, c.value) := by
  have hline : HttpProcessor.cookieLine c = setCookieName ++ (c.nameCookie ++ equals :: (c.value ++
      semicolon :: (ascii " Expires=" ++
        strftime (gmtime c.expire) (ascii "%a, %d-%b-%Y %H:%M:%S GMT") ++ ascii "; Domain=." ++
        c.domain ++ ascii "; Path=/" ++ (if c.httpOnly then ascii "; HttpOnly " else [])))) := by
    simp [HttpProcessor.cookieLine, setCookieName, ascii]
  have hname : ∀ b ∈ c.nameCookie, b ≠ semicolon ∧ b ≠ equals := by
    intro b hb
    have hclear := h.name_clear b hb
    simp only [List.mem_cons, not_or] at hclear
    exact ⟨hclear.1, hclear.2.1⟩
  have hvalue : ∀ b ∈ c.value, b ≠ semicolon := by
    intro b hb he
    exact h.value_clear b hb (by simp [he])
  have hpair : ∀ rest, (c.nameCookie ++ equals :: (c.value ++ semicolon :: rest)).takeWhile
      (· ≠ semicolon) = c.nameCookie ++ equals :: c.value := by
    intro rest
    rw [List.takeWhile_append_of_pos (by simpa using fun b hb => (hname b hb).1),
      List.takeWhile_cons_of_pos (by decide), List.takeWhile_append_of_pos (by simpa using hvalue)]
    simp
  have hkey : (c.nameCookie ++ equals :: c.value).takeWhile (· ≠ equals) = c.nameCookie := by
    rw [List.takeWhile_append_of_pos (by simpa using fun b hb => (hname b hb).2)]
    simp
  have hrest : (c.nameCookie ++ equals :: c.value).dropWhile (· ≠ equals) = equals :: c.value := by
    rw [List.dropWhile_append_of_pos (by simpa using fun b hb => (hname b hb).2)]
    simp
  have hnamed : setCookieName.isPrefixOf (HttpProcessor.cookieLine c) = true := by
    rw [hline, List.isPrefixOf_iff_prefix]
    exact List.prefix_append _ _
  rw [cookieSet, if_pos hnamed]
  simp only [hline, List.drop_left, hpair, hkey, hrest, List.drop_one, List.tail_cons]

theorem cookie_none (h : setCookieName.isPrefixOf line = false) : cookieSet line = none := by
  simp [cookieSet, h]

/-- The other lines set no cookie, if no header parameter is called so. -/
theorem head_cookies {r : Response} (version connection : List UInt8) (now : Int)
    (hcookies : ∀ c ∈ r.cookies, Storable (c.nameCookie, c.value))
    (hparams : ∀ p ∈ r.headerParams, cookieSet (p.1 ++ ascii ": " ++ p.2) = none) :
    ((HttpProcessor.headLines r version connection now).drop 1).filterMap cookieSet =
      r.cookies.map fun c => (c.nameCookie, c.value) := by
  have hnamed : ∀ name s, ¬ setCookieName <+: name → ¬ name <+: setCookieName →
      cookieSet (name ++ s) = none :=
    fun name s h h' => cookie_none (other_name h h' s)
  have hserver : cookieSet (ascii "Server: phreeber") = none := by decide
  have hdate := fun s => hnamed (ascii "Date: ") s (by decide) (by decide)
  have hlocation := fun s => hnamed (ascii "Location: ") s (by decide) (by decide)
  have hconnection := fun s => hnamed (ascii "Connection: ") s (by decide) (by decide)
  have htype := fun s => hnamed (ascii "Content-Type: ") s (by decide) (by decide)
  have hdisposition := fun s => hnamed (ascii "Content-Disposition: ") s (by decide) (by decide)
  have hlength := fun s => hnamed (ascii "Content-Length: ") s (by decide) (by decide)
  have hmodified := fun s => hnamed (ascii "Last-Modified: ") s (by decide) (by decide)
  have hset : (r.cookies.map HttpProcessor.cookieLine).filterMap cookieSet =
      r.cookies.map fun c => (c.nameCookie, c.value) := by
    rw [List.filterMap_map, ← List.filterMap_eq_map]
    apply List.filterMap_congr
    intro c hc
    exact cookie_line_set (hcookies c hc)
  have hnone : r.headerParams.filterMap (fun p => cookieSet (p.1 ++ (ascii ": " ++ p.2))) = [] := by
    simpa [List.filterMap_eq_nil_iff] using hparams
  have hif : ∀ (c : Prop) [Decidable c] (line : List UInt8), cookieSet line = none →
      (if c then [] else [line]).filterMap cookieSet = [] := by
    intro c _ line hline
    split <;> simp [hline]
  unfold HttpProcessor.headLines
  cases r.lastModify with
  | none =>
    simp [List.append_assoc, hset, hnone, hif, hserver, hdate, hlocation, hconnection, htype,
      hdisposition, hlength]
  | some lastModify =>
    simp [List.append_assoc, hset, hnone, hif, hserver, hdate, hlocation, hconnection, htype,
      hdisposition, hlength, hmodified]

/-- A response to a request of a connection whose calls do not move the fill back, after any
calls of the application with plain arguments. -/
def Produced (sent : SentResponse) : Prop :=
  ∃ u fresh segments, HttpConnection.ServesForward u fresh segments ∧
  ∃ request ∈ (HttpConnection.serve u fresh segments).derived.processed,
    ∃ calls : List ResponseCall, (∀ call ∈ calls, call.IsPlain) ∧
      ∃ p now memory length,
        calls.foldlM HttpProcessor.perform (HttpProcessor.ofRequest request.1) = some p ∧
        p.sendResponse now memory length = some sent

/-- What a client reads of the head are the lines that have been sent. -/
theorem lines_read {p : HttpProcessor} (hs : p.Sound)
    (hsent : p.sendResponse now memory length = some sent) : ∃ version connection,
      linesRead sent = HttpProcessor.headLines sent.processor.response version connection now := by
  obtain ⟨version, hversion, -, hprocessor, hhead⟩ := HttpProcessor.send_response_cases hsent
  obtain ⟨version', hversion', hplain⟩ := hs.version_text
  cases hversion.symm.trans hversion'
  have hresponse : sent.processor.response.IsPlain := by
    rw [hprocessor]
    exact { hs.response with }
  have hlines := HttpProcessor.head_line hresponse hplain (hs.connection_text version) now
  refine ⟨version, p.connectionText version, ?_⟩
  have hread := read_block hlines []
  rw [List.append_nil] at hread
  simp [linesRead, hhead, HttpProcessor.head_sends_block, hread]

theorem Produced.lines (h : Produced sent) : ∃ version connection now,
    linesRead sent = HttpProcessor.headLines sent.processor.response version connection now := by
  obtain ⟨u, fresh, segments, hserves, request, hrequest, calls, hcalls, p, now, memory, length, hp,
    hsent⟩ := h
  obtain ⟨hforward, hready⟩ := HttpConnection.serve_forward hserves request hrequest
  obtain ⟨p', hp', hs⟩ :=
    (HttpProcessor.sound_of_request hforward.echoes hready).perform_all calls hcalls
  cases hp.symm.trans hp'
  obtain ⟨version, connection, hlines⟩ := lines_read hs hsent
  exact ⟨version, connection, now, hlines⟩

/-- A request with the cookies kept has them read back. -/
theorem get_cookie_kept (h : Request.Answers http r)
    (hfield : r.fields.filter (fun f => f.key = ascii "Cookie") = [field])
    (hvalue : field.value = cookieHeader kept) (hkept : ∀ p ∈ kept, Storable p)
    (key : List UInt8) (d : Option (List UInt8)) :
    http.getCookie key d = (kept.find? fun p => strcaseEq key p.1).elim d fun p => some p.2 := by
  have htext : field.text = cookieHeader kept := by
    rw [Field.text, hvalue]
    cases hheader : cookieHeader kept with
    | nil => rfl
    | cons c rest =>
      have hstart := header_start hkept
      rw [hheader] at hstart
      simpa using hstart
  rw [h.cookie, cookies_of_field r.fields hfield, htext, lookup_kept hkept]

/-- The cookies of responses come back: a client that reads the responses, keeps the
last value under each name and sends all of them with a request has every one of them
read back by `get_cookie`. -/
theorem cookies_return {sents : List SentResponse} (hsents : ∀ sent ∈ sents, Produced sent)
    (hcookies : ∀ sent ∈ sents, ∀ c ∈ sent.processor.response.cookies,
      Storable (c.nameCookie, c.value))
    (hparams : ∀ sent ∈ sents, ∀ p ∈ sent.processor.response.headerParams,
      cookieSet (p.1 ++ ascii ": " ++ p.2) = none)
    (hsame : ∀ c ∈ sents.flatMap (·.processor.response.cookies),
      ∀ c' ∈ sents.flatMap (·.processor.response.cookies),
        strcaseEq c.nameCookie c'.nameCookie = true → c.nameCookie = c'.nameCookie)
    (r : Request) (hfield : r.fields.filter (fun f => f.key = ascii "Cookie") = [field])
    (hvalue : field.value = cookieHeader (cookiesKept (sents.map linesRead)))
    (h : HttpHeader) (stale : List UInt8) (u : Nat) :
    ∃ h', h.clear.processData (r.serialize ++ stale) r.serialize.length u =
        some (h', r.serialize.length) ∧ h'.isReady = true ∧
      ∀ key d, h'.getCookie key d = ((sents.flatMap (·.processor.response.cookies)).reverse.find?
        fun c => strcaseEq key c.nameCookie).elim d fun c => some c.value := by
  obtain ⟨h', hprocess, hanswers⟩ := Request.whole_completes (r := r) (shows_clear h) stale u
  refine ⟨h', hprocess, hanswers.ready, ?_⟩
  intro key d
  let all := sents.flatMap (·.processor.response.cookies)
  have hset : (sents.map linesRead).flatMap (fun lines => (lines.drop 1).filterMap cookieSet) =
      all.map fun c => (c.nameCookie, c.value) := by
    rw [List.flatMap_map, List.map_flatMap]
    apply List.flatMap_congr
    intro sent hsent
    obtain ⟨version, connection, now, hlines⟩ := (hsents sent hsent).lines
    rw [hlines, head_cookies version connection now (hcookies sent hsent) (hparams sent hsent)]
  have hstorable : ∀ p ∈ all.map fun c => (c.nameCookie, c.value), Storable p := by
    intro p hp
    obtain ⟨c, hc, rfl⟩ := List.mem_map.mp hp
    obtain ⟨sent, hsent, hc⟩ := List.mem_flatMap.mp hc
    exact hcookies sent hsent c hc
  have hkept : ∀ p ∈ cookiesKept (sents.map linesRead), Storable p := by
    intro p hp
    rw [cookiesKept, hset] at hp
    exact hstorable p (Latest.put_from hp)
  have hone : ∀ p ∈ all.map (fun c => (c.nameCookie, c.value)),
      ∀ q ∈ all.map (fun c => (c.nameCookie, c.value)),
        strcaseEq key p.1 = true → strcaseEq key q.1 = true → p.1 = q.1 := by
    intro p hp q hq hkey hkey'
    obtain ⟨c, hc, rfl⟩ := List.mem_map.mp hp
    obtain ⟨c', hc', rfl⟩ := List.mem_map.mp hq
    exact hsame c hc c' hc' (Request.strcase_trans hkey hkey')
  rw [get_cookie_kept hanswers hfield hvalue hkept, cookiesKept, hset,
    Latest.find_put_all (strcaseEq key) hone, ← List.map_reverse, List.find?_map]
  simp only [Function.comp_def]
  cases all.reverse.find? fun c => strcaseEq key c.nameCookie with
  | none => rfl
  | some c => rfl

def annRequests : List (HttpHeader × Nat) :=
  (HttpConnection.serve ⟨fun _ _ => 0, fun _ => 0⟩ (fun _ => 0)
    [ascii "GET / HTTP/1.1\r\nHost: a.b:80\r\n\r\n"]).derived.processed

def annSession : Option SentResponse :=
  annRequests.head?.bind fun request =>
    ([ResponseCall.setCookie (ascii "s") (ascii "17") 0 none true].foldlM HttpProcessor.perform
      (HttpProcessor.ofRequest request.1)).bind fun p => p.sendResponse 0 (some (ascii "{}")) 2

def annField : Field :=
  ⟨ascii "Cookie", ascii "s=17", clear_literal (by decide), by decide, clear_literal (by decide)⟩

def annReturn : Request :=
  { Request.getRoot with
    fields := [annField]
    length_given := by
      intro f hf hlength
      obtain rfl := List.mem_singleton.mp hf
      exact absurd hlength (by decide)
    body_absent := by simp [Request.getRoot] }

theorem ann_produced (h : annSession = some sent) : Produced sent := by
  obtain ⟨request, hrequest, hcalls⟩ := Option.bind_eq_some_iff.mp h
  obtain ⟨p, hp, hresponse⟩ := Option.bind_eq_some_iff.mp hcalls
  refine ⟨_, _, _, Connection.run_forward_of_zero (fun _ => rfl) _ _, request,
    List.mem_of_mem_head? hrequest, _, ?_, p, _, _, _, hp, hresponse⟩
  simp [ResponseCall.IsPlain]
  decide

theorem ann_cookie : ∃ sent ∈ annSession, ∃ h',
    (HttpHeader.new fun _ => 0).clear.processData (annReturn.serialize ++ [])
      annReturn.serialize.length 0 = some (h', annReturn.serialize.length) ∧ h'.isReady = true ∧
    ∀ key d, h'.getCookie key d = (([sent].flatMap (·.processor.response.cookies)).reverse.find?
      fun c => strcaseEq key c.nameCookie).elim d fun c => some c.value := by
  have hread : annSession.map (fun sent => (sent.processor.response.cookies.map fun c =>
      (c.nameCookie, c.value), sent.processor.response.headerParams,
      cookieHeader (cookiesKept [linesRead sent]))) =
        some ([(ascii "s", ascii "17")], [], ascii "s=17") := by decide +kernel
  obtain ⟨sent, hsent, hread⟩ := Option.map_eq_some_iff.mp hread
  simp only [Prod.mk.injEq] at hread
  obtain ⟨hcookies, hparams, hheader⟩ := hread
  have hcookie : ∀ c ∈ sent.processor.response.cookies,
      (c.nameCookie, c.value) = (ascii "s", ascii "17") := by
    intro c hc
    apply List.mem_singleton.mp
    rw [← hcookies]
    exact List.mem_map_of_mem hc
  have hsents : ∀ s ∈ [sent], Produced s := by simpa using ann_produced hsent
  have hfield : annReturn.fields.filter (fun f => f.key = ascii "Cookie") = [annField] := rfl
  refine ⟨sent, hsent, cookies_return hsents ?_ ?_ ?_ annReturn hfield hheader.symm
    (HttpHeader.new fun _ => 0) [] 0⟩
  · simp only [List.mem_singleton, forall_eq]
    intro c hc
    rw [hcookie c hc]
    exact ⟨clear_literal (by decide), by decide, clear_literal (by decide)⟩
  · simp [hparams]
  · simp only [List.flatMap_singleton]
    intro c hc c' hc' _
    rw [(Prod.mk.inj (hcookie c hc)).1, (Prod.mk.inj (hcookie c' hc')).1]

end Khorost
