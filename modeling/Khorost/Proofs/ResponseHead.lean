import Khorost.Lib.Lines
import Khorost.Proofs.Echoes

namespace Khorost

instance : DecidablePred Plain := fun c => inferInstanceAs (Decidable (c ≠ cr ∧ c ≠ lf))

def PlainText (s : List UInt8) : Prop := ∀ c ∈ s, Plain c

instance (s : List UInt8) : Decidable (PlainText s) := List.decidableBAll Plain s

@[simp] theorem plain_append : PlainText (s ++ t) ↔ PlainText s ∧ PlainText t := List.forall_mem_append

@[simp] theorem plain_cons : PlainText (c :: s) ↔ Plain c ∧ PlainText s := List.forall_mem_cons

@[simp] theorem plain_nil : PlainText [] := nofun

/-- A digit of a number and the byte that it is written as. -/
theorem digit_byte (hd : d ∈ Nat.toDigits 10 n) : (UInt8.ofNat d.toNat).toNat = d.toNat ∧
    48 ≤ d.toNat ∧ d.toNat ≤ 57 := by
  have hdigit := Nat.isDigit_of_mem_toDigits (by decide) (by decide) hd
  obtain ⟨hlow, hhigh⟩ : 48 ≤ d.toNat ∧ d.toNat ≤ 57 := Char.isDigit_iff_toNat.mp hdigit
  refine ⟨?_, hlow, hhigh⟩
  rw [UInt8.toNat_ofNat']
  omega

@[simp] theorem plain_decimal (n : Nat) : PlainText (decimalText n) := by
  intro c hc
  obtain ⟨d, hd, rfl⟩ := List.mem_map.mp hc
  obtain ⟨hvalue, hlow, hhigh⟩ := digit_byte hd
  have hcr : cr.toNat = 13 := rfl
  have hlf : lf.toNat = 10 := rfl
  constructor
  · intro he
    rw [he] at hvalue
    omega
  · intro he
    rw [he] at hvalue
    omega

@[simp] theorem plain_signed (n : Int) : PlainText (signedText n) := by
  unfold signedText
  split
  · exact plain_cons.mpr ⟨by decide, plain_decimal _⟩
  · exact plain_decimal _

@[simp] theorem plain_number (n : Int) : PlainText (numberText n) := plain_signed _

@[simp] theorem plain_two_digits (n : Nat) : PlainText (twoDigits n) := by
  unfold twoDigits
  split
  · exact plain_cons.mpr ⟨by decide, plain_decimal _⟩
  · exact plain_decimal _

theorem plain_name {names : List String} (h : ∀ s ∈ names, PlainText (ascii s)) (n : Nat) :
    PlainText (ascii (names.getD n "?")) := by
  rw [List.getD_eq_getElem?_getD]
  cases hn : names[n]? with
  | none => decide
  | some s => exact h s (List.mem_of_getElem? hn)

@[simp] theorem plain_conversion (tm : Tm) (c : UInt8) : PlainText (conversion tm c) := by
  unfold conversion
  split
  · exact plain_name (by decide) _
  · exact plain_name (by decide) _
  · exact plain_two_digits _
  · exact plain_signed _
  · exact plain_two_digits _
  · exact plain_two_digits _
  · exact plain_two_digits _
  · exact plain_nil

/-- A date has no line end in it if its format has none. -/
theorem plain_strftime (tm : Tm) (h : PlainText format) : PlainText (strftime tm format) := by
  fun_induction strftime tm format with
  | case1 c format ih =>
    obtain ⟨-, -, hrest⟩ := by simpa only [plain_cons] using h
    exact plain_append.mpr ⟨plain_conversion tm c, ih hrest⟩
  | case2 c format _ ih =>
    obtain ⟨hc, hrest⟩ := plain_cons.mp h
    exact plain_cons.mpr ⟨hc, ih hrest⟩
  | case3 => exact plain_nil

/-- The fields that are sent have no line end in them. -/
structure Response.IsPlain (r : Response) : Prop where
  codeReason : PlainText r.codeReason
  contentType : PlainText r.contentType
  contentTypeCodepage : PlainText r.contentTypeCodepage
  contentDisposition : PlainText r.contentDisposition
  redirectUrl : PlainText r.redirectUrl
  cookies : ∀ c ∈ r.cookies, PlainText c.nameCookie ∧ PlainText c.value ∧ PlainText c.domain
  headerParams : ∀ p ∈ r.headerParams, PlainText p.1 ∧ PlainText p.2

/-- What the application gives to a call has no line end in it. -/
def ResponseCall.IsPlain : ResponseCall → Prop
  | .getHost | .getPort | .setLastModify _ => True
  | .setCookie cookie value _ domain _ =>
    PlainText cookie ∧ PlainText value ∧ ∀ d ∈ domain, PlainText d
  | .setResponseStatus _ codeReason => PlainText codeReason
  | .setRedirect _ redirectUrl => PlainText redirectUrl
  | .setContentType contentType contentTypeCodepage =>
    PlainText contentType ∧ PlainText contentTypeCodepage
  | .setContentDisposition contentDisposition => PlainText contentDisposition
  | .setHeaderParam key value => PlainText key ∧ PlainText value

theorem cleared_plain : Response.cleared.IsPlain :=
  ⟨by decide, by decide, by decide, by decide, by decide, nofun, nofun⟩

theorem mem_insert_param (h : p ∈ Response.insertParam key value params) :
    p = (key, value) ∨ p ∈ params := by
  induction params with
  | nil => exact .inl (List.mem_singleton.mp h)
  | cons param params ih =>
    obtain ⟨k, v⟩ := param
    rw [Response.insertParam] at h
    split at h
    · exact List.mem_cons.mp h
    · split at h
      · rcases List.mem_cons.mp h with rfl | h
        · exact .inr List.mem_cons_self
        · exact (ih h).imp_right (List.mem_cons_of_mem _)
      · exact .inr h

namespace HttpProcessor

/-- A request that is being answered: nothing of it or of its response that is
sent has a line end in it. -/
structure Sound (p : HttpProcessor) : Prop where
  echoes : p.header.Echoes
  method : p.header.queryMethod.isSome
  version : p.header.queryVersion.isSome
  host : ∀ idx ∈ p.host, PlainAt p.header.abHeader.content idx
  response : p.response.IsPlain

theorem header_text_plain {h : HttpHeader} (hp : PlainAt h.abHeader.content position) :
    PlainText (h.headerText position) := by
  rw [HttpHeader.headerText, h.abHeader.buffer_split]
  exact hp.c_str _

theorem sound_of_request {h : HttpHeader} (he : h.Echoes) (hready : h.isReady = true) :
    (ofRequest h).Sound := by
  have hp : h.headerProcess ≠ .processingFirst := by
    intro hp
    rw [HttpHeader.isReady, hp] at hready
    cases hready
  obtain ⟨hm, hv⟩ := he.named hp
  exact ⟨he, hm, hv, nofun, cleared_plain⟩

theorem host_end_some {memory : List UInt8} {e : Nat} (h : memory[e]? = some nul) :
    ∃ n atColon, hostEnd memory = some (n, atColon) := by
  induction memory generalizing e with
  | nil => cases h
  | cons c memory ih =>
    rw [hostEnd]
    split
    · exact ⟨_, _, rfl⟩
    · rename_i hc
      split
      · exact ⟨_, _, rfl⟩
      · cases e with
        | zero => exact absurd (Option.some.inj h) hc
        | succ e =>
          obtain ⟨n, atColon, hend⟩ := ih h
          exact ⟨n + 1, atColon, by rw [hend]; rfl⟩

/-- Where a host is found its text is that of a header line. The colon in front
of a port becomes a terminator, which ends a text earlier and no text later. -/
theorem Sound.calculate {p : HttpProcessor} (hs : p.Sound) :
    ∃ p', p.calculateHostPort = some p' ∧ p'.Sound := by
  rw [calculateHostPort]
  cases hindex : p.getHeaderIndex (ascii "Host") with
  | none => exact ⟨p, rfl, hs⟩
  | some idx =>
    obtain ⟨v, hfind, rfl⟩ := Option.map_eq_some_iff.mp hindex
    have hplain := hs.echoes.values v (List.mem_of_find?_eq_some hfind)
    obtain ⟨e, hend, -⟩ := id hplain
    obtain ⟨hlt, -⟩ := List.getElem?_eq_some_iff.mp hend
    have hbuffer : (p.header.abHeader.buffer.drop v.2)[e]? = some nul := by
      rw [p.header.abHeader.buffer_split, List.getElem?_drop, List.getElem?_append_left hlt, hend]
    obtain ⟨n, atColon, hstop⟩ := host_end_some hbuffer
    simp only [hstop, Option.bind_eq_bind, Option.bind_some]
    split
    · have hkept := kept_set_nul p.header.abHeader (v.2 + n)
      have hstores : HttpHeader.Stores p.header
          { p.header with abHeader := p.header.abHeader.set (v.2 + n) nul } :=
        .of_content hkept id rfl rfl
      refine ⟨_, rfl, { hs with
        echoes := hstores.echoes hs.echoes hs.echoes.named
        host := fun idx hidx => ?_ }⟩
      cases hidx
      exact hplain.kept hkept
    · refine ⟨_, rfl, { hs with host := fun idx hidx => ?_ }⟩
      cases hidx
      exact hplain

theorem Sound.with_host {p : HttpProcessor} (hs : p.Sound) :
    ∃ p', p.withHost = some p' ∧ p'.Sound := by
  unfold withHost
  split
  · exact hs.calculate
  · exact ⟨p, rfl, hs⟩

theorem Sound.get_host {p : HttpProcessor} (hs : p.Sound) :
    ∃ domain p', p.getHost = some (domain, p') ∧ PlainText domain ∧ p'.Sound := by
  obtain ⟨p', hp', hs'⟩ := hs.with_host
  simp only [getHost, hp', Option.bind_eq_bind, Option.bind_some]
  split
  · exact ⟨_, _, rfl, plain_nil, hs'⟩
  · rename_i idx hidx
    exact ⟨_, _, rfl, header_text_plain (hs'.host idx hidx), hs'⟩

theorem Sound.get_port {p : HttpProcessor} (hs : p.Sound) :
    ∃ port p', p.getPort = some (port, p') ∧ p'.Sound := by
  obtain ⟨p', hp', hs'⟩ := hs.with_host
  simp only [getPort, hp', Option.bind_eq_bind, Option.bind_some]
  split <;> exact ⟨_, _, rfl, hs'⟩

theorem Sound.add_cookie {p : HttpProcessor} (hs : p.Sound) {c : Cookie}
    (hn : PlainText c.nameCookie) (hv : PlainText c.value) (hd : PlainText c.domain) :
    (p.addCookie c).Sound := by
  refine { hs with response := { hs.response with cookies := fun c' hc => ?_ } }
  rcases List.mem_append.mp hc with hc | hc
  · exact hs.response.cookies c' hc
  · rw [List.mem_singleton.mp hc]
    exact ⟨hn, hv, hd⟩

/-- No call with plain arguments spoils the request or its response. -/
theorem Sound.perform {p : HttpProcessor} (hs : p.Sound) {call : ResponseCall}
    (hcall : call.IsPlain) : ∃ p', p.perform call = some p' ∧ p'.Sound := by
  cases call with
  | getHost =>
    obtain ⟨domain, p', hget, -, hs'⟩ := hs.get_host
    exact ⟨p', by rw [HttpProcessor.perform, hget]; rfl, hs'⟩
  | getPort =>
    obtain ⟨port, p', hget, hs'⟩ := hs.get_port
    exact ⟨p', by rw [HttpProcessor.perform, hget]; rfl, hs'⟩
  | setCookie cookie value expire domain httpOnly =>
    obtain ⟨hcookie, hvalue, hdomain⟩ := hcall
    cases domain with
    | some domain => exact ⟨_, rfl, hs.add_cookie hcookie hvalue (hdomain domain rfl)⟩
    | none =>
      obtain ⟨domain, p', hget, hplain, hs'⟩ := hs.get_host
      exact ⟨_, by rw [HttpProcessor.perform, hget]; rfl, hs'.add_cookie hcookie hvalue hplain⟩
  | setResponseStatus code codeReason =>
    exact ⟨_, rfl, { hs with response := { hs.response with codeReason := hcall } }⟩
  | setRedirect code redirectUrl =>
    exact ⟨_, rfl, { hs with response :=
      { hs.response with
        codeReason := (by decide : PlainText (ascii "Redirect"))
        redirectUrl := hcall } }⟩
  | setContentType contentType contentTypeCodepage =>
    exact ⟨_, rfl, { hs with response := { hs.response with
      contentType := hcall.1
      contentTypeCodepage := hcall.2 } }⟩
  | setContentDisposition contentDisposition =>
    exact ⟨_, rfl, { hs with response := { hs.response with contentDisposition := hcall } }⟩
  | setLastModify lastModify => exact ⟨_, rfl, { hs with response := { hs.response with } }⟩
  | setHeaderParam key value =>
    refine ⟨_, rfl, { hs with response := { hs.response with headerParams := fun q hq => ?_ } }⟩
    rcases mem_insert_param hq with rfl | hq
    · exact hcall
    · exact hs.response.headerParams q hq

theorem Sound.perform_all {p : HttpProcessor} (hs : p.Sound) (calls : List ResponseCall)
    (hcalls : ∀ call ∈ calls, call.IsPlain) :
    ∃ p', calls.foldlM HttpProcessor.perform p = some p' ∧ p'.Sound := by
  induction calls generalizing p with
  | nil => exact ⟨p, rfl, hs⟩
  | cons call calls ih =>
    obtain ⟨p₁, hp₁, hs₁⟩ := hs.perform (hcalls call List.mem_cons_self)
    obtain ⟨p', hp', hs'⟩ := ih hs₁ (fun c hc => hcalls c (List.mem_cons_of_mem _ hc))
    exact ⟨p', by rw [List.foldlM_cons, hp₁]; exact hp', hs'⟩

def cookieLine (c : Cookie) : List UInt8 :=
  ascii "Set-Cookie: " ++ c.nameCookie ++ ascii "=" ++ c.value ++ ascii "; Expires=" ++
    strftime (gmtime c.expire) (ascii "%a, %d-%b-%Y %H:%M:%S GMT") ++ ascii "; Domain=." ++
    c.domain ++ ascii "; Path=/" ++ (if c.httpOnly then ascii "; HttpOnly " else [])

def headLines (r : Response) (version connection : List UInt8) (now : Int) : List (List UInt8) :=
  [version ++ [space] ++ numberText r.code ++ [space] ++ r.codeReason, ascii "Server: phreeber",
    ascii "Date: " ++ strftime (gmtime now) (ascii "%a, %d %b %Y %H:%M:%S GMT")] ++
  (if r.redirectUrl ≠ [] then [ascii "Location: " ++ r.redirectUrl] else []) ++
  [ascii "Connection: " ++ connection] ++
  r.cookies.map cookieLine ++
  [ascii "Content-Type: " ++ r.contentType ++
    (if r.contentTypeCodepage ≠ [] then ascii "; charset=" ++ r.contentTypeCodepage else [])] ++
  (if r.contentDisposition ≠ [] then [ascii "Content-Disposition: " ++ r.contentDisposition]
    else []) ++
  [ascii "Content-Length: " ++ numberText r.contentLength] ++
  (match r.lastModify with
    | some lastModify => [ascii "Last-Modified: " ++
        strftime (gmtime lastModify) (ascii "%a, %d-%b-%Y %H:%M:%S GMT")]
    | none => []) ++
  r.headerParams.map (fun param => param.1 ++ ascii ": " ++ param.2)

theorem line_if (c : Prop) [Decidable c] (sends : List (List UInt8)) (line : List UInt8)
    (h : sends.flatten = line ++ endl) :
    (if c then sends else []).flatten = (if c then [line] else []).flatMap (· ++ [cr, lf]) := by
  split
  · rw [h, List.flatMap_singleton]
    rfl
  · rfl

/-- The sends of the header block are its lines, one after the other. -/
theorem head_sends_block (r : Response) (version connection : List UInt8) (now : Int) :
    (headSends r version connection now).flatten =
      Lines.block cr lf (headLines r version connection now) := by
  have hcookies : (r.cookies.map cookieText).flatten =
      (r.cookies.map cookieLine).flatMap (· ++ [cr, lf]) := by
    rw [List.flatMap_map]
    rfl
  have hparams : (r.headerParams.flatMap (fun p => [p.1, ascii ": ", p.2, endl])).flatten =
      (r.headerParams.map (fun p => p.1 ++ ascii ": " ++ p.2)).flatMap (· ++ [cr, lf]) := by
    induction r.headerParams with
    | nil => rfl
    | cons p params ih =>
      rw [List.flatMap_cons, List.flatten_append, ih, List.map_cons, List.flatMap_cons]
      simp [endl]
  have hredirect := line_if (r.redirectUrl ≠ []) [ascii "Location: ", r.redirectUrl, endl]
    (ascii "Location: " ++ r.redirectUrl) (by simp)
  have hdisposition := line_if (r.contentDisposition ≠ [])
    [ascii "Content-Disposition: " ++ r.contentDisposition, endl]
    (ascii "Content-Disposition: " ++ r.contentDisposition) (by simp)
  have hcodepage : (if r.contentTypeCodepage ≠ [] then
        [ascii "; charset=" ++ r.contentTypeCodepage] else []).flatten =
      if r.contentTypeCodepage ≠ [] then ascii "; charset=" ++ r.contentTypeCodepage else [] := by
    split
    · exact List.append_nil _
    · rfl
  simp only [headSends, headLines, Lines.block, List.flatten_append, List.flatMap_append, hcookies,
    hparams, hredirect, hdisposition, hcodepage]
  cases r.lastModify <;> simp [endl]

theorem plain_date (t : Int) (format : List UInt8) (h : PlainText format) :
    PlainText (strftime (gmtime t) format) := plain_strftime _ h

theorem cookie_line_plain {c : Cookie} (hn : PlainText c.nameCookie) (hv : PlainText c.value)
    (hd : PlainText c.domain) : PlainText (cookieLine c) := by
  have hdate := plain_date c.expire (ascii "%a, %d-%b-%Y %H:%M:%S GMT") (by decide)
  have hhttp : PlainText (if c.httpOnly then ascii "; HttpOnly " else []) := by
    split <;> decide
  simp only [cookieLine, plain_append]
  exact ⟨⟨⟨⟨⟨⟨⟨⟨⟨by decide, hn⟩, by decide⟩, hv⟩, by decide⟩, hdate⟩, by decide⟩, hd⟩, by decide⟩, hhttp⟩

theorem content_type_plain {r : Response} (hr : r.IsPlain) :
    PlainText (ascii "Content-Type: " ++ r.contentType ++
      (if r.contentTypeCodepage ≠ [] then ascii "; charset=" ++ r.contentTypeCodepage else [])) := by
  refine plain_append.mpr ⟨plain_append.mpr ⟨by decide, hr.contentType⟩, ?_⟩
  split
  · exact plain_append.mpr ⟨by decide, hr.contentTypeCodepage⟩
  · exact plain_nil

theorem is_line {line : List UInt8} (hp : PlainText line) (hne : line ≠ []) :
    Lines.IsLine cr lf line :=
  ⟨hne, fun hin => (hp cr hin).1 rfl, fun hin => (hp lf hin).2 rfl⟩

theorem is_line_named {name : String} {s : List UInt8} (hname : PlainText (ascii name))
    (hne : ascii name ≠ []) (hs : PlainText s) : Lines.IsLine cr lf (ascii name ++ s) :=
  is_line (plain_append.mpr ⟨hname, hs⟩) (List.append_ne_nil_of_left_ne_nil hne _)

theorem head_line {r : Response} (hr : r.IsPlain) (hv : PlainText version)
    (hc : PlainText connection) (now : Int) :
    ∀ line ∈ headLines r version connection now, Lines.IsLine cr lf line := by
  intro line hin
  simp only [headLines, List.mem_append, List.mem_cons, List.not_mem_nil, or_false] at hin
  rcases hin with (((((((((rfl | rfl | rfl) | hin) | rfl) | hin) | rfl) | hin) | rfl) | hin) | hin)
  · refine is_line ?_ (by simp)
    simp only [plain_append, plain_cons]
    exact ⟨⟨⟨⟨hv, by decide, plain_nil⟩, plain_number _⟩, by decide, plain_nil⟩, hr.codeReason⟩
  · exact is_line (by decide) (by decide)
  · exact is_line_named (by decide) (by decide) (plain_date _ _ (by decide))
  · split at hin
    · obtain rfl := List.mem_singleton.mp hin
      exact is_line_named (by decide) (by decide) hr.redirectUrl
    · cases hin
  · exact is_line_named (by decide) (by decide) hc
  · obtain ⟨c, hcookie, rfl⟩ := List.mem_map.mp hin
    obtain ⟨hname, hvalue, hdomain⟩ := hr.cookies c hcookie
    exact is_line (cookie_line_plain hname hvalue hdomain) (by simp [cookieLine, ascii])
  · exact is_line (content_type_plain hr) (by simp [ascii])
  · split at hin
    · obtain rfl := List.mem_singleton.mp hin
      exact is_line_named (by decide) (by decide) hr.contentDisposition
    · cases hin
  · exact is_line_named (by decide) (by decide) (plain_number _)
  · split at hin
    · obtain rfl := List.mem_singleton.mp hin
      exact is_line_named (by decide) (by decide) (plain_date _ _ (by decide))
    · cases hin
  · obtain ⟨p, hp, rfl⟩ := List.mem_map.mp hin
    obtain ⟨hkey, hvalue⟩ := hr.headerParams p hp
    refine is_line ?_ (by simp [ascii])
    exact plain_append.mpr ⟨plain_append.mpr ⟨hkey, by decide⟩, hvalue⟩

theorem Sound.version_text {p : HttpProcessor} (hs : p.Sound) :
    ∃ version, p.header.getQueryVersion = some version ∧ PlainText version := by
  obtain ⟨position, hposition⟩ := Option.isSome_iff_exists.mp hs.version
  refine ⟨p.header.headerText position, ?_, header_text_plain (hs.echoes.version position hposition)⟩
  rw [HttpHeader.getQueryVersion, hposition]
  rfl

theorem Sound.connection_text {p : HttpProcessor} (hs : p.Sound) (version : List UInt8) :
    PlainText (p.connectionText version) := by
  unfold connectionText HttpHeader.getHeaderParameter
  split
  · rename_i v hfind
    exact header_text_plain (hs.echoes.values v (List.mem_of_find?_eq_some hfind))
  · rw [Option.getD_none]
    split <;> decide

theorem Sound.send_body {p : HttpProcessor} (hs : p.Sound) {response : Option (List UInt8)}
    (hresponse : ∀ memory ∈ response,
      p.response.contentLength = npos ∨ p.response.contentLength ≤ memory.length) :
    ∃ body, p.sendBody response = some body := by
  obtain ⟨position, hposition⟩ := Option.isSome_iff_exists.mp hs.method
  have hsend : p.isSendData =
      some (!strcaseEq (p.header.headerText position) (ascii "HEAD")) := by
    rw [isSendData, HttpHeader.getQueryMethod, hposition]
    rfl
  simp only [sendBody, hsend, Option.bind_eq_bind, Option.bind_some]
  cases response with
  | none => exact ⟨_, rfl⟩
  | some memory =>
    dsimp only
    split
    · exact ⟨_, rfl⟩
    · split
      · exact ⟨_, rfl⟩
      · rename_i hlength
        rw [if_pos ((hresponse memory rfl).resolve_left hlength)]
        exact ⟨_, rfl⟩

/-- The header block of a response ends with the first empty line and has no
other one, and nothing that it repeats from the request has a line end in it. -/
theorem response_head_sound (u : Uninitialised) (hu : ∀ n, u.chunkSize n = 0) (fresh : Nat → UInt8)
    (segments : List (List UInt8)) {request : HttpHeader × Nat}
    (hrequest : request ∈ (HttpConnection.serve u fresh segments).derived.processed)
    (calls : List ResponseCall) (hcalls : ∀ call ∈ calls, call.IsPlain) (now : Int)
    (response : Option (List UInt8)) (length : Nat)
    (hresponse : ∀ memory ∈ response, length = npos ∨ length ≤ memory.length) :
    ∃ p sent, calls.foldlM perform (ofRequest request.1) = some p ∧
      p.sendResponse now response length = some sent ∧
      (∀ i, [cr, lf, cr, lf] <+: sent.head.flatten.drop i ↔ i + 4 = sent.head.flatten.length) ∧
      ∃ version domain p', p.header.getQueryVersion = some version ∧ PlainText version ∧
        PlainText (p.connectionText version) ∧ p.getHost = some (domain, p') ∧
        PlainText domain := by
  obtain ⟨hforward, hready⟩ :=
    HttpConnection.serve_forward (Connection.run_forward_of_zero hu _ segments) request hrequest
  obtain ⟨p, hp, hs⟩ := (sound_of_request hforward.echoes hready).perform_all calls hcalls
  obtain ⟨version, hversion, hplain⟩ := hs.version_text
  obtain ⟨domain, p', hhost, hdomain, -⟩ := hs.get_host
  have hconnection := hs.connection_text version
  let q := p.respond (p.connectionText version) length
  have hs' : q.Sound := { hs with response := { hs.response with } }
  obtain ⟨body, hbody⟩ := hs'.send_body hresponse
  refine ⟨p, ⟨headSends q.response version (p.connectionText version) now, body, q⟩, hp, ?_,
    fun i => ?_, version, domain, p', hversion, hplain, hconnection, hhost, hdomain⟩
  · simp only [sendResponse, hversion, Option.bind_eq_bind, Option.bind_some]
    rw [hbody]
    rfl
  · dsimp only
    rw [head_sends_block]
    exact Lines.blank_line_once (by decide) (head_line hs'.response hplain hconnection now)
      (by simp [headLines]) i

/-- A cookie for the host, which the request has named with a port. -/
theorem cookie_for_host_sound :
    ∃ request ∈ (HttpConnection.serve ⟨fun _ _ => 0, fun _ => 0⟩ (fun _ => 0)
        [ascii "GET / HTTP/1.1\r\nHost: a.b:80\r\n", ascii "\r\n"]).derived.processed,
      ∃ p sent, [ResponseCall.setCookie (ascii "s") (ascii "1") 0 none true].foldlM perform
          (ofRequest request.1) = some p ∧ p.sendResponse 0 (some (ascii "{}")) 2 = some sent ∧
        ∀ i, [cr, lf, cr, lf] <+: sent.head.flatten.drop i ↔ i + 4 = sent.head.flatten.length := by
  have hlen : (HttpConnection.serve ⟨fun _ _ => 0, fun _ => 0⟩ (fun _ => 0)
      [ascii "GET / HTTP/1.1\r\nHost: a.b:80\r\n", ascii "\r\n"]).derived.processed.length = 1 := by
    decide +kernel
  obtain ⟨request, hrequest⟩ := List.exists_mem_of_length_pos (Nat.lt_of_lt_of_eq Nat.one_pos hlen.symm)
  obtain ⟨p, sent, hp, hsent, hblank, -⟩ := response_head_sound _ (fun _ => rfl) _ _ hrequest
    [.setCookie (ascii "s") (ascii "1") 0 none true] (by simp [ResponseCall.IsPlain]; decide) 0
    (some (ascii "{}")) 2 (by simp [ascii])
  exact ⟨request, hrequest, p, sent, hp, hsent, hblank⟩

end HttpProcessor

end Khorost
