import Khorost.Proofs.DocRoot
import Khorost.Proofs.Closing
import Khorost.Proofs.ResponseHead

namespace Khorost

theorem digits_value_text (n : Nat) : digitsValue (decimalText n) = n := by
  have hfold : ∀ (cs : List Char) (m : Nat), (∀ c ∈ cs, c ∈ Nat.toDigits 10 n) →
      (cs.map (fun c => UInt8.ofNat c.toNat)).foldl (fun n b => 10 * n + (b.toNat - 48)) m =
        Nat.ofDigitChars 10 cs m := by
    intro cs
    induction cs with
    | nil => exact fun m _ => rfl
    | cons c cs ih =>
      intro m hcs
      rw [List.map_cons, List.foldl_cons, Nat.ofDigitChars_cons,
        (digit_byte (hcs c List.mem_cons_self)).1]
      exact ih _ fun c' hc' => hcs c' (List.mem_cons_of_mem c hc')
  rw [digitsValue, decimalText, hfold _ 0 fun c hc => hc, Nat.ofDigitChars_ten_toDigits]

theorem decimal_text_inj (h : decimalText m = decimalText n) : m = n := by
  rw [← digits_value_text m, h, digits_value_text]

theorem decimal_text_unsigned (n : Nat) : (45 : UInt8) ∉ decimalText n := by
  intro h
  obtain ⟨d, hd, he⟩ := List.mem_map.mp h
  obtain ⟨hbyte, hlow, -⟩ := digit_byte hd
  rw [he] at hbyte
  have hminus : (45 : UInt8).toNat = 45 := rfl
  omega

/-- A number is printed by `send_number` as it is if an `int` can hold it. -/
theorem number_text_iff (n : Nat) : numberText n = decimalText n ↔ n < 2 ^ 31 := by
  have hsigned : numberText n = decimalText n ↔ (n : Int).bmod (2 ^ 32) = n := by
    rw [numberText, signedText]
    split
    · rename_i hneg
      refine iff_of_false ?_ (by omega)
      intro he
      exact decimal_text_unsigned n (he ▸ List.mem_cons_self)
    · rename_i hpos
      refine ⟨fun he => ?_, fun he => by rw [he]; rfl⟩
      have hsame := decimal_text_inj he
      omega
  rw [hsigned, Int.bmod_def]
  split <;> omega

/-- The sends of `send_response` up to the number behind `Content-Length`. -/
def headFront (r : Response) (version connection : List UInt8) (now : Int) : List (List UInt8) :=
  [version, [space], numberText r.code, [space], r.codeReason, endl,
    ascii "Server: phreeber" ++ endl,
    ascii "Date: ", strftime (gmtime now) (ascii "%a, %d %b %Y %H:%M:%S GMT"), endl] ++
  (if r.redirectUrl ≠ [] then [ascii "Location: ", r.redirectUrl, endl] else []) ++
  [ascii "Connection: " ++ connection ++ endl] ++
  r.cookies.map HttpProcessor.cookieText ++
  [ascii "Content-Type: " ++ r.contentType] ++
  (if r.contentTypeCodepage ≠ [] then [ascii "; charset=" ++ r.contentTypeCodepage] else []) ++
  [endl] ++
  (if r.contentDisposition ≠ [] then [ascii "Content-Disposition: " ++ r.contentDisposition, endl]
    else []) ++
  [ascii "Content-Length: "]

/-- The sends of `send_response` behind that number. -/
def headBehind (r : Response) : List (List UInt8) :=
  [endl] ++
  (match r.lastModify with
    | some lastModify => [ascii "Last-Modified: ",
        strftime (gmtime lastModify) (ascii "%a, %d-%b-%Y %H:%M:%S GMT"), endl]
    | none => []) ++
  r.headerParams.flatMap (fun param => [param.1, ascii ": ", param.2, endl]) ++
  [endl]

theorem head_sends_eq (r : Response) (version connection : List UInt8) (now : Int) :
    HttpProcessor.headSends r version connection now =
      headFront r version connection now ++ numberText r.contentLength :: headBehind r := by
  unfold HttpProcessor.headSends headFront headBehind
  cases r.lastModify with
  | none => simp
  | some lastModify => simp

theorem front_length (r : Response) (version connection version' connection' : List UInt8)
    (now now' : Int) : (headFront r version connection now).length =
      (headFront r version' connection' now').length := by
  simp [headFront]

namespace SentResponse

def Announces (sent : SentResponse) (bytes : Nat) : Prop :=
  ∃ version connection now, sent.head =
    headFront sent.processor.response version connection now ++
      decimalText bytes :: headBehind sent.processor.response

end SentResponse

namespace HttpProcessor

variable {p : HttpProcessor}

theorem send_response_cases (h : p.sendResponse now memory length = some sent) :
    ∃ version, p.header.getQueryVersion = some version ∧
      (p.respond (p.connectionText version) length).sendBody memory = some sent.body ∧
      sent.processor = p.respond (p.connectionText version) length ∧
      sent.head = headSends sent.processor.response version (p.connectionText version) now := by
  simp only [sendResponse, Option.bind_eq_bind, Option.bind_eq_some_iff, Option.some.injEq] at h
  obtain ⟨version, hversion, body, hbody, rfl⟩ := h
  exact ⟨version, hversion, hbody, rfl, rfl⟩

theorem send_response_announces (h : p.sendResponse now memory length = some sent) :
    sent.Announces bytes ↔ numberText length = decimalText bytes := by
  obtain ⟨version, -, -, hprocessor, hhead⟩ := send_response_cases h
  have hlength : sent.processor.response.contentLength = length := by
    rw [hprocessor]
    rfl
  rw [head_sends_eq, hlength] at hhead
  constructor
  · rintro ⟨version', connection', now', he⟩
    rw [hhead] at he
    exact (List.cons.inj (List.append_inj he (front_length ..)).2).1
  · intro he
    exact ⟨version, _, now, by rw [hhead, he]⟩

theorem send_body_some (hdata : p.isSendData = some true) (connection : List UInt8)
    (length : Nat) (memory : List UInt8) :
    (p.respond connection length).sendBody (some memory) =
      if length = npos then some [cStr memory]
      else if length ≤ memory.length then some [memory.take length]
      else none := by
  have hdata' : (p.respond connection length).isSendData = some true := hdata
  have hlength : (p.respond connection length).response.contentLength = length := rfl
  simp only [sendBody, hdata', hlength, Option.bind_eq_bind, Option.bind_some]
  rw [if_neg (by decide)]

theorem send_body_none (hdata : p.isSendData = some true) (connection : List UInt8)
    (length : Nat) : (p.respond connection length).sendBody none = some [] := by
  have hdata' : (p.respond connection length).isSendData = some true := hdata
  simp only [sendBody, hdata', Option.bind_eq_bind, Option.bind_some]

/-- A body is sent with the length that is announced, up to what an `int` can hold. -/
theorem send_body_announced_iff (hdata : p.isSendData = some true)
    (h : p.sendResponse now (some memory) length = some sent) :
    sent.Announces sent.body.flatten.length ↔ length < 2 ^ 31 := by
  rw [send_response_announces h]
  obtain ⟨version, -, hbody, -, -⟩ := send_response_cases h
  rw [send_body_some hdata] at hbody
  split at hbody
  · -- the length that stands for the whole C string is written as -1
    rename_i hnpos
    rw [hnpos]
    refine iff_of_false ?_ (by decide)
    intro he
    exact decimal_text_unsigned sent.body.flatten.length
      (he ▸ (by decide : (45 : UInt8) ∈ numberText npos))
  · split at hbody
    · rename_i hle
      rw [← Option.some.inj hbody]
      simp only [List.flatten_cons, List.flatten_nil, List.append_nil, List.length_take,
        Nat.min_eq_left hle]
      exact number_text_iff length
    · cases hbody

theorem send_response_of_body (hversion : p.header.getQueryVersion = some version)
    (hbody : (p.respond (p.connectionText version) length).sendBody memory = some body)
    (now : Int) : p.sendResponse now memory length =
      some ⟨headSends (p.respond (p.connectionText version) length).response version
        (p.connectionText version) now, body, p.respond (p.connectionText version) length⟩ := by
  simp only [sendResponse, hversion, hbody, Option.bind_eq_bind, Option.bind_some]

theorem send_response_empty (hversion : p.header.getQueryVersion = some version)
    (hdata : p.isSendData = some true) (now : Int) (length : Nat) :
    ∃ sent, p.sendResponse now none length = some sent ∧ sent.body = [] ∧
      sent.processor.isSendData = some true :=
  ⟨_, send_response_of_body hversion (send_body_none hdata _ length) now, rfl, hdata⟩

theorem send_response_whole (hversion : p.header.getQueryVersion = some version)
    (hdata : p.isSendData = some true) (now : Int) (memory : List UInt8)
    (hlength : memory.length < npos) :
    ∃ sent, p.sendResponse now (some memory) memory.length = some sent := by
  have hbody := send_body_some hdata (p.connectionText version) memory.length memory
  rw [if_neg (Nat.ne_of_lt hlength), if_pos (Nat.le_refl _)] at hbody
  exact ⟨_, send_response_of_body hversion hbody now⟩

/-- The file that `send_file` answers with its content. -/
def fileServed (p : HttpProcessor) (t : Tree) (tm : Int) (queryUri docRoot fileName : List UInt8) :
    Option OpenFile := do
  let name ← requestedName t queryUri docRoot fileName
  let canonic ← canonicFileName t docRoot name
  let ff ← openFile t canonic npos
  if (p.header.getHeaderParameter (ascii "If-Modified-Since") none).isSome ∧
      ff.timeUpdate ≤ tm then none
  else some ff

theorem open_file_length (h : openFile t name fileSize = some ff)
    (hm : ff.memory = some content) : content.length = ff.length := by
  simp only [openFile, Option.bind_eq_bind, Option.bind_eq_some_iff] at h
  obtain ⟨path, -, entry, -, h⟩ := h
  cases entry with
  | file bytes timeUpdate =>
    dsimp only at h
    split at h
    · rw [← Option.some.inj h] at hm
      cases hm
    · rw [← Option.some.inj h] at hm ⊢
      rw [← Option.some.inj hm]
  | directory size timeUpdate =>
    rw [← Option.some.inj h] at hm
    cases hm
  | link target => cases h

theorem set_section_header (p : HttpProcessor) (path : List UInt8) :
    (p.setSection path).header = p.header := by
  unfold setSection
  split
  · rfl
  · rfl

/-- What `send_file` announces is what it sends if and only if a file that it
serves has a content, of a length that an `int` can hold. -/
theorem send_file_announced_iff (hversion : p.header.getQueryVersion = some version)
    (hdata : p.isSendData = some true) (t : Tree) (now tm : Int)
    (hname : requestedName t queryUri docRoot fileName = some name) :
    (∃ file, p.sendFile t now tm queryUri docRoot fileName = some file ∧
      file.sent.Announces (file.sent.body ++ file.data).flatten.length) ↔
    ∀ ff, p.fileServed t tm queryUri docRoot fileName = some ff →
      ∃ content, ff.memory = some content ∧ ff.length < 2 ^ 31 := by
  have hfound : ∃ file, p.notFound now = some file ∧
      file.sent.Announces (file.sent.body ++ file.data).flatten.length := by
    have hdata' : (p.setResponseStatus 404 (ascii "Not found")).isSendData = some true := hdata
    obtain ⟨sent, hsent⟩ := send_response_whole (p := p.setResponseStatus 404 (ascii "Not found"))
      hversion hdata' now (ascii "File not found") (by decide)
    refine ⟨⟨sent, [], false⟩, ?_, ?_⟩
    · simp only [notFound, hsent, Option.bind_eq_bind, Option.bind_some]
    · rw [List.append_nil]
      exact (send_body_announced_iff hdata' hsent).mpr (by decide)
  simp only [sendFile, fileServed, hname, Option.bind_eq_bind, Option.bind_some]
  cases hcanonic : canonicFileName t docRoot name with
  | none => exact iff_of_true hfound fun ff h => nomatch h
  | some canonic =>
    simp only [Option.bind_some]
    cases hopen : openFile t canonic npos with
    | none => exact iff_of_true hfound fun ff h => nomatch h
    | some ff =>
      simp only [Option.bind_some]
      split
      · rename_i h304
        obtain ⟨sent, hsent, hbody, -⟩ :=
          send_response_empty (p := p.setResponseStatus 304 (ascii "Not Modified")) hversion hdata
            now 0
        refine iff_of_true ⟨⟨sent, [], true⟩, by rw [hsent]; rfl, ?_⟩ fun ff h => nomatch h
        rw [hbody]
        exact (send_response_announces hsent).mpr (number_text_iff 0 |>.mpr (by decide))
      · have hheader : (p.setSection canonic).header = p.header := set_section_header p canonic
        obtain ⟨sent, hsent, hbody, hsends⟩ :=
          send_response_empty (p := { p.setSection canonic with response :=
            { (p.setSection canonic).response with lastModify := some ff.timeUpdate } })
            (by rw [hheader, hversion]) (by rw [isSendData, hheader]; exact hdata) now ff.length
        rw [hsent, Option.bind_some, hsends, Option.bind_some, if_pos rfl]
        constructor
        · rintro ⟨file, hfile, hannounces⟩ ff' hff'
          obtain rfl := Option.some.inj hff'
          cases hmemory : ff.memory with
          | none =>
            rw [hmemory] at hfile
            cases hfile
          | some content =>
            rw [hmemory] at hfile
            obtain rfl := Option.some.inj hfile
            refine ⟨content, rfl, ?_⟩
            simp only [hbody, List.nil_append, List.flatten_cons, List.flatten_nil,
              List.append_nil, ← open_file_length hopen hmemory, List.take_length] at hannounces
            rw [← open_file_length hopen hmemory]
            exact (number_text_iff _).mp
              ((send_response_announces (open_file_length hopen hmemory ▸ hsent)).mp hannounces)
        · intro hall
          obtain ⟨content, hmemory, hlength⟩ := hall ff rfl
          refine ⟨⟨sent, [content.take ff.length], true⟩, by rw [hmemory]; rfl, ?_⟩
          simp only [hbody, List.nil_append, List.flatten_cons, List.flatten_nil,
            List.append_nil, ← open_file_length hopen hmemory, List.take_length]
          rw [← open_file_length hopen hmemory] at hlength
          exact (send_response_announces (open_file_length hopen hmemory ▸ hsent)).mpr
            ((number_text_iff _).mpr hlength)

end HttpProcessor

/-- What `Content-Length` says is the number of bytes sent if and only if an `int`
can hold it; a file must have a content besides. -/
theorem length_announced_iff (p : HttpProcessor) :
    (∀ now memory length sent, p.isSendData = some true →
      p.sendResponse now (some memory) length = some sent →
      (sent.Announces sent.body.flatten.length ↔ length < 2 ^ 31)) ∧
    ∀ version t now tm queryUri docRoot fileName name,
      p.header.getQueryVersion = some version → p.isSendData = some true →
      requestedName t queryUri docRoot fileName = some name →
      ((∃ file, p.sendFile t now tm queryUri docRoot fileName = some file ∧
          file.sent.Announces (file.sent.body ++ file.data).flatten.length) ↔
        ∀ ff, p.fileServed t tm queryUri docRoot fileName = some ff →
          ∃ content, ff.memory = some content ∧ ff.length < 2 ^ 31) :=
  ⟨fun _ _ _ _ hdata h => HttpProcessor.send_body_announced_iff hdata h,
    fun _ t now tm _ _ _ _ hversion hdata hname =>
      HttpProcessor.send_file_announced_iff hversion hdata t now tm hname⟩

/-- The parser behind a request with a `Connection` header. -/
def keyRequest (connection : List UInt8) : HttpProcessor :=
  let text := ascii "GET /key HTTP/1.1\r\nConnection: " ++ connection ++ ascii "\r\n\r\n"
  .ofRequest ((((HttpHeader.new fun _ => 0).processData text text.length 0).map Prod.fst).getD
    (HttpHeader.new fun _ => 0))

theorem close_request_parsed :
    ((keyRequest (ascii "close")).header.getQueryVersion = some (ascii "HTTP/1.1") ∧
      (keyRequest (ascii "close")).isSendData = some true) ∧
    (keyRequest (ascii "close")).header.getHeaderParameter (ascii "Connection") none =
      some (ascii "close") := by
  decide +kernel

/-- A file of one byte is sent with its length. -/
theorem key_length_announced : ∃ file, (keyRequest (ascii "close")).sendFile twoSites 0 0
    (ascii "/key") (ascii "/srv/www-private") [] = some file ∧
      file.sent.Announces (file.sent.body ++ file.data).flatten.length := by
  refine ((length_announced_iff (keyRequest (ascii "close"))).2 (ascii "HTTP/1.1") twoSites 0 0
    (ascii "/key") (ascii "/srv/www-private") [] (ascii "/srv/www-private/key")
    close_request_parsed.1.1 close_request_parsed.1.2 (by decide +kernel)).mpr fun ff hff => ?_
  have hserved : ((keyRequest (ascii "close")).fileServed twoSites 0 (ascii "/key")
      (ascii "/srv/www-private") []).map (fun ff => (ff.memory, ff.length)) =
        some (some (ascii "k"), 1) := by
    decide +kernel
  rw [hff, Option.map_some, Option.some.injEq, Prod.mk.injEq] at hserved
  exact ⟨_, hserved.1, by rw [hserved.2]; decide⟩

/-- A body of 2^31 bytes is announced as a negative number. -/
theorem long_body_misannounced : ¬ ∀ (p : HttpProcessor) now memory length sent,
    length < 2 ^ 64 → p.isSendData = some true →
    p.sendResponse now (some memory) length = some sent →
    sent.Announces sent.body.flatten.length := by
  intro h
  obtain ⟨hversion, hdata⟩ := close_request_parsed.1
  have hlength : (List.replicate (2 ^ 31) (0 : UInt8)).length = 2 ^ 31 := List.length_replicate
  obtain ⟨sent, hsent⟩ := HttpProcessor.send_response_whole hversion hdata 0
    (List.replicate (2 ^ 31) 0) (by rw [hlength]; decide)
  have hbound := (HttpProcessor.send_body_announced_iff hdata hsent).mp
    (h _ _ _ _ sent (by rw [hlength]; decide) hdata hsent)
  rw [hlength] at hbound
  exact absurd hbound (Nat.lt_irrefl _)

theorem head_sends_connection {version connection version' connection' : List UInt8}
    (h : HttpProcessor.headSends r version connection now =
      HttpProcessor.headSends r version' connection' now') : connection = connection' := by
  unfold HttpProcessor.headSends at h
  by_cases hr : r.redirectUrl = []
  · have hline := congrArg (·[10]?) h
    simpa [hr] using hline
  · have hline := congrArg (·[13]?) h
    simpa [hr] using hline

def SentResponse.Emits (sent : SentResponse) (connection : List UInt8) : Prop :=
  ∃ version now, sent.head = HttpProcessor.headSends sent.processor.response version connection now

/-- What `process_http` has done with a request that it has answered with this
response, and with a file behind it. -/
def SentResponse.answer (sent : SentResponse) (data : List (List UInt8)) (server : σ) : Answer σ :=
  ⟨server, sent.head ++ sent.body ++ data, sent.processor.response.autoClose⟩

/-- A `Connection` header that means keep-alive is spelled so. -/
def HttpProcessor.SpellsKeepAlive (p : HttpProcessor) : Prop :=
  ∀ value, p.header.getHeaderParameter (ascii "Connection") none = some value →
    strcaseEq value (ascii "keep-alive") = true → value = ascii "keep-alive"

theorem spells_keep_alive_iff (p : HttpProcessor) (version : List UInt8) :
    p.SpellsKeepAlive ↔ (strcaseEq (p.connectionText version) (ascii "keep-alive") = true →
      p.connectionText version = ascii "keep-alive") := by
  unfold HttpProcessor.SpellsKeepAlive HttpProcessor.connectionText
  cases p.header.getHeaderParameter (ascii "Connection") none with
  | none =>
    refine iff_of_true (by simp) fun h => ?_
    rw [Option.getD_none] at h ⊢
    split at h
    · rename_i hversion
      rw [if_pos hversion]
    · exact absurd h (by decide)
  | some value =>
    rw [Option.getD_some]
    exact ⟨fun h => h value rfl, fun h value' he => Option.some.inj he ▸ h⟩

theorem processing_closes_iff {processHttp : ProcessHttp σ} {a : Answers σ} (ho : a.Open)
    (request : HttpHeader) : (a.processing processHttp request).trace.getLast? = some .closed ↔
      (processHttp a.server request).autoClose = true := by
  obtain ⟨output, hbev⟩ := ho.bev
  rw [Answers.processing_eq hbev]
  cases (processHttp a.server request).autoClose with
  | true =>
    obtain ⟨htrace, -⟩ := Answers.close_some (rfl :
      (a.answered processHttp request output).bev = some _)
    rw [if_pos rfl, htrace]
    exact iff_of_true List.getLast?_concat rfl
  | false =>
    refine iff_of_false (fun hlast => ?_) Bool.false_ne_true
    exact Answers.not_closed_answered ho.trace
      ⟨_, List.mem_of_getLast? hlast, rfl⟩

theorem emits_iff (hsent : HttpProcessor.sendResponse p now memory length = some sent)
    (hversion : p.header.getQueryVersion = some version) :
    sent.Emits connection ↔ connection = p.connectionText version := by
  obtain ⟨version', hversion', -, -, hhead⟩ := HttpProcessor.send_response_cases hsent
  obtain rfl := Option.some.inj (hversion.symm.trans hversion')
  constructor
  · rintro ⟨version', now', he⟩
    exact head_sends_connection (he.symm.trans hhead)
  · rintro rfl
    exact ⟨version, now, hhead⟩

theorem answer_auto_close (hsent : HttpProcessor.sendResponse p now memory length = some sent)
    (hversion : p.header.getQueryVersion = some version) (data : List (List UInt8)) (server : σ) :
    (sent.answer data server).autoClose = true ↔ p.connectionText version ≠ ascii "keep-alive" := by
  obtain ⟨version', hversion', -, hprocessor, -⟩ := HttpProcessor.send_response_cases hsent
  obtain rfl := Option.some.inj (hversion.symm.trans hversion')
  rw [SentResponse.answer, hprocessor]
  exact decide_eq_true_iff

/-- A response announces whether the connection is closed behind it if and only
if its request spells keep-alive as the comparison of `send_response` has it. -/
theorem close_announced_iff {p : HttpProcessor} {sent : SentResponse} {a : Answers σ}
    {processHttp : ProcessHttp σ} (hsent : p.sendResponse now memory length = some sent)
    (ho : a.Open) (hanswer : processHttp a.server request = sent.answer data server) :
    (∃ connection, sent.Emits connection ∧
      ((a.processing processHttp request).trace.getLast? = some .closed ↔
        strcaseEq connection (ascii "keep-alive") = false)) ↔ p.SpellsKeepAlive := by
  obtain ⟨version, hversion, -⟩ := HttpProcessor.send_response_cases hsent
  rw [processing_closes_iff ho, hanswer, answer_auto_close hsent hversion,
    spells_keep_alive_iff p version]
  constructor
  · rintro ⟨connection, hemits, hagree⟩ hmeans
    rw [(emits_iff hsent hversion).mp hemits, hmeans] at hagree
    by_contra hspelled
    exact absurd (hagree.mp hspelled) (by decide)
  · intro hspells
    refine ⟨_, (emits_iff hsent hversion).mpr rfl, fun hother => ?_, fun hnot hspelled => ?_⟩
    · exact Bool.eq_false_iff.mpr fun hmeans => hother (hspells hmeans)
    · rw [hspelled] at hnot
      exact absurd hnot (by decide)

/-- A client that wants the connection closed is told so. -/
theorem close_announced : ∃ sent, (keyRequest (ascii "close")).sendResponse 0 none 0 = some sent ∧
    ∃ connection, sent.Emits connection ∧
      (((Answers.opened ()).processing (fun _ _ => sent.answer [] ())
          (keyRequest (ascii "close")).header).trace.getLast? = some .closed ↔
        strcaseEq connection (ascii "keep-alive") = false) := by
  obtain ⟨⟨hversion, hdata⟩, hclose⟩ := close_request_parsed
  obtain ⟨sent, hsent, -⟩ := HttpProcessor.send_response_empty hversion hdata 0 0
  have hanswer : (fun _ _ => sent.answer [] () : ProcessHttp Unit) (Answers.opened ()).server
      (keyRequest (ascii "close")).header = sent.answer [] () := rfl
  refine ⟨sent, hsent, (close_announced_iff hsent (Answers.opened_open ()) hanswer).mpr ?_⟩
  intro value hvalue hmeans
  rw [← Option.some.inj (hclose.symm.trans hvalue)] at hmeans
  exact absurd hmeans (by decide)

theorem capitals_request_parsed :
    ((keyRequest (ascii "Keep-Alive")).header.getQueryVersion = some (ascii "HTTP/1.1") ∧
      (keyRequest (ascii "Keep-Alive")).isSendData = some true) ∧
    (keyRequest (ascii "Keep-Alive")).connectionText (ascii "HTTP/1.1") = ascii "Keep-Alive" := by
  decide +kernel

/-- `Keep-Alive` is echoed to the client, and the connection is closed. -/
theorem capitals_misannounced : ¬ ∀ (p : HttpProcessor) now memory length sent (a : Answers Unit)
    (processHttp : ProcessHttp Unit) request data,
    p.sendResponse now memory length = some sent → a.Open →
    processHttp a.server request = sent.answer data () →
    ∃ connection, sent.Emits connection ∧
      ((a.processing processHttp request).trace.getLast? = some .closed ↔
        strcaseEq connection (ascii "keep-alive") = false) := by
  intro h
  obtain ⟨⟨hversion, hdata⟩, hconnection⟩ := capitals_request_parsed
  obtain ⟨sent, hsent, -⟩ := HttpProcessor.send_response_empty hversion hdata 0 0
  obtain ⟨connection, hemits, hagree⟩ := h _ _ _ _ sent (.opened ())
    (fun _ _ => sent.answer [] ()) (keyRequest (ascii "Keep-Alive")).header [] hsent
    (Answers.opened_open ()) rfl
  rw [(emits_iff hsent hversion).mp hemits, processing_closes_iff (Answers.opened_open ()),
    answer_auto_close hsent hversion, hconnection] at hagree
  exact absurd (hagree.mp (by decide)) (by decide)

end Khorost
