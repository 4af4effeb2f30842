import Khorost.Proofs.Announced

namespace Khorost

/-- The text that `send_response` writes behind `Last-Modified` for a point in time. -/
def lastModifiedText (t : Int) : List UInt8 :=
  strftime (gmtime t) (ascii "%a, %d-%b-%Y %H:%M:%S GMT")

theorem last_modified_sent {r : Response} (h : r.lastModify = some t)
    (version connection : List UInt8) (now : Int) :
    [ascii "Last-Modified: ", lastModifiedText t, endl] <:+:
      HttpProcessor.headSends r version connection now := by
  have hbehind : headBehind r = [endl] ++ [ascii "Last-Modified: ", lastModifiedText t, endl] ++
      (r.headerParams.flatMap (fun param => [param.1, ascii ": ", param.2, endl]) ++ [endl]) := by
    simp only [headBehind, h, lastModifiedText, List.append_assoc]
  have hinside : [ascii "Last-Modified: ", lastModifiedText t, endl] <:+: headBehind r :=
    ⟨[endl], _, hbehind.symm⟩
  rw [head_sends_eq]
  exact hinside.trans ((List.suffix_cons _ _).trans (List.suffix_append _ _)).isInfix

def openedFile (t : Tree) (queryUri docRoot fileName : List UInt8) : Option OpenFile := do
  let name ← requestedName t queryUri docRoot fileName
  let canonic ← canonicFileName t docRoot name
  openFile t canonic npos

/-- A request with the text for `time`, for which no other status has been set. -/
structure HttpProcessor.Repeats (p : HttpProcessor) (time : Int) : Prop where
  version : p.header.getQueryVersion.isSome
  repeats : p.header.getHeaderParameter (ascii "If-Modified-Since") none =
    some (lastModifiedText time)
  status : p.response.code = 200

namespace SentFile

def HasStatus (file : SentFile) (code : Int) : Prop :=
  ∃ version behind, file.sent.head = version :: [space] :: numberText code :: behind

theorem HasStatus.unique {file : SentFile} (h : file.HasStatus code) (h' : file.HasStatus code') :
    numberText code = numberText code' := by
  obtain ⟨version, behind, he⟩ := h
  obtain ⟨version', behind', he'⟩ := h'
  rw [he] at he'
  simp only [List.cons.injEq] at he'
  exact he'.2.2.1

structure NotModified (file : SentFile) : Prop where
  status : file.HasStatus 304
  no_body : file.sent.body ++ file.data = []

/-- The file is sent, unless only the head of the response has been asked for. -/
structure Served (file : SentFile) (ff : OpenFile) (sendData : Bool) : Prop where
  status : file.HasStatus 200
  content : if sendData then ff.memory = some (file.sent.body ++ file.data).flatten
    else file.sent.body ++ file.data = []

/-- The answer for a file of the given time and a request with the text for `time`. -/
def ByTime (file : SentFile) (time : Int) (ff : OpenFile) (sendData : Bool) : Prop :=
  if ff.timeUpdate ≤ time then file.NotModified else file.Served ff sendData

theorem NotModified.not_served {file : SentFile} (h : file.NotModified) (ff : OpenFile)
    (sendData : Bool) : ¬ file.Served ff sendData := fun hs =>
  absurd (h.status.unique hs.status) (by decide)

end SentFile

namespace HttpProcessor

variable {p : HttpProcessor} {t : Tree} {queryUri docRoot fileName : List UInt8} {ff : OpenFile}

theorem send_response_bare (hversion : p.header.getQueryVersion = some version)
    (hdata : p.isSendData = some sendData) (now : Int) (length : Nat) :
    ∃ sent, p.sendResponse now none length = some sent ∧ sent.body = [] ∧
      sent.processor.isSendData = some sendData ∧
      ∃ behind, sent.head = version :: [space] :: numberText p.response.code :: behind := by
  have hdata' : (p.respond (p.connectionText version) length).isSendData = some sendData := hdata
  have hbody : (p.respond (p.connectionText version) length).sendBody none = some [] := by
    simp only [sendBody, hdata', Option.bind_eq_bind, Option.bind_some]
  refine ⟨_, send_response_of_body hversion hbody now, rfl, hdata, ?_⟩
  simp only [headSends, List.cons_append]
  exact ⟨_, rfl⟩

theorem not_found_status (h : p.notFound now = some file) : file.HasStatus 404 := by
  simp only [notFound, Option.bind_eq_bind, Option.bind_eq_some_iff, Option.some.injEq] at h
  obtain ⟨sent, hsent, rfl⟩ := h
  obtain ⟨version, -, -, hprocessor, hhead⟩ := send_response_cases hsent
  rw [hprocessor] at hhead
  simp only [headSends, List.cons_append] at hhead
  exact ⟨_, _, hhead⟩

/-- A file that is not newer than the time that has come out is not sent. -/
theorem send_file_older (hversion : p.header.getQueryVersion = some version)
    (hdata : p.isSendData = some sendData)
    (hsince : (p.header.getHeaderParameter (ascii "If-Modified-Since") none).isSome)
    (hopen : openedFile t queryUri docRoot fileName = some ff) (now : Int)
    (hle : ff.timeUpdate ≤ tm) :
    ∃ file, p.sendFile t now tm queryUri docRoot fileName = some file ∧ file.NotModified := by
  simp only [openedFile, Option.bind_eq_bind, Option.bind_eq_some_iff] at hopen
  obtain ⟨name, hname, canonic, hcanonic, hfile⟩ := hopen
  obtain ⟨sent, hsent, hbody, -, behind, hhead⟩ :=
    send_response_bare (p := p.setResponseStatus 304 (ascii "Not Modified")) hversion hdata now 0
  refine ⟨⟨sent, [], true⟩, ?_, ⟨_, _, hhead⟩, by rw [hbody]; rfl⟩
  simp only [sendFile, hname, hcanonic, hfile, hsince, hle, hsent, Option.bind_eq_bind,
    Option.bind_some, and_self, if_true]

theorem send_file_newer (hversion : p.header.getQueryVersion = some version)
    (hdata : p.isSendData = some sendData) (hstatus : p.response.code = 200)
    (hopen : openedFile t queryUri docRoot fileName = some ff) (now : Int)
    (hlater : ¬ ((p.header.getHeaderParameter (ascii "If-Modified-Since") none).isSome ∧
      ff.timeUpdate ≤ tm)) :
    (∃ file, p.sendFile t now tm queryUri docRoot fileName = some file ∧
        file.Served ff sendData) ∧ (sendData = true → ff.memory.isSome) ∨
      p.sendFile t now tm queryUri docRoot fileName = none ∧
        ¬ (sendData = true → ff.memory.isSome) := by
  simp only [openedFile, Option.bind_eq_bind, Option.bind_eq_some_iff] at hopen
  obtain ⟨name, hname, canonic, hcanonic, hfile⟩ := hopen
  have hheader : (p.setSection canonic).header = p.header := set_section_header p canonic
  have hcode : (p.setSection canonic).response.code = 200 := by
    rw [← hstatus, setSection]
    split
    · rfl
    · rfl
  obtain ⟨sent, hsent, hbody, hsends, behind, hhead⟩ :=
    send_response_bare (p := { p.setSection canonic with response :=
      { (p.setSection canonic).response with lastModify := some ff.timeUpdate } })
      (by rw [hheader, hversion]) (by rw [isSendData, hheader]; exact hdata) now ff.length
  rw [hcode] at hhead
  simp only [sendFile, hname, hcanonic, hfile, if_neg hlater, hsent, hsends, Option.bind_eq_bind,
    Option.bind_some]
  cases sendData with
  | false =>
    refine .inl ⟨⟨⟨sent, [], true⟩, rfl, ⟨_, _, hhead⟩, by rw [hbody]; rfl⟩, ?_⟩
    intro h
    cases h
  | true =>
    cases hmemory : ff.memory with
    | none =>
      refine .inr ⟨rfl, fun h => ?_⟩
      cases h rfl
    | some content =>
      refine .inl ⟨⟨⟨sent, [content.take ff.length], true⟩, rfl, ⟨_, _, hhead⟩, ?_⟩, fun _ => rfl⟩
      rw [if_pos rfl, hbody, hmemory, ← open_file_length hfile hmemory, List.take_length]
      simp

end HttpProcessor

/-- Whether a request with the text for `time` is answered by it is settled by what
`timegm` makes of a `tm` that nothing has been written to: that has to be on the
side of the file's time on which `time` is, and a file that is sent must have a
content. For no request is the answer right whatever was there. -/
theorem answered_by_time_iff {p : HttpProcessor} (h : p.Repeats time)
    (hdata : p.isSendData = some sendData)
    (hopen : openedFile t queryUri docRoot fileName = some ff) (now : Int) :
    (∀ tm, (∃ file, p.sendFile t now tm queryUri docRoot fileName = some file ∧
        file.ByTime time ff sendData) ↔
      if ff.timeUpdate ≤ time then ff.timeUpdate ≤ tm
      else tm < ff.timeUpdate ∧ (sendData = true → ff.memory.isSome)) ∧
    ¬ ∀ tm, ∃ file, p.sendFile t now tm queryUri docRoot fileName = some file ∧
      file.ByTime time ff sendData := by
  obtain ⟨version, hversion⟩ := Option.isSome_iff_exists.mp h.version
  have hsince : (p.header.getHeaderParameter (ascii "If-Modified-Since") none).isSome := by
    rw [h.repeats]
    rfl
  have holder := fun tm (hle : ff.timeUpdate ≤ tm) =>
    HttpProcessor.send_file_older hversion hdata hsince hopen now hle
  have hnewer := fun tm (hlt : tm < ff.timeUpdate) =>
    HttpProcessor.send_file_newer hversion hdata h.status hopen now
      fun hboth => absurd hboth.2 (Int.not_le.mpr hlt)
  have hiff : ∀ tm, (∃ file, p.sendFile t now tm queryUri docRoot fileName = some file ∧
      file.ByTime time ff sendData) ↔
      if ff.timeUpdate ≤ time then ff.timeUpdate ≤ tm
      else tm < ff.timeUpdate ∧ (sendData = true → ff.memory.isSome) := by
    intro tm
    by_cases htime : ff.timeUpdate ≤ time
    · simp only [SentFile.ByTime, if_pos htime]
      by_cases hle : ff.timeUpdate ≤ tm
      · exact iff_of_true (holder tm hle) hle
      · refine iff_of_false ?_ hle
        rintro ⟨file, hfile, hnot⟩
        rcases hnewer tm (Int.not_le.mp hle) with ⟨⟨file', hfile', hserved⟩, -⟩ | ⟨hnone, -⟩
        · obtain rfl := Option.some.inj (hfile.symm.trans hfile')
          exact hnot.not_served ff sendData hserved
        · rw [hnone] at hfile
          cases hfile
    · simp only [SentFile.ByTime, if_neg htime]
      by_cases hle : ff.timeUpdate ≤ tm
      · refine iff_of_false ?_ fun hlt => absurd hlt.1 (Int.not_lt.mpr hle)
        rintro ⟨file, hfile, hserved⟩
        obtain ⟨file', hfile', hnot⟩ := holder tm hle
        obtain rfl := Option.some.inj (hfile.symm.trans hfile')
        exact hnot.not_served ff sendData hserved
      · have hlt := Int.not_le.mp hle
        rcases hnewer tm hlt with ⟨hserved, hmapped⟩ | ⟨hnone, hmissing⟩
        · exact iff_of_true hserved ⟨hlt, hmapped⟩
        · refine iff_of_false ?_ fun hboth => hmissing hboth.2
          rintro ⟨file, hfile, -⟩
          rw [hnone] at hfile
          cases hfile
  refine ⟨hiff, fun hall => ?_⟩
  by_cases hle : ff.timeUpdate ≤ time
  · have hbelow := (hiff (ff.timeUpdate - 1)).mp (hall _)
    rw [if_pos hle] at hbelow
    omega
  · have habove := (hiff ff.timeUpdate).mp (hall _)
    rw [if_neg hle] at habove
    exact absurd habove.1 (Int.lt_irrefl _)

/-- The parser behind a request for what has changed since the epoch. -/
def sinceRequest : HttpProcessor :=
  let text := ascii "GET /key HTTP/1.1\r\nIf-Modified-Since: Thu, 01-Jan-1970 00:00:00 GMT\r\n\r\n"
  .ofRequest ((((HttpHeader.new fun _ => 0).processData text text.length 0).map Prod.fst).getD
    (HttpHeader.new fun _ => 0))

theorem since_request_parsed : (sinceRequest.header.getQueryVersion.isSome = true ∧
    sinceRequest.header.getHeaderParameter (ascii "If-Modified-Since") none =
      some (lastModifiedText 0)) ∧ sinceRequest.isSendData = some true := by
  decide +kernel

theorem since_request_repeats : sinceRequest.Repeats 0 :=
  ⟨since_request_parsed.1.1, since_request_parsed.1.2, rfl⟩

theorem key_opened : openedFile twoSites (ascii "/key") (ascii "/srv/www-private") [] =
    some ⟨some (ascii "k"), 1, 0⟩ := by
  have hopen : (openedFile twoSites (ascii "/key") (ascii "/srv/www-private") []).map
      (fun ff => (ff.memory, ff.length, ff.timeUpdate)) = some (some (ascii "k"), 1, 0) := by
    decide +kernel
  obtain ⟨⟨memory, length, timeUpdate⟩, hff, hfields⟩ := Option.map_eq_some_iff.mp hopen
  rw [hff]
  simp only [Prod.mk.injEq] at hfields
  obtain ⟨rfl, rfl, rfl⟩ := hfields
  rfl

/-- A file of the epoch is not sent again if the `tm` happens to be that of a later time. -/
theorem key_not_modified : ∃ file, sinceRequest.sendFile twoSites 0 1000000000 (ascii "/key")
    (ascii "/srv/www-private") [] = some file ∧ file.ByTime 0 ⟨some (ascii "k"), 1, 0⟩ true :=
  ((answered_by_time_iff since_request_repeats since_request_parsed.2 key_opened 0).1
    1000000000).mpr (by decide)

/-- A `tm` of zeros is the last day of 1899, and the file is sent again. -/
theorem key_sent_again : ¬ ∀ (p : HttpProcessor) time sendData t queryUri docRoot fileName ff,
    p.Repeats time → p.isSendData = some sendData →
    openedFile t queryUri docRoot fileName = some ff → ∀ now tm,
    ∃ file, p.sendFile t now tm queryUri docRoot fileName = some file ∧
      file.ByTime time ff sendData := by
  intro h
  have hall := h sinceRequest 0 true twoSites (ascii "/key") (ascii "/srv/www-private") []
    ⟨some (ascii "k"), 1, 0⟩ since_request_repeats since_request_parsed.2 key_opened 0
  obtain ⟨file, hfile, hanswer⟩ := hall (-2209075200)
  have hnot : file.NotModified := hanswer
  have hrun : (sinceRequest.sendFile twoSites 0 (-2209075200) (ascii "/key")
      (ascii "/srv/www-private") []).map SentFile.data = some [ascii "k"] := by
    decide +kernel
  rw [hfile, Option.map_some, Option.some.injEq] at hrun
  have hempty := (List.append_eq_nil_iff.mp hnot.no_body).2
  rw [hrun] at hempty
  exact absurd hempty (List.cons_ne_nil _ _)

end Khorost
