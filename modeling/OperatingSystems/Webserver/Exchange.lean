import OperatingSystems.Webserver.Chunking
import OperatingSystems.Webserver.Connection
import OperatingSystems.Webserver.ErrorBody
import OperatingSystems.Webserver.Finishing

/-!
# A client and the server

One request from `client_send` to the assertions of `client_print`, with the server of
`CacheServer` between them, in which other executions share the cache.

`Framed` is where both sides meet: header lines that announce the length and the sum of a body, an
empty line, and the body. From such a response the client takes the body, its length and its sum
(`Decodes`), and it stays within its array if no line of the body fills that (`StaysInArray`). Both
kinds of responses are framed around the body that the disk determines (`answerBody`), so the
assertions of the client hold exactly if it expects the length and the sum of that body
(`exchange_verifies`).
-/

set_option autoImplicit false
set_option relaxedAutoImplicit false

namespace OperatingSystems.Webserver

/-! ### What a response decodes to -/

/-- The assertions of `client_print`, for the sum and the length that it expects. -/
def Received.Verified (r : Received) (csum : ℕ) (length : ℤ) : Prop :=
  csum = r.tags.csum ∧ length = r.tags.length ∧ r.tags.length = r.lengthReceived ∧
    r.tags.csum = r.csumReceived

/-- However `read` splits the response, the client gets to its assertions, with this body. -/
def Decodes (response body : List UInt8) : Prop :=
  ∀ input, ReadResult.failed ∉ input → delivered input = response → ∀ buf,
    ∃ headerTurns bodyTurns r, clientPrint headerTurns bodyTurns buf input = some r ∧
      r.body.stream = body ∧ r.tags = ⟨body.length, checksum body⟩ ∧
      r.lengthReceived = body.length ∧ r.csumReceived = checksum body

/-- However `read` splits the response, and however many lines `client_print` reads of it, each of
them and its NUL are within the array `buf` of `MAXBUF` bytes. -/
def StaysInArray (response : List UInt8) : Prop :=
  ∀ input, ReadResult.failed ∉ input → delivered input = response → ∀ calls results,
    rioReadlines (rioInit input) (List.replicate calls maxBuf) = some results →
    ∀ result ∈ results, result.2.length ≤ maxBuf

/-- The response has header lines that announce this body, an empty line, and the body. -/
structure Framed (response body : List UInt8) : Prop where
  parts : ∃ (status : List UInt8) (lines : List (List UInt8)), HeaderLine status ∧
    (∀ line ∈ lines, HeaderLine line) ∧
    (lines.foldl Tags.scan ⟨0, 0⟩).scan [13, 10] = ⟨body.length, checksum body⟩ ∧
    response = status ++ (lines.flatten ++ ([13, 10] ++ body))
  short : body.length < 2 ^ 31

section Decodes

variable {disk : List UInt8 → FileStatus} {line : RequestLine} {e : ErrorCall} {r : Received}
  {response body fileName fileBuf : List UInt8} {fileSize : ℤ}

/-- The assertions hold exactly if the client expects what it has decoded. -/
theorem Received.verified_iff (htags : r.tags = ⟨body.length, checksum body⟩)
    (hlength : r.lengthReceived = body.length) (hcsum : r.csumReceived = checksum body) (csum : ℕ)
    (length : ℤ) : r.Verified csum length ↔ csum = checksum body ∧ length = body.length := by
  rw [Received.Verified, htags, hlength, hcsum]
  simp only [and_true]

/-- The client decodes a framed response. -/
theorem Framed.decodes (h : Framed response body) : Decodes response body := by
  intro input hread hinput buf
  obtain ⟨status, lines, hstatus, hlines, hscan, hresponse⟩ := h.parts
  obtain ⟨headerTurns, bodyTurns, r, hrun, hbody, htags, hlength, hcsum⟩ :=
    clientPrint_run hread hstatus hlines h.short (hinput.trans hresponse) buf
  exact ⟨headerTurns, bodyTurns, r, hrun, hbody, htags.trans hscan, hlength, hcsum⟩

/-- A header line in front. -/
theorem HeaderLine.linesFit {header rest : List UInt8} (h : HeaderLine header)
    (hrest : LinesFit maxBuf rest) : LinesFit maxBuf (header ++ rest) := by
  obtain ⟨str, rfl, -⟩ := h.ends
  have hfit := h.fits
  rw [List.length_append, List.length_singleton] at hfit
  rw [List.append_assoc, List.singleton_append]
  exact hrest.append_line hfit

/-- The lines of the header fit the array, so those of the response do if those of the body do. -/
theorem Framed.linesFit (h : Framed response body) (hbody : LinesFit maxBuf body) :
    LinesFit maxBuf response := by
  obtain ⟨status, lines, hstatus, hlines, -, rfl⟩ := h.parts
  refine hstatus.linesFit ?_
  clear h
  induction lines with
  | nil => exact @LinesFit.append_line maxBuf [13] body hbody (by decide)
  | cons line lines ih =>
    rw [List.flatten_cons, List.append_assoc]
    exact (hlines line List.mem_cons_self).linesFit
      (ih fun line hline ↦ hlines line (List.mem_cons_of_mem _ hline))

/-- The client that reads such a response stays within its array. -/
theorem Framed.staysInArray (h : Framed response body) (hbody : LinesFit maxBuf body) :
    StaysInArray response := by
  intro input hread hinput calls results hresults
  have hstream : (rioInit input).stream = response := (List.nil_append _).trans hinput
  exact (hstream ▸ h.linesFit hbody : LinesFit maxBuf (rioInit input).stream).written_le
    (by decide) hread hresults

/-- The response for a file. -/
theorem framed_requestSendfile {data : FileData} (hsize : data.fileSize = data.fileBuf.length)
    (hlt : data.fileBuf.length < 2 ^ 31) : Framed (requestSendfile data) data.fileBuf where
  parts := ⟨_, _, headerLine_of (by decide) (by decide) (by decide) (by decide),
    headerLine_of_mem hlt, scan_responseLines hlt, requestSendfile_eq hsize⟩
  short := hlt

/-- The response of `request_error`. -/
theorem framed_response (he : errorCall disk line = some e) (hlt : e.body.length < 2 ^ 31) :
    Framed e.response e.body where
  parts := ⟨_, _, headerLine_status he, ErrorCall.headerLine_of_mem hlt, ErrorCall.scan_lines hlt,
    e.response_eq⟩
  short := hlt

/-- A file that is read has as many bytes as its size says. -/
theorem fileSize_eq_of_requestReadfile
    (h : requestReadfile disk fileName = .filled fileBuf fileSize) :
    fileSize = fileBuf.length ∧ fileBuf.length < 2 ^ 31 := by
  simp only [requestReadfile] at h
  split_ifs at h
  split at h
  · cases h
  · cases h
  · rename_i contents _
    split_ifs at h with hneg
    obtain ⟨rfl, rfl⟩ := ReadOutcome.filled.inj h
    have hlt := Int.bmod_lt (x := (contents.length : ℤ)) (m := 2 ^ 32) (by decide)
    have hle : (contents.length : ℤ).bmod (2 ^ 32) ≤ contents.length := by
      rw [Int.bmod_def]
      split_ifs <;> omega
    rw [List.length_take, Nat.min_eq_left (by omega)]
    omega

/-- What is read of a file is its start. -/
theorem prefix_of_requestReadfile (h : requestReadfile disk fileName = .filled fileBuf fileSize) :
    ∃ contents, disk fileName = .regular contents ∧ fileBuf <+: contents := by
  simp only [requestReadfile] at h
  split_ifs at h
  split at h
  · cases h
  · cases h
  · rename_i contents hdisk
    split_ifs at h
    obtain ⟨rfl, -⟩ := ReadOutcome.filled.inj h
    exact ⟨contents, hdisk, List.take_prefix _ _⟩

/-- The errors of `request_readfile` have a text of bounded length. -/
theorem fixedText_le (he : requestReadfileError disk fileName = some e) :
    e.cause = fileName ∧ e.fixedText ≤ 170 := by
  rw [requestReadfileError] at he
  split_ifs at he
  · cases he
    exact ⟨rfl, by simp only [ErrorCall.fixedText]; decide⟩
  · cases he
    exact ⟨rfl, by simp only [ErrorCall.fixedText]; decide⟩
  · cases he
    exact ⟨rfl, by simp only [ErrorCall.fixedText]; decide⟩
  · cases hdisk : disk fileName with
    | missing =>
      rw [hdisk] at he
      cases he
      exact ⟨rfl, by simp only [ErrorCall.fixedText]; decide⟩
    | unreadable =>
      rw [hdisk] at he
      cases he
      exact ⟨rfl, by simp only [ErrorCall.fixedText]; decide⟩
    | regular contents =>
      rw [hdisk] at he
      cases he

end Decodes

/-! ### The server in between -/

/-- The bytes behind the header of the response for a name: the file, or the message. -/
def answerBody (disk : List UInt8 → FileStatus) (fileName : List UInt8) : List UInt8 :=
  match requestReadfileError disk fileName with
  | some e => e.body
  | none =>
    match requestReadfile disk fileName with
    | .filled fileBuf _ => fileBuf
    | .refused _ | .exits => []

/-- On a connection `request_init` reads a request line, and in some interleaving of requests that
all read from the disk the server sends this response for it. -/
def Answers (disk : List UInt8 → FileStatus) (maxCacheSize : ℤ) (stack : Stack)
    (input : List ReadResult) (response : List UInt8) : Prop :=
  ∃ calls line, requestInitOn calls stack input = some (.ofRead (requestInit line)) ∧
    CacheServer.Sends disk maxCacheSize line response

section Exchange

variable {disk : List UInt8 → FileStatus} {maxCacheSize : ℤ} {line : RequestLine}
  {host fileName request response : List UInt8} {stack : Stack} {input input' : List ReadResult}

/-- The response for a name is framed around what the disk determines. -/
theorem framed_answerBody {name : List UInt8} (hname : name.length ≤ 8010)
    (hline : requestInit line = .ok name) (hrespond : respond disk line = some response) :
    Framed response (answerBody disk name) := by
  rw [respond, hline] at hrespond
  simp only at hrespond
  rw [answerBody]
  cases houtcome : requestReadfile disk name with
  | refused r =>
    obtain ⟨e, he, hresponse⟩ := (requestReadfile_refused_iff disk name r).mp houtcome
    obtain ⟨hcause, htext⟩ := fixedText_le he
    rw [houtcome, Option.some.injEq] at hrespond
    rw [he, ← hrespond, ← hresponse]
    have hcall : errorCall disk line = some e := by
      rw [requestInit_eq] at hline
      rw [errorCall]
      split at hline
      · cases hline
      · cases hline
        exact he
    refine framed_response hcall ?_
    rw [e.length_body, hcause]
    omega
  | filled fileBuf fileSize =>
    have hnone : requestReadfileError disk name = none := by
      by_contra hsome
      obtain ⟨e, he⟩ := Option.ne_none_iff_exists'.mp hsome
      have hrefused := (requestReadfile_refused_iff disk name e.response).mpr ⟨e, he, rfl⟩
      rw [houtcome] at hrefused
      cases hrefused
    obtain ⟨hsize, hlt⟩ := fileSize_eq_of_requestReadfile houtcome
    rw [houtcome, Option.some.injEq] at hrespond
    rw [hnone, ← hrespond]
    exact framed_requestSendfile hsize hlt
  | exits =>
    rw [houtcome] at hrespond
    cases hrespond

/-- If no line of the file fills the array of the client, no line of the answer does: a message is
shorter than the array. -/
theorem linesFit_answerBody {name : List UInt8} (hname : name.length ≤ 8010)
    (hfile : ∀ contents, disk name = .regular contents → LinesFit maxBuf contents) :
    LinesFit maxBuf (answerBody disk name) := by
  rw [answerBody]
  split
  · rename_i e he
    obtain ⟨hcause, htext⟩ := fixedText_le he
    refine linesFit_of_length_lt ?_
    have hmax : maxBuf = 8192 := rfl
    rw [e.length_body, hcause]
    omega
  · split
    · rename_i fileBuf fileSize houtcome
      obtain ⟨contents, hdisk, hprefix⟩ := prefix_of_requestReadfile houtcome
      exact (hfile contents hdisk).of_isInfix hprefix.isInfix
    · exact linesFit_of_length_lt (by decide)
    · exact linesFit_of_length_lt (by decide)

/-- What the server answers to the request of the client is framed around what the disk
determines. -/
theorem exchange_run (hword : IsWord fileName) (hnul : 0 ∉ fileName)
    (hlong : fileName.length ≤ 8000) {results : List WriteResult} (hwrite : .failed ∉ results)
    (hread : .failed ∉ input) (hsend : clientSend results host fileName = some (delivered input))
    (hanswer : Answers disk maxCacheSize stack input response) :
    Framed response (answerBody disk (ascii "./" ++ fileName)) := by
  obtain ⟨hrequest, hfit⟩ := clientSend_eq hwrite hsend
  obtain ⟨calls, line, hinit, hsends⟩ := hanswer
  have hname := (requestInitOn_request hword hnul hfit hread hrequest stack).2 _ _ hinit
  have hdot : (ascii "./").length = 2 := by decide
  exact framed_answerBody (by rw [List.length_append, hdot]; omega) hname hsends.respond_eq

/-- Assumes: the name is not empty, has no NUL and no blank and at most 8000 bytes; the request fits
the array of `client_send`; nothing fails in reading and writing; and no line of the file has
`MAXBUF` bytes with its newline, so that the NUL that `rio_readlineb` puts behind it is within the
array of `client_print`. For every limit of the cache and in every interleaving with other
requests, and however the request and the response are split, the client that reads what the server
answers stays within its array and gets to its assertions with the body that the disk determines for
`./` and the name; they hold exactly if the client expects the length and the sum of this body. A
message of the server stays within its array. -/
theorem exchange_verifies (hword : IsWord fileName) (hnul : 0 ∉ fileName)
    (hlong : fileName.length ≤ 8000)
    (hfile : ∀ contents, disk (ascii "./" ++ fileName) = .regular contents →
      LinesFit maxBuf contents)
    (results : List WriteResult) (hwrite : .failed ∉ results)
    (hread : .failed ∉ input) (hsend : clientSend results host fileName = some (delivered input))
    (hanswer : Answers disk maxCacheSize stack input response) (hread' : .failed ∉ input')
    (hresponse : delivered input' = response) (buf : ℕ → UInt8) :
    StaysInArray response ∧
    (∃ headerTurns bodyTurns r, clientPrint headerTurns bodyTurns buf input' = some r ∧
      r.body.stream = answerBody disk (ascii "./" ++ fileName) ∧
      ∀ csum length, r.Verified csum length ↔
        csum = checksum (answerBody disk (ascii "./" ++ fileName)) ∧
          length = (answerBody disk (ascii "./" ++ fileName)).length) ∧
    ∀ e, requestReadfileError disk (ascii "./" ++ fileName) = some e →
      ∀ body ∈ e.bodies, body.length < maxBuf := by
  have hdot : (ascii "./").length = 2 := by decide
  have hmax : maxBuf = 8192 := rfl
  have hname : (ascii "./" ++ fileName).length ≤ 8010 := by
    rw [List.length_append, hdot]
    omega
  have hframed := exchange_run hword hnul hlong hwrite hread hsend hanswer
  refine ⟨hframed.staysInArray (linesFit_answerBody hname hfile), ?_, fun e he ↦ ?_⟩
  · obtain ⟨headerTurns, bodyTurns, r, hrun, hbody, htags, hlength, hcsum⟩ :=
      hframed.decodes input' hread' hresponse buf
    exact ⟨headerTurns, bodyTurns, r, hrun, hbody, Received.verified_iff htags hlength hcsum⟩
  · obtain ⟨hcause, htext⟩ := fixedText_le he
    rw [ErrorCall.bodies_lt_iff, e.length_body, hcause]
    omega

end Exchange

/-- What is sent for the file `a` of two bytes. -/
def twoBytesResponse : List UInt8 := requestSendfile ⟨ascii "./a", [1, 2], 2⟩

/-- The server answers the request for `a`. -/
theorem answers_twoBytes : Answers CacheServer.twoBytes 10 .zero requestOfA twoBytesResponse := by
  obtain ⟨calls, hinit⟩ := askForA.complete
  exact ⟨calls, lineOfA, hinit, (CacheServer.sends_iff CacheServer.twoBytes 10 _ _).mpr (by decide)⟩

/-- Of the files of `twoBytes` no line fills the array of the client. -/
theorem linesFit_twoBytes {name contents : List UInt8}
    (h : CacheServer.twoBytes name = .regular contents) : LinesFit maxBuf contents := by
  rw [← FileStatus.regular.inj h]
  exact linesFit_of_length_lt (by decide)

/-- The client that expects two bytes with the sum 3 is content. -/
theorem exchange_verifies_twoBytes : StaysInArray twoBytesResponse ∧
    ∃ headerTurns bodyTurns r, clientPrint headerTurns bodyTurns (fun _ ↦ 0)
      [.data ⟨twoBytesResponse, by decide, by decide⟩] = some r ∧ r.Verified 3 2 := by
  obtain ⟨harray, ⟨headerTurns, bodyTurns, r, hrun, -, hverified⟩, -⟩ :=
    @exchange_verifies CacheServer.twoBytes 10 [] [97] twoBytesResponse .zero requestOfA
      [.data ⟨twoBytesResponse, by decide, by decide⟩] (by decide) (by decide) (by decide)
      (fun contents ↦ linesFit_twoBytes) [] List.not_mem_nil (by simp [requestOfA]) (by decide)
      answers_twoBytes (by simp) (List.append_nil _) fun _ ↦ 0
  exact ⟨harray, headerTurns, bodyTurns, r, hrun, (hverified 3 2).mpr (by decide)⟩

end OperatingSystems.Webserver
