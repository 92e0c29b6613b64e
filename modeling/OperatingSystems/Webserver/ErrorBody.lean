import OperatingSystems.Webserver.Client

/-!
# The size of error messages

`request_error` puts its message together in an array of `MAXBUF` bytes, with five calls of
`sprintf` that append to what is there. The method or the file name of the request is part of the
message, so whether it fits depends on how long that is: every call that `request_init` or
`request_readfile` makes fits exactly if the fixed text and the name together are shorter than the
array (`error_calls_fit_iff`).
-/

set_option autoImplicit false
set_option relaxedAutoImplicit false

namespace OperatingSystems.Webserver

/-! ### The calls -/

/-- A call of `request_error`. -/
structure ErrorCall where
  cause : List UInt8
  errnum : String
  shortmsg : String
  longmsg : String
  deriving DecidableEq

/-- The array `body` of `request_error` after each of the five calls of `sprintf`. -/
def ErrorCall.bodies (e : ErrorCall) : List (List UInt8) :=
  let title := ascii "<html><title>OS Web Server Error</title>"
  let start := title ++ ascii "<body bgcolor=fffff>\r\n"
  let short := start ++ (ascii "<p>" ++ ascii e.errnum ++ ascii ": " ++ ascii e.shortmsg ++
    ascii "</p>\r\n")
  let long := short ++ (ascii "<p>" ++ ascii e.longmsg ++ ascii ": " ++ e.cause ++ ascii "</p>\r\n")
  [title, start, short, long, long ++ ascii "</body></html>\r\n"]

/-- What `request_error` sends. -/
def ErrorCall.response (e : ErrorCall) : List UInt8 :=
  requestError e.cause e.errnum e.shortmsg e.longmsg

/-- The call of `request_error` in `request_init`. -/
def requestInitError (line : RequestLine) : Option ErrorCall :=
  if line.method.map toLower = ascii "get" then none
  else some ⟨line.method, "501", "Not Implemented", "OS Web Server does not implement this method"⟩

/-- The call of `request_error` in `request_readfile`. -/
def requestReadfileError (disk : List UInt8 → FileStatus) (fileName : List UInt8) :
    Option ErrorCall :=
  if fileName.head? = some 47 then
    some ⟨fileName, "404", "Not found", "OS Web Server doesn't serve files with absolute paths"⟩
  else if ascii ".." <:+: fileName then
    some ⟨fileName, "404", "Not found", "OS Web Server doesn't serve files with .. in the path"⟩
  else if strrchr fileName 46 = some (ascii ".c") ∨ strrchr fileName 46 = some (ascii ".h") then
    some ⟨fileName, "404", "Not found", "OS Web Server doesn't serve C or header files "⟩
  else
    match disk fileName with
    | .missing => some ⟨fileName, "404", "Not found", "OS Web Server could not find this file"⟩
    | .unreadable => some ⟨fileName, "403", "Forbidden", "OS Web Server could not read this file"⟩
    | .regular _ => none

/-- The call of `request_error` that a request line leads to, in `request_init` or in
`request_readfile`. -/
def errorCall (disk : List UInt8 → FileStatus) (line : RequestLine) : Option ErrorCall :=
  match requestInitError line with
  | some e => some e
  | none => requestReadfileError disk (requestParseURI line.uri)

/-- The message about a request line, if there is one, stays within the array `body` of
`request_error`. -/
def MessageFits (disk : List UInt8 → FileStatus) (line : RequestLine) : Prop :=
  ∀ e ∈ errorCall disk line, ∀ body ∈ e.bodies, body.length < maxBuf

instance (disk : List UInt8 → FileStatus) (line : RequestLine) :
    Decidable (MessageFits disk line) :=
  inferInstanceAs (Decidable (∀ e ∈ errorCall disk line, ∀ body ∈ e.bodies, body.length < maxBuf))

/-- `request_init` answers with the call, or goes on to the file. -/
theorem requestInit_eq (line : RequestLine) : requestInit line =
    match requestInitError line with
    | some e => .error e.response
    | none => .ok (requestParseURI line.uri) := by
  rw [requestInit, requestInitError]
  split_ifs <;> rfl

/-- `request_readfile` answers with the call, and refuses nothing without one. -/
theorem requestReadfile_refused_iff (disk : List UInt8 → FileStatus)
    (fileName response : List UInt8) :
    requestReadfile disk fileName = .refused response ↔
      ∃ e, requestReadfileError disk fileName = some e ∧ e.response = response := by
  rw [requestReadfile, requestReadfileError]
  split_ifs
  · simp [ErrorCall.response]
  · simp [ErrorCall.response]
  · simp [ErrorCall.response]
  · cases disk fileName with
    | missing => simp [ErrorCall.response]
    | unreadable => simp [ErrorCall.response]
    | regular contents =>
      simp only [reduceCtorEq, false_and, exists_false, iff_false]
      split_ifs <;> simp

/-! ### The size of the message -/

/-- The whole message. -/
def ErrorCall.body (e : ErrorCall) : List UInt8 :=
  ascii "<html><title>OS Web Server Error</title>" ++ ascii "<body bgcolor=fffff>\r\n" ++
  (ascii "<p>" ++ ascii e.errnum ++ ascii ": " ++ ascii e.shortmsg ++ ascii "</p>\r\n") ++
  (ascii "<p>" ++ ascii e.longmsg ++ ascii ": " ++ e.cause ++ ascii "</p>\r\n") ++
  ascii "</body></html>\r\n"

/-- The number of characters of the message without the cause. -/
def ErrorCall.fixedText (e : ErrorCall) : ℕ :=
  100 + (ascii e.errnum).length + (ascii e.shortmsg).length + (ascii e.longmsg).length

section Calls

variable {e : ErrorCall} {disk : List UInt8 → FileStatus} {line : RequestLine}

theorem ErrorCall.length_body (e : ErrorCall) : e.body.length = e.cause.length + e.fixedText := by
  have htitle : (ascii "<html><title>OS Web Server Error</title>").length = 40 := by decide
  have hstart : (ascii "<body bgcolor=fffff>\r\n").length = 22 := by decide
  have hopen : (ascii "<p>").length = 3 := by decide
  have hcolon : (ascii ": ").length = 2 := by decide
  have hclose : (ascii "</p>\r\n").length = 6 := by decide
  have hend : (ascii "</body></html>\r\n").length = 16 := by decide
  rw [ErrorCall.body, ErrorCall.fixedText]
  simp only [List.length_append, htitle, hstart, hopen, hcolon, hclose, hend]
  omega

/-- The message only grows, so it fits if it does in the end. -/
theorem ErrorCall.bodies_lt_iff : (∀ body ∈ e.bodies, body.length < maxBuf) ↔
    e.body.length < maxBuf := by
  constructor
  · intro h
    refine h e.body ?_
    rw [ErrorCall.bodies]
    simp [ErrorCall.body]
  · intro h body hbody
    refine lt_of_le_of_lt (List.IsPrefix.length_le ?_) h
    simp only [ErrorCall.bodies, List.mem_cons, List.not_mem_nil, or_false] at hbody
    rcases hbody with rfl | rfl | rfl | rfl | rfl <;> simp [ErrorCall.body]

/-- The first line of the response. -/
def ErrorCall.status (e : ErrorCall) : List UInt8 :=
  ascii "HTTP/1.0 " ++ ascii e.errnum ++ ascii " " ++ ascii e.shortmsg ++ ascii "\r\n"

/-- The lines of the header behind the first. -/
def ErrorCall.lines (e : ErrorCall) : List (List UInt8) :=
  [ascii "Content-Type: text/html\r\n", tagLine "Content-Length: " e.body.length,
    tagLine "Content-Csum: " (checksum e.body)]

theorem ErrorCall.response_eq (e : ErrorCall) :
    e.response = e.status ++ (e.lines.flatten ++ ([13, 10] ++ e.body)) := by
  have hblank : ascii "\r\n\r\n" = ascii "\r\n" ++ [13, 10] := rfl
  rw [ErrorCall.response, requestError]
  simp only [ErrorCall.status, ErrorCall.lines, ErrorCall.body, tagLine, hblank, List.flatten_cons,
    List.flatten_nil, List.append_nil, List.append_assoc]

/-- The errors that are sent. -/
theorem status_of_errorCall (h : errorCall disk line = some e) :
    e.errnum = "501" ∧ e.shortmsg = "Not Implemented" ∨
      e.errnum = "404" ∧ e.shortmsg = "Not found" ∨
      e.errnum = "403" ∧ e.shortmsg = "Forbidden" := by
  rw [errorCall] at h
  split at h
  · rename_i e' he
    rw [requestInitError] at he
    split_ifs at he
    rw [← Option.some.inj h, ← Option.some.inj he]
    exact Or.inl ⟨rfl, rfl⟩
  · rw [requestReadfileError] at h
    split_ifs at h
    · rw [← Option.some.inj h]
      exact Or.inr (.inl ⟨rfl, rfl⟩)
    · rw [← Option.some.inj h]
      exact Or.inr (.inl ⟨rfl, rfl⟩)
    · rw [← Option.some.inj h]
      exact Or.inr (.inl ⟨rfl, rfl⟩)
    · cases hdisk : disk (requestParseURI line.uri) with
      | missing =>
        rw [hdisk] at h
        rw [← Option.some.inj h]
        exact Or.inr (.inl ⟨rfl, rfl⟩)
      | unreadable =>
        rw [hdisk] at h
        rw [← Option.some.inj h]
        exact Or.inr (.inr ⟨rfl, rfl⟩)
      | regular contents =>
        rw [hdisk] at h
        cases h

theorem headerLine_status (h : errorCall disk line = some e) : HeaderLine e.status := by
  rcases status_of_errorCall h with ⟨hnum, hmsg⟩ | ⟨hnum, hmsg⟩ | ⟨hnum, hmsg⟩ <;>
    rw [ErrorCall.status, hnum, hmsg] <;>
    exact headerLine_of (by decide) (by decide) (by decide) (by decide)

theorem ErrorCall.headerLine_of_mem (hlt : e.body.length < 2 ^ 31) : ∀ line ∈ e.lines,
    HeaderLine line := by
  have hcsum := checksum_lt e.body
  intro line hline
  simp only [ErrorCall.lines, List.mem_cons, List.not_mem_nil, or_false] at hline
  rcases hline with rfl | rfl | rfl
  · exact headerLine_of (by decide) (by decide) (by decide) (by decide)
  · exact headerLine_tagLine (by decide) (by decide) (by decide) (by decide) (by omega)
  · exact headerLine_tagLine (by decide) (by decide) (by decide) (by decide) (by omega)

theorem ErrorCall.scan_lines (hlt : e.body.length < 2 ^ 31) :
    (e.lines.foldl Tags.scan ⟨0, 0⟩).scan [13, 10] = ⟨e.body.length, checksum e.body⟩ := by
  have htype : (⟨0, 0⟩ : Tags).scan (ascii "Content-Type: text/html\r\n") = ⟨0, 0⟩ :=
    Tags.scan_eq_self (by decide) (by decide) _
  rw [ErrorCall.lines, List.foldl_cons, List.foldl_cons, List.foldl_cons, List.foldl_nil, htype,
    scan_length hlt, scan_csum (checksum_lt _), Tags.scan_eq_self (by decide) (by decide)]

/-- The numbers in the header of a response are those of its message: a client that reads the
response, however it is split, finds the length and the sum of the bytes that follow. -/
def ErrorCall.Announces (e : ErrorCall) : Prop :=
  ∀ input : List ReadResult, .failed ∉ input → delivered input = e.response → ∀ buf : ℕ → UInt8,
    ∃ headerTurns bodyTurns r, clientPrint headerTurns bodyTurns buf input = some r ∧
      r.body.stream = e.body ∧ r.tags.length = e.body.length ∧
      r.tags.csum = (e.body.map UInt8.toNat).sum % 2 ^ 32

theorem announces_of_errorCall (h : errorCall disk line = some e) (hlt : e.body.length < 2 ^ 31) :
    e.Announces := by
  intro input hread hinput buf
  rw [e.response_eq] at hinput
  obtain ⟨headerTurns, bodyTurns, r, hrun, hbody, htags, -, -⟩ :=
    clientPrint_run hread (headerLine_status h) (ErrorCall.headerLine_of_mem hlt) hlt hinput buf
  rw [ErrorCall.scan_lines hlt] at htags
  refine ⟨headerTurns, bodyTurns, r, hrun, hbody, by rw [htags], ?_⟩
  rw [htags, checksum_eq_addBytes, addBytes_eq_sum e.body (by decide), zero_add]

/-- Assumes: a request line leads to a call of `request_error`, in `request_init` or in
`request_readfile`. The message stays within its array after each of the five appends, and the
header announces the length and the sum of the message that follows, exactly if the fixed text and
the method or file name together are shorter than the array. -/
theorem error_calls_fit_iff (h : errorCall disk line = some e) :
    ((∀ body ∈ e.bodies, body.length < maxBuf) ∧ e.Announces) ↔
      e.cause.length + e.fixedText < maxBuf := by
  rw [ErrorCall.bodies_lt_iff, e.length_body]
  constructor
  · exact fun hfits ↦ hfits.1
  · intro hfits
    refine ⟨hfits, announces_of_errorCall h ?_⟩
    rw [e.length_body]
    exact hfits.trans (by decide)

end Calls

/-- The message about the method `PUT`. -/
theorem error_calls_fit_put : ∃ e, errorCall (fun _ ↦ .missing) ⟨ascii "PUT", ascii "/"⟩ = some e ∧
    (∀ body ∈ e.bodies, body.length < maxBuf) ∧ e.Announces :=
  ⟨_, rfl, (@error_calls_fit_iff _ (fun _ ↦ .missing) ⟨ascii "PUT", ascii "/"⟩ rfl).mpr (by decide)⟩

/-- A method of 8030 characters makes the message as long as the array, in a request line that fits
its own array. -/
theorem error_call_overflows : ¬∀ (disk : List UInt8 → FileStatus) (line : RequestLine)
    (e : ErrorCall), line.method.length + line.uri.length + 13 ≤ maxLine →
    errorCall disk line = some e →
    ∀ body ∈ e.bodies, body.length < maxBuf := by
  intro h
  obtain ⟨method, hmethod⟩ : ∃ method, method = List.replicate 8030 (65 : UInt8) := ⟨_, rfl⟩
  have hlength : method.length = 8030 := by rw [hmethod, List.length_replicate]
  have hget : method.map toLower ≠ ascii "get" := by
    intro heq
    have hthree := congrArg List.length heq
    rw [List.length_map, hlength] at hthree
    exact absurd hthree (by decide)
  obtain ⟨e, he⟩ : ∃ e : ErrorCall, e = ⟨method, "501", "Not Implemented",
    "OS Web Server does not implement this method"⟩ := ⟨_, rfl⟩
  have hcall : errorCall (fun _ ↦ .missing) ⟨method, [47]⟩ = some e := by
    rw [errorCall, requestInitError, if_neg hget, he]
  have hline : method.length + 1 + 13 ≤ maxLine := by
    rw [hlength]
    decide
  have hfits := ErrorCall.bodies_lt_iff.mp (h _ ⟨method, [47]⟩ e hline hcall)
  have htext : 100 + (ascii "501").length + (ascii "Not Implemented").length +
      (ascii "OS Web Server does not implement this method").length = 162 := by decide
  have hfixed : e.fixedText = 162 := he ▸ htext
  rw [e.length_body, hfixed, he, hlength] at hfits
  exact absurd hfits (by decide)

end OperatingSystems.Webserver
