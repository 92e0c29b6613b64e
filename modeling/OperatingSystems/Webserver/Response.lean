import OperatingSystems.Webserver.Cache

/-!
# Requests and responses

The part of `request.c` between the request line and the bytes that are sent back. `request_init`
takes the file name from the request line or answers that the method is not implemented;
`request_readfile` refuses some names, refuses what is not a readable file, and reads the others;
`request_sendfile` sends what was read. All that these functions need to know of the file system
is what is found under a name, which is a parameter (`disk`).

The length of a file is assigned to an `int`. A length that this makes negative is passed to
`Malloc`, which cannot allocate that much and ends the process.
-/

set_option autoImplicit false
set_option relaxedAutoImplicit false

namespace OperatingSystems.Webserver

/-- The bytes of a text. -/
def ascii (s : String) : List UInt8 := s.toList.map fun c ↦ UInt8.ofNat c.toNat

/-- `MAXLINE`. -/
abbrev maxLine : ℕ := 8192

/-- The sum of bytes in an `unsigned int`. -/
def checksum (bytes : List UInt8) : ℕ := bytes.foldl (fun csum b ↦ (csum + b.toNat) % 2 ^ 32) 0

/-- What `request_error` sends. -/
def requestError (cause : List UInt8) (errnum shortmsg longmsg : String) : List UInt8 :=
  let body :=
    ascii "<html><title>OS Web Server Error</title>" ++
    ascii "<body bgcolor=fffff>\r\n" ++
    ascii "<p>" ++ ascii errnum ++ ascii ": " ++ ascii shortmsg ++ ascii "</p>\r\n" ++
    ascii "<p>" ++ ascii longmsg ++ ascii ": " ++ cause ++ ascii "</p>\r\n" ++
    ascii "</body></html>\r\n"
  ascii "HTTP/1.0 " ++ ascii errnum ++ ascii " " ++ ascii shortmsg ++ ascii "\r\n" ++
  ascii "Content-Type: text/html\r\n" ++
  ascii "Content-Length: " ++ ascii (toString body.length) ++ ascii "\r\n" ++
  ascii "Content-Csum: " ++ ascii (toString (checksum body)) ++ ascii "\r\n\r\n" ++
  body

/-- The first line of a request. -/
structure RequestLine where
  method : List UInt8
  uri : List UInt8
  deriving DecidableEq

/-- A letter in lower case. -/
def toLower (c : UInt8) : UInt8 := if 65 ≤ c ∧ c ≤ 90 then c + 32 else c

/-- `request_parse_URI`, which cuts the name off at `MAXLINE`. -/
def requestParseURI (uri : List UInt8) : List UInt8 := (ascii "./" ++ uri).take (maxLine - 1)

/-- `request_init`: the name of the requested file, or the response to another method. -/
def requestInit (line : RequestLine) : Except (List UInt8) (List UInt8) :=
  if line.method.map toLower = ascii "get" then .ok (requestParseURI line.uri)
  else .error (requestError line.method "501" "Not Implemented"
    "OS Web Server does not implement this method")

/-- `request_get_file_type`. -/
def requestGetFileType (filename : List UInt8) : String :=
  if ascii ".html" <:+: filename then "text/html"
  else if ascii ".gif" <:+: filename then "image/gif"
  else if ascii ".jpg" <:+: filename then "image/jpeg"
  else "text/plain"

/-- `strrchr`: the text from the last occurrence of a character. -/
def strrchr (str : List UInt8) (c : UInt8) : Option (List UInt8) :=
  if c ∈ str then some (c :: (str.reverse.takeWhile (· ≠ c)).reverse) else none

/-- What is found under a name. -/
inductive FileStatus
  /-- `stat` fails. -/
  | missing
  /-- Not a regular file, or one that the owner may not read. -/
  | unreadable
  /-- A file with its contents. -/
  | regular (contents : List UInt8)

/-- The outcome of `request_readfile`. -/
inductive ReadOutcome
  /-- It returns 0 and has sent an error. -/
  | refused (response : List UInt8)
  /-- It returns 1 and has filled in the buffer and its size. -/
  | filled (fileBuf : List UInt8) (fileSize : ℤ)
  /-- The process exits. -/
  | exits
  deriving DecidableEq

/-- `request_readfile`. -/
def requestReadfile (disk : List UInt8 → FileStatus) (fileName : List UInt8) : ReadOutcome :=
  let error := fun longmsg ↦ ReadOutcome.refused (requestError fileName "404" "Not found" longmsg)
  if fileName.head? = some 47 then
    error "OS Web Server doesn't serve files with absolute paths"
  else if ascii ".." <:+: fileName then
    error "OS Web Server doesn't serve files with .. in the path"
  else if strrchr fileName 46 = some (ascii ".c") ∨ strrchr fileName 46 = some (ascii ".h") then
    error "OS Web Server doesn't serve C or header files "
  else
    match disk fileName with
    | .missing => error "OS Web Server could not find this file"
    | .unreadable =>
      .refused (requestError fileName "403" "Forbidden" "OS Web Server could not read this file")
    | .regular contents =>
      let fileSize := (contents.length : ℤ).bmod (2 ^ 32)
      if fileSize < 0 then .exits else .filled (contents.take fileSize.toNat) fileSize

/-- What `request_sendfile` sends. -/
def requestSendfile (data : FileData) : List UInt8 :=
  let body := data.fileBuf.take data.fileSize.toNat
  ascii "HTTP/1.0 200 OK\r\n" ++
  ascii "Server: OS Web Server\r\n" ++
  ascii "Content-Type: " ++ ascii (requestGetFileType data.fileName) ++ ascii "\r\n" ++
  ascii "Content-Length: " ++ ascii (toString data.fileSize) ++ ascii "\r\n" ++
  ascii "Content-Csum: " ++ ascii (toString (checksum body)) ++ ascii "\r\n\r\n" ++
  body

end OperatingSystems.Webserver
