import OperatingSystems.Library.Words
import OperatingSystems.Webserver.Client

/-!
# A request on its connection

`client_send` writes the request for a file, and `request_init` reads it from the connection: the
request line, of which `sscanf` takes the first three words, and the header lines up to the empty
one. The arrays of `request_init` are on the stack and hold anything at first; a word that is not
there leaves its array as it is.

The server gets the file name that the client has asked for if that is one word, and only then
(`requestInit_receives_iff`).
-/

set_option autoImplicit false
set_option relaxedAutoImplicit false

namespace OperatingSystems.Webserver

open Library

/-! ### The request -/

/-- The request that `client_send` puts together. -/
def requestText (host fileName : List UInt8) : List UInt8 :=
  ascii "GET " ++ fileName ++ ascii " HTTP/1.0\r\n" ++ ascii "host: " ++ host ++ ascii "\r\n\r\n"

/-- `client_send`: what it sends, unless the request does not fit its array. The second `sprintf`
prints the array to itself, from its start on, which leaves what is there. -/
def clientSend (results : List WriteResult) (host fileName : List UInt8) : Option (List UInt8) :=
  if (requestText host fileName).length < maxLine then
    some (rioWrite results (requestText host fileName)).2.1
  else none

/-- The conversion `%s` of `sscanf`: the word, and what follows it. -/
def scanString (str : List UInt8) : Option (List UInt8 × List UInt8) :=
  let str := str.dropWhile isSpace
  if str = [] then none else some (str.takeWhile (!isSpace ·), str.dropWhile (!isSpace ·))

/-- `sscanf(buf, "%s %s %s", method, uri, version)`, with what the first two arrays hold before. The
version is not used. -/
def scanRequestLine (arrays : RequestLine) (str : List UInt8) : RequestLine :=
  match scanString str with
  | none => arrays
  | some (method, rest) =>
    match scanString rest with
    | none => ⟨method, arrays.uri⟩
    | some (uri, _) => ⟨method, uri⟩

/-- How `request_init` ends on a connection. -/
inductive InitEnd
  /-- It returns a request for a file. -/
  | accepted (fileName : List UInt8)
  /-- It has sent an error, and returns `NULL`. -/
  | rejected (response : List UInt8)
  /-- Reading failed, and the process exits. -/
  | exited
  /-- The counter of `rio_readlineb` overflowed. -/
  | undefined
  deriving DecidableEq

/-- The end for what was read from the connection. -/
def InitEnd.ofRead : Except (List UInt8) (List UInt8) → InitEnd
  | .error response => .rejected response
  | .ok fileName => .accepted fileName

/-- What `request_init` and `request_read_headers` find in their arrays: `buf` of either, and
`method` and `uri`. -/
structure Stack where
  buf : ℕ → UInt8
  headersBuf : ℕ → UInt8
  words : RequestLine

/-- `request_init` on a connection, if it ends with so many header lines. -/
def requestInitOn (calls : ℕ) (stack : Stack) (input : List ReadResult) : Option InitEnd :=
  match rioReadlineb (rioInit input) maxLine with
  | none => some .undefined
  | some r =>
    if r.ret < 0 then some .exited
    else
      match requestInit (scanRequestLine stack.words (text (overwrite stack.buf r.written))) with
      | .error response => some (.rejected response)
      | .ok fileName =>
        match requestReadHeaders calls stack.headersBuf r.rp with
        | none => none
        | some (.returned _) => some (.accepted fileName)
        | some .exited => some .exited
        | some .undefined => some .undefined

/-- A connection over which a whole request comes: `request_init` reads to the end of its header,
with whatever its arrays hold at first, and goes on with this request line. -/
structure CompleteRequest where
  stack : Stack
  input : List ReadResult
  line : RequestLine
  complete : ∃ calls, requestInitOn calls stack input = some (.ofRead (requestInit line))

/-! ### The words of the request line -/

section Scan

variable {word rest str : List UInt8} {c : UInt8} {arrays : RequestLine}

/-- A file name that `sscanf` reads as one word. -/
def IsWord (fileName : List UInt8) : Prop := fileName ≠ [] ∧ ∀ c ∈ fileName, isSpace c = false

theorem isWord_iff (fileName : List UInt8) :
    (fileName.isEmpty = false ∧ fileName.any isSpace = false) ↔ IsWord fileName := by
  rw [List.isEmpty_eq_false_iff, List.any_eq_false, IsWord]
  simp only [Bool.not_eq_true]

instance (fileName : List UInt8) : Decidable (IsWord fileName) :=
  decidable_of_iff _ (isWord_iff fileName)

/-- A word that a blank ends is read. -/
theorem scanString_append (hne : word ≠ []) (hword : ∀ c ∈ word, isSpace c = false)
    (hc : isSpace c = true) (rest : List UInt8) :
    scanString (word ++ c :: rest) = some (word, c :: rest) := by
  obtain ⟨d, w, rfl⟩ := List.exists_cons_of_ne_nil hne
  have hskip : (d :: w ++ c :: rest).dropWhile isSpace = d :: w ++ c :: rest := by
    rw [List.cons_append, List.dropWhile_cons_of_neg (by simp [hword d List.mem_cons_self])]
  have hrun : ∀ b ∈ d :: w, (!isSpace b) = true := fun b hb ↦ by rw [hword b hb]; rfl
  have htake : (d :: w ++ c :: rest).takeWhile (!isSpace ·) = d :: w := by
    rw [List.takeWhile_append_of_pos hrun, List.takeWhile_cons_of_neg (by simp [hc]),
      List.append_nil]
  have hdrop : (d :: w ++ c :: rest).dropWhile (!isSpace ·) = c :: rest := by
    rw [List.dropWhile_append_of_pos hrun, List.dropWhile_cons_of_neg (by simp [hc])]
  rw [scanString]
  simp only [hskip, htake, hdrop]
  rw [if_neg (by simp)]

/-- A blank in front of a word is skipped. -/
theorem scanString_cons (hc : isSpace c = true) (rest : List UInt8) :
    scanString (c :: rest) = scanString rest := by
  rw [scanString, scanString, List.dropWhile_cons_of_pos hc]

/-- What is read is not empty and has no blank. -/
theorem scanString_word (h : scanString str = some (word, rest)) :
    word ≠ [] ∧ ∀ c ∈ word, isSpace c = false := by
  rw [scanString] at h
  split_ifs at h with hnil
  obtain ⟨hne, -⟩ := words_eq_cons hnil
  cases h
  exact ⟨hne, fun c hc ↦ by simpa using List.mem_takeWhile_imp hc⟩

/-- The method of a line that starts with it. -/
theorem scanRequestLine_get (arrays : RequestLine) (rest : List UInt8) :
    scanRequestLine arrays (ascii "GET " ++ rest) =
      ⟨ascii "GET", (scanString rest).elim arrays.uri Prod.fst⟩ := by
  have hget : ascii "GET " ++ rest = ascii "GET" ++ 32 :: rest := rfl
  have hword : IsWord (ascii "GET") := by decide
  rw [scanRequestLine, hget, scanString_append hword.1 hword.2 (by decide)]
  dsimp only
  rw [scanString_cons (by decide)]
  cases scanString rest with
  | none => rfl
  | some found => rfl

end Scan

/-! ### The header lines -/

section Header

variable {maxlen calls : ℕ} {stack : Stack} {input : List ReadResult}

/-- What follows a line. -/
theorem drop_line (line rest : List UInt8) :
    (line ++ 10 :: rest).drop (line ++ [10]).length = rest := by
  rw [List.append_cons line 10 rest, List.drop_left]

/-- A line end and an empty line are found in what follows any text, as long as no line is cut. -/
theorem hasBlankLine_append (rest : List UInt8) : ∀ {str : List UInt8}, str.length + 1 ≤ maxlen →
    HasBlankLine maxlen (str ++ 10 :: 13 :: 10 :: rest) := by
  intro str
  induction hlength : str.length using Nat.strongRecOn generalizing str with
  | _ length ih =>
    subst hlength
    intro hfit
    refine .later (by simp) ?_
    by_cases hno : 10 ∈ str
    · obtain ⟨line, str, rfl, hline⟩ := List.eq_append_cons_of_mem hno
      rw [List.length_append, List.length_cons] at hfit
      rw [List.append_assoc, List.cons_append, nextLine_append hline _ (by omega), drop_line]
      exact ih str.length (by simp; omega) rfl (by omega)
    · rw [nextLine_append hno _ hfit, drop_line]
      exact .here rest

/-- `request_init` on a first line that is read, before the headers. -/
theorem requestInitOn_line {str rest : List UInt8} (hno : 10 ∉ str) (hnul : 0 ∉ str)
    (hfit : str.length + 1 ≤ maxLine) (hread : .failed ∉ input)
    (hinput : delivered input = str ++ [10] ++ rest) (stack : Stack) :
    ∃ rp, rp.stream = rest ∧ ¬rp.Fails ∧ ∀ calls, requestInitOn calls stack input =
      match requestInit (scanRequestLine stack.words (str ++ [10])) with
      | .error response => some (.rejected response)
      | .ok fileName =>
        match requestReadHeaders calls stack.headersBuf rp with
        | none => none
        | some (.returned _) => some (.accepted fileName)
        | some .exited => some .exited
        | some .undefined => some .undefined := by
  obtain ⟨rp, hstream, hfails, hrun⟩ := @rioReadlineb_line (rioInit input) rest str hno hfit hread
    hinput
  have hlength : (str ++ [10]).length = str.length + 1 := List.length_append
  refine ⟨rp, hstream, hfails, fun calls ↦ ?_⟩
  rw [requestInitOn, hrun]
  simp only
  rw [if_neg (not_lt.mpr (Int.natCast_nonneg _)), text_overwrite (hlength ▸ hfit) (by simp [hnul])]

end Header

/-! ### The client asks and the server reads -/

section Request

variable {host fileName request : List UInt8} {results : List WriteResult}
  {input : List ReadResult}

/-- What is sent is the whole request. -/
theorem clientSend_eq (hwrite : .failed ∉ results)
    (hsend : clientSend results host fileName = some request) :
    request = requestText host fileName ∧ (requestText host fileName).length < maxLine := by
  obtain ⟨rest, hrun, -⟩ := rioWrite_sent (requestText host fileName) hwrite
  rw [clientSend, hrun, Option.ite_none_right_eq_some, Option.some.injEq] at hsend
  exact ⟨hsend.2.symm, hsend.1⟩

/-- The request in parts: the line up to its end, and the header lines. -/
theorem requestText_eq (host fileName : List UInt8) : requestText host fileName =
    (ascii "GET " ++ fileName ++ ascii " HTTP/1.0\r") ++ [10] ++
      ((ascii "host: " ++ host ++ [13]) ++ 10 :: 13 :: 10 :: []) := by
  have hline : ascii " HTTP/1.0\r\n" = ascii " HTTP/1.0\r" ++ [10] := rfl
  have hblank : ascii "\r\n\r\n" = [13] ++ 10 :: 13 :: 10 :: [] := rfl
  rw [requestText, hline, hblank]
  simp only [List.append_assoc]

theorem length_requestText (host fileName : List UInt8) :
    (requestText host fileName).length = fileName.length + host.length + 25 := by
  have hget : (ascii "GET ").length = 4 := by decide
  have hhttp : (ascii " HTTP/1.0\r\n").length = 11 := by decide
  have hhost : (ascii "host: ").length = 6 := by decide
  have hblank : (ascii "\r\n\r\n").length = 4 := by decide
  rw [requestText]
  simp only [List.length_append, hget, hhttp, hhost, hblank]
  omega

/-- A name that is short enough is not cut off. -/
theorem requestParseURI_eq (hfit : fileName.length + 2 < maxLine) :
    requestParseURI fileName = ascii "./" ++ fileName := by
  have hdot : (ascii "./").length = 2 := by decide
  rw [requestParseURI, List.take_of_length_le]
  rw [List.length_append, hdot]
  omega

/-- A request with the method of the client is for a file. -/
theorem requestInit_get (uri : List UInt8) :
    requestInit ⟨ascii "GET", uri⟩ = .ok (requestParseURI uri) := by
  have hget : (ascii "GET").map toLower = ascii "get" := by decide
  exact if_pos hget

/-- The server reads the name that the client has asked for, if it is one word, and nothing else. -/
theorem requestInitOn_request (hword : IsWord fileName) (hnul : 0 ∉ fileName)
    (hfit : (requestText host fileName).length < maxLine) (hread : .failed ∉ input)
    (hinput : delivered input = requestText host fileName) (stack : Stack) :
    (∃ calls, requestInitOn calls stack input = some (.accepted (ascii "./" ++ fileName))) ∧
      ∀ calls read, requestInitOn calls stack input = some (.ofRead read) →
        read = .ok (ascii "./" ++ fileName) := by
  have hno : ∀ {c : UInt8}, isSpace c = true → c ∉ fileName := fun hc hmem ↦ by
    rw [hword.2 _ hmem] at hc
    cases hc
  rw [length_requestText] at hfit
  rw [requestText_eq] at hinput
  have hhttp : (ascii " HTTP/1.0\r").length = 10 := by decide
  have hget : (ascii "GET ").length = 4 := by decide
  have hhost : (ascii "host: ").length = 6 := by decide
  have hlf : 10 ∉ ascii "GET " ++ fileName ++ ascii " HTTP/1.0\r" := by
    simp only [List.mem_append, not_or]
    exact ⟨⟨by decide, hno (by decide)⟩, by decide⟩
  have hzero : 0 ∉ ascii "GET " ++ fileName ++ ascii " HTTP/1.0\r" := by
    simp only [List.mem_append, not_or]
    exact ⟨⟨by decide, hnul⟩, by decide⟩
  obtain ⟨rp, hstream, hfails, hrun⟩ := requestInitOn_line hlf hzero
    (by simp only [List.length_append, hhttp, hget]; omega) hread hinput stack
  have hblank : HasBlankLine maxLine rp.stream := by
    rw [hstream]
    exact hasBlankLine_append [] (by
      simp only [List.length_append, hhost, List.length_singleton]; omega)
  obtain ⟨calls, rp', hends⟩ := hblank.requestReadHeaders_ends stack.headersBuf hfails rfl
  have hline : scanRequestLine stack.words
      (ascii "GET " ++ fileName ++ ascii " HTTP/1.0\r" ++ [10]) = ⟨ascii "GET", fileName⟩ := by
    have hrest : fileName ++ ascii " HTTP/1.0\r" ++ [10] = fileName ++ 32 :: ascii "HTTP/1.0\r\n" :=
      List.append_assoc _ _ _
    rw [List.append_assoc, List.append_assoc, ← List.append_assoc fileName, hrest,
      scanRequestLine_get, scanString_append hword.1 hword.2 (by decide)]
    rfl
  rw [hline, requestInit_get, requestParseURI_eq (by omega)] at hrun
  simp only at hrun
  refine ⟨⟨calls, by rw [hrun, hends]⟩, fun calls read hread ↦ ?_⟩
  rw [hrun] at hread
  cases read with
  | error response => split at hread <;> cases hread
  | ok name =>
    split at hread
    · cases hread
    · cases hread
      rfl
    · cases hread
    · cases hread

/-- The first line of a request. -/
theorem exists_line (host fileName : List UInt8) : ∃ str rest,
    requestText host fileName = (ascii "GET " ++ str) ++ [10] ++ rest ∧ 10 ∉ str ∧
      ∀ c ∈ str, c ∈ fileName ∨ c ∈ ascii " HTTP/1.0\r\n" := by
  have hmem : 10 ∈ fileName ++ ascii " HTTP/1.0\r\n" :=
    List.mem_append_right _ (by decide)
  obtain ⟨str, rest, hsplit, hno⟩ := List.eq_append_cons_of_mem hmem
  refine ⟨str, rest ++ (ascii "host: " ++ host ++ ascii "\r\n\r\n"), ?_, hno, fun c hc ↦ ?_⟩
  · rw [requestText, List.append_assoc (ascii "GET "), hsplit]
    simp only [List.append_assoc, List.cons_append, List.nil_append]
  · rw [← List.mem_append, hsplit]
    exact List.mem_append_left _ hc

/-- What the server reads is one word, or what its array has held before. -/
theorem eq_of_accepted {calls : ℕ} {stack : Stack} {name : List UInt8} (hnul : 0 ∉ fileName)
    (hfit : (requestText host fileName).length < maxLine) (hread : .failed ∉ input)
    (hinput : delivered input = requestText host fileName) (hstack : IsWord stack.words.uri)
    (haccepted : requestInitOn calls stack input = some (.accepted name)) :
    ∃ uri, IsWord uri ∧ name = requestParseURI uri := by
  obtain ⟨str, rest, hline, hno, hchars⟩ := exists_line host fileName
  have hlf : 10 ∉ ascii "GET " ++ str := by
    simp only [List.mem_append, not_or]
    exact ⟨by decide, hno⟩
  have hzero : 0 ∉ ascii "GET " ++ str := by
    simp only [List.mem_append, not_or]
    refine ⟨by decide, fun h ↦ ?_⟩
    rcases hchars 0 h with hname | hhttp
    · exact hnul hname
    · exact absurd hhttp (by decide)
  rw [hline] at hinput
  obtain ⟨rp, -, -, hrun⟩ := requestInitOn_line hlf hzero
    (by rw [hline] at hfit; simp only [List.length_append, List.length_singleton] at hfit ⊢; omega)
    hread hinput stack
  rw [hrun, List.append_assoc, scanRequestLine_get, requestInit_get] at haccepted
  refine ⟨(scanString (str ++ [10])).elim stack.words.uri Prod.fst, ?_, ?_⟩
  · cases hscan : scanString (str ++ [10]) with
    | none => exact hstack
    | some found => exact @scanString_word found.1 found.2 _ hscan
  · simp only at haccepted
    split at haccepted
    · cases haccepted
    · cases haccepted
      rfl
    · cases haccepted
    · cases haccepted

/-- Assumes: the name has no NUL, and the request fits the array of `client_send`. Whatever the
arrays of `request_init` hold at first and however `write` and `read` split the request, the server
reads the file name that the client has asked for, exactly if the name is not empty and has no
blank. -/
theorem requestInit_receives_iff (host fileName : List UInt8) (hnul : 0 ∉ fileName)
    (hfit : (requestText host fileName).length < maxLine) :
    (∀ results input, WriteResult.failed ∉ results → ReadResult.failed ∉ input →
      clientSend results host fileName = some (delivered input) → ∀ stack, ∃ calls,
        requestInitOn calls stack input = some (.accepted (ascii "./" ++ fileName))) ↔
      IsWord fileName := by
  constructor
  · intro h
    have hlength := length_requestText host fileName
    have hne : requestText host fileName ≠ [] := List.ne_nil_of_length_pos (by omega)
    have hinput : delivered [.data ⟨requestText host fileName, hne, hfit.le⟩] =
        requestText host fileName := List.append_nil _
    have hsend : clientSend [] host fileName =
        some (delivered [.data ⟨requestText host fileName, hne, hfit.le⟩]) := by
      rw [clientSend, if_pos hfit, hinput]
      rfl
    obtain ⟨calls, haccepted⟩ := h [] _ List.not_mem_nil (by simp) hsend
      ⟨fun _ ↦ 0, fun _ ↦ 0, ⟨[], [97]⟩⟩
    obtain ⟨uri, hword, heq⟩ := eq_of_accepted hnul hfit (by simp) hinput
      (by decide) haccepted
    have hdot : (ascii "./").length = 2 := by decide
    -- The name is shorter than the bound at which `request_parse_URI` cuts it off.
    have huncut : ((ascii "./" ++ uri).take (maxLine - 1)).length < maxLine - 1 := by
      rw [← requestParseURI, ← heq, List.length_append, hdot]
      omega
    rw [List.length_take] at huncut
    rw [requestParseURI, List.take_of_length_le (by omega)] at heq
    rw [List.append_cancel_left heq]
    exact hword
  · intro hword results input hwrite hread hsend stack
    obtain ⟨heq, -⟩ := clientSend_eq hwrite hsend
    exact (requestInitOn_request hword hnul hfit hread heq stack).1

end Request

/-- The request for `a`, in one piece. -/
def requestOfA : List ReadResult := [.data ⟨requestText [] [97], by decide, by decide⟩]

/-- The stack of `request_init`, with nothing but zeros. -/
def Stack.zero : Stack := ⟨fun _ ↦ 0, fun _ ↦ 0, ⟨[], []⟩⟩

/-- The name `a` is read back. -/
theorem requestInit_receives_a : ∃ calls, requestInitOn calls .zero requestOfA =
    some (.accepted (ascii "./a")) :=
  (requestInit_receives_iff [] [97] (by decide) (by decide)).mpr (by decide) []
    requestOfA List.not_mem_nil (by simp [requestOfA]) (by decide) _

/-- The request line for `a`. -/
def lineOfA : RequestLine := ⟨ascii "GET", [97]⟩

/-- A connection with the request for `a`. -/
def askForA : CompleteRequest where
  stack := .zero
  input := requestOfA
  line := lineOfA
  complete := (@requestInitOn_request [] [97] requestOfA (by decide) (by decide) (by decide)
    (by simp [requestOfA]) (List.append_nil _) .zero).1

end OperatingSystems.Webserver
