import OperatingSystems.Library.Decimal
import OperatingSystems.Webserver.Headers

/-!
# The client reads the response

`client_print` of `client.c` on the bytes that `request_sendfile` writes. The client reads the
header lines with the same line reader as the body, looks in each of them for the two tags it knows,
and leaves the loop at the empty line; what follows it sums up, in pieces that end with a newline
or fill the array.

`client_decodes_response` says that it comes to the numbers that the server put into the header,
whatever the file contains and however `write` and `read` split the response.
-/

set_option autoImplicit false
set_option relaxedAutoImplicit false

namespace OperatingSystems.Webserver

open Library

/-! ### Writing -/

/-- What one call of `write` returns. -/
inductive WriteResult
  /-- Some bytes are written; no more than there are. -/
  | wrote (k : ℕ) (hpos : 0 < k)
  /-- `-1` with `EINTR`. -/
  | interrupted
  /-- Another error. -/
  | failed

/-- `rio_write`: whether all is written, what is written, and what the coming calls of `write`
return. After the calls that the list tells of, `write` takes all it is given. -/
def rioWrite : List WriteResult → List UInt8 → Bool × List UInt8 × List WriteResult
  | [], bytes => (true, bytes, [])
  | .wrote k hpos :: rest, bytes =>
    if bytes = [] then (true, [], .wrote k hpos :: rest)
    else
      let (done, sent, rest) := rioWrite rest (bytes.drop k)
      (done, bytes.take k ++ sent, rest)
  | .interrupted :: rest, bytes =>
    if bytes = [] then (true, [], .interrupted :: rest) else rioWrite rest bytes
  | .failed :: rest, bytes => if bytes = [] then (true, [], .failed :: rest) else (false, [], rest)

/-- What `request_sendfile` sends before the file. -/
def responseHeader (data : FileData) : List UInt8 :=
  ascii "HTTP/1.0 200 OK\r\n" ++
  ascii "Server: OS Web Server\r\n" ++
  ascii "Content-Type: " ++ ascii (requestGetFileType data.fileName) ++ ascii "\r\n" ++
  ascii "Content-Length: " ++ ascii (toString data.fileSize) ++ ascii "\r\n" ++
  ascii "Content-Csum: " ++ ascii (toString (checksum (data.fileBuf.take data.fileSize.toNat))) ++
  ascii "\r\n\r\n"

/-- The calls of `Rio_write` in `request_sendfile`: what they send. A failure ends the process. -/
def sendResponse (results : List WriteResult) (data : FileData) : List UInt8 :=
  let (done, sent, results) := rioWrite results (responseHeader data)
  if done ∧ 0 < data.fileSize then
    sent ++ (rioWrite results (data.fileBuf.take data.fileSize.toNat)).2.1
  else sent

/-! ### Reading -/

/-- `MAXBUF`. -/
abbrev maxBuf : ℕ := 8192

/-- The text in an array of `MAXBUF` bytes. -/
def text (buf : ℕ → UInt8) : List UInt8 :=
  ((List.range maxBuf).map buf).takeWhile (· ≠ 0)

/-- `isspace`. -/
def isSpace (c : UInt8) : Bool := c = 32 ∨ 9 ≤ c ∧ c ≤ 13

/-- `isdigit`. -/
def isDigit (c : UInt8) : Bool := 48 ≤ c ∧ c ≤ 57

/-- The number that decimal digits denote. -/
def decimal (digits : List UInt8) : ℕ := digits.foldl (fun v c ↦ 10 * v + (c.toNat - 48)) 0

/-- The conversions `%d` and `%u` of `sscanf`, before the number is converted to its type: blanks
are skipped, and there may be a sign. -/
def scanInteger (str : List UInt8) : Option ℤ :=
  let str := str.dropWhile isSpace
  let unsigned := if str.head? = some 45 ∨ str.head? = some 43 then str.tail else str
  let digits := unsigned.takeWhile isDigit
  if digits = [] then none
  else some (if str.head? = some 45 then -(decimal digits : ℤ) else decimal digits)

/-- `sscanf` with a tag, which a blank ends, and a number. -/
def scanTag (tag : String) (str : List UInt8) : Option ℤ :=
  if ascii tag <+: str then scanInteger (str.drop (ascii tag).length) else none

/-- The variables `length` and `csum` of `client_print`. -/
structure Tags where
  length : ℤ
  csum : ℕ
  deriving DecidableEq

/-- The two calls of `sscanf` on a line. -/
def Tags.scan (tags : Tags) (str : List UInt8) : Tags where
  length := ((scanTag "Content-Length:" str).map fun v ↦ v.bmod (2 ^ 32)).getD tags.length
  csum := ((scanTag "Content-Csum:" str).map fun v ↦ (v % 2 ^ 32).toNat).getD tags.csum

/-- The loop of `client_print` over the header, if it ends normally within so many turns: the tags
found, and the buffer. -/
def clientHeader : ℕ → (ℕ → UInt8) → ℤ → Tags → Rio → Option (Tags × Rio)
  | 0, _, _, _, _ => none
  | turns + 1, buf, n, tags, rp =>
    if !isBlank buf && 0 < n then
      match rioReadlineb rp maxBuf with
      | none => none
      | some r =>
        if r.ret < 0 then none
        else
          let buf := overwrite buf r.written
          clientHeader turns buf r.ret (tags.scan (text buf)) r.rp
    else some (tags, rp)

/-- The sum of bytes, added to what there is in an `unsigned int`. -/
def addBytes (csum : ℕ) (bytes : List UInt8) : ℕ :=
  bytes.foldl (fun csum b ↦ (csum + b.toNat) % 2 ^ 32) csum

/-- The loop of `client_print` over the body, if it ends normally within so many turns:
`length_received` and `csum_received`. -/
def clientBody : ℕ → ℤ → ℕ → Rio → Option (ℤ × ℕ)
  | 0, _, _, _ => none
  | turns + 1, length, csum, rp =>
    match rioReadlineb rp maxBuf with
    | none => none
    | some r =>
      if r.ret < 0 then none
      else
        let length := (length + r.ret).bmod (2 ^ 32)
        let csum := addBytes csum (r.written.take r.ret.toNat)
        if 0 < r.ret then clientBody turns length csum r.rp else some (length, csum)

/-- What `client_print` has come to at its assertions, and the buffer at the end of the header. -/
structure Received where
  tags : Tags
  body : Rio
  lengthReceived : ℤ
  csumReceived : ℕ

/-- `client_print` up to its assertions, if it gets there with so many turns of its loops. -/
def clientPrint (headerTurns bodyTurns : ℕ) (buf : ℕ → UInt8) (input : List ReadResult) :
    Option Received :=
  match rioReadlineb (rioInit input) maxBuf with
  | none => none
  | some r =>
    if r.ret < 0 then none
    else
      match clientHeader headerTurns (overwrite buf r.written) r.ret ⟨0, 0⟩ r.rp with
      | none => none
      | some (tags, rp) =>
        (clientBody bodyTurns 0 0 rp).map fun (length, csum) ↦ ⟨tags, rp, length, csum⟩

/-! ### What is written -/

/-- Unless `write` fails, `rio_write` writes all it is given. -/
theorem rioWrite_sent : ∀ {results : List WriteResult} (bytes : List UInt8), .failed ∉ results →
    ∃ rest, rioWrite results bytes = (true, bytes, rest) ∧ .failed ∉ rest := by
  intro results
  induction results with
  | nil => exact fun bytes _ ↦ ⟨[], rfl, List.not_mem_nil⟩
  | cons result results ih =>
    intro bytes hfail
    have hrest : .failed ∉ results := fun h ↦ hfail (List.mem_cons_of_mem _ h)
    by_cases hempty : bytes = []
    · refine ⟨result :: results, ?_, hfail⟩
      cases result <;> rw [rioWrite, if_pos hempty, hempty]
    cases result with
    | wrote k hpos =>
      obtain ⟨rest, hrun, hnone⟩ := ih (bytes.drop k) hrest
      refine ⟨rest, ?_, hnone⟩
      rw [rioWrite, if_neg hempty, hrun]
      simp only [List.take_append_drop]
    | interrupted =>
      obtain ⟨rest, hrun, hnone⟩ := ih bytes hrest
      exact ⟨rest, by rw [rioWrite, if_neg hempty, hrun], hnone⟩
    | failed => exact absurd List.mem_cons_self hfail

/-- What `request_sendfile` sends, however `write` splits it. -/
theorem sendResponse_eq {results : List WriteResult} (hfail : .failed ∉ results) (data : FileData) :
    sendResponse results data = requestSendfile data := by
  obtain ⟨rest, hheader, hrest⟩ := rioWrite_sent (responseHeader data) hfail
  obtain ⟨rest', hbody, -⟩ := rioWrite_sent (data.fileBuf.take data.fileSize.toNat) hrest
  have hwhole : requestSendfile data =
      responseHeader data ++ data.fileBuf.take data.fileSize.toNat := rfl
  rw [sendResponse, hheader, hwhole]
  simp only [true_and]
  split_ifs with hpos
  · rw [hbody]
  · rw [Int.toNat_eq_zero.mpr (not_lt.mp hpos), List.take_zero, List.append_nil]

/-! ### Numbers -/

section Numbers

theorem ascii_toString (n : ℕ) : ascii (toString n) = digitBytes n := by
  rw [ascii, Nat.toString_eq_repr, Nat.toList_repr]
  rfl

theorem isDigit_iff {c : UInt8} : isDigit c = true ↔ 48 ≤ c.toNat ∧ c.toNat ≤ 57 := by
  rw [isDigit, decide_eq_true_eq, UInt8.le_iff_toNat_le, UInt8.le_iff_toNat_le]
  rfl

/-- Every byte of a number is a digit. -/
theorem isDigit_of_mem_ascii {n : ℕ} {c : UInt8} (h : c ∈ ascii (toString n)) :
    isDigit c = true := by
  rw [ascii_toString] at h
  exact isDigit_iff.mpr (range_of_mem_digitBytes h)

/-- A digit is no blank, no sign, no newline and no NUL. -/
theorem ne_of_isDigit {c d : UInt8} (hc : isDigit c = true) (hd : isDigit d = false) : c ≠ d := by
  rintro rfl
  rw [hc] at hd
  cases hd

theorem isSpace_of_isDigit {c : UInt8} (hc : isDigit c = true) : isSpace c = false := by
  have hrange := isDigit_iff.mp hc
  rw [isSpace, decide_eq_false_iff_not, UInt8.le_iff_toNat_le, UInt8.le_iff_toNat_le]
  rintro (rfl | hblank)
  · exact absurd hrange (by decide)
  · have hlast : c.toNat ≤ 13 := hblank.2
    omega

/-- Reading a number back. -/
theorem decimal_ascii (n : ℕ) : decimal (ascii (toString n)) = n := by
  rw [decimal, ascii_toString, foldl_digitBytes]

theorem ascii_ne_nil (n : ℕ) : ascii (toString n) ≠ [] := by
  rw [ascii_toString]
  exact digitBytes_ne_nil n

theorem length_ascii_le {n : ℕ} (h : n < 10 ^ 10) : (ascii (toString n)).length ≤ 10 := by
  rw [ascii_toString]
  exact length_digitBytes_le h

/-- A number is read through its last digit. -/
theorem scanInteger_ascii (n : ℕ) {c : UInt8} (hc : isDigit c = false) (rest : List UInt8) :
    scanInteger (32 :: (ascii (toString n) ++ c :: rest)) = some (n : ℤ) := by
  obtain ⟨d, digits, hdigits⟩ := List.exists_cons_of_ne_nil (ascii_ne_nil n)
  have hd : isDigit d = true := isDigit_of_mem_ascii (n := n)
    (by rw [hdigits]; exact List.mem_cons_self)
  have hblank : isSpace 32 = true := by decide
  have hskip : (32 :: (ascii (toString n) ++ c :: rest)).dropWhile isSpace =
      ascii (toString n) ++ c :: rest := by
    rw [List.dropWhile_cons_of_pos hblank, hdigits, List.cons_append,
      List.dropWhile_cons_of_neg (by simp [isSpace_of_isDigit hd])]
  have hhead : (ascii (toString n) ++ c :: rest).head? = some d := by rw [hdigits]; rfl
  have hminus : d ≠ 45 := ne_of_isDigit hd (by decide)
  have hplus : d ≠ 43 := ne_of_isDigit hd (by decide)
  have htake : (ascii (toString n) ++ c :: rest).takeWhile isDigit = ascii (toString n) := by
    rw [List.takeWhile_append_of_pos fun b hb ↦ isDigit_of_mem_ascii hb,
      List.takeWhile_cons_of_neg (by simp [hc]), List.append_nil]
  rw [scanInteger]
  simp only [hskip, hhead, Option.some.injEq, hminus, hplus, or_self, if_false, htake, ascii_ne_nil,
    decimal_ascii]

end Numbers

/-! ### Lines of the header -/

/-- A line of a header: not empty, and short enough for the array with a NUL behind it. -/
structure HeaderLine (line : List UInt8) : Prop where
  ends : ∃ str, line = str ++ [10] ∧ 10 ∉ str
  fits : line.length < maxBuf
  nulFree : 0 ∉ line
  ne_blank : line ≠ [13, 10]

section Header

variable {rp : Rio} {buf : ℕ → UInt8} {line rest : List UInt8}

/-- A line with its newline is the next line. -/
theorem nextLine_append {str : List UInt8} (hno : 10 ∉ str) (rest : List UInt8) :
    ∀ {maxlen : ℕ}, str.length + 1 ≤ maxlen → nextLine maxlen (str ++ 10 :: rest) =
      str ++ [10] := by
  induction str with
  | nil =>
    intro maxlen hfit
    obtain ⟨left, rfl⟩ : ∃ left, maxlen = left + 1 := ⟨maxlen - 1, by omega⟩
    exact nextLine_newline left rest
  | cons c str ih =>
    intro maxlen hfit
    obtain ⟨left, rfl⟩ : ∃ left, maxlen = left + 1 := ⟨maxlen - 1, by omega⟩
    rw [List.length_cons] at hfit
    have hc : c ≠ 10 := fun h ↦ hno (h ▸ List.mem_cons_self)
    rw [List.cons_append, nextLine_cons _ _ hc, ih (fun h ↦ hno (List.mem_cons_of_mem c h))
      (by omega), List.cons_append]

/-- The text in the array after a line was read. -/
theorem text_overwrite (hfits : line.length ≤ maxBuf) (hnul : 0 ∉ line) (buf : ℕ → UInt8) :
    text (overwrite buf (line ++ [0])) = line := by
  obtain ⟨k, hk⟩ : ∃ k, maxBuf = line.length + k := ⟨maxBuf - line.length, by omega⟩
  have hfirst : (List.range line.length).map (overwrite buf (line ++ [0])) = line := by
    apply List.ext_getElem
    · rw [List.length_map, List.length_range]
    · intro j hj hj'
      rw [List.getElem_map, List.getElem_range, overwrite, List.getD_eq_getElem?_getD,
        List.getElem?_append_left hj', List.getElem?_eq_getElem hj', Option.getD_some]
  have hnext : overwrite buf (line ++ [0]) (line.length + 0) = 0 := by
    rw [overwrite, List.getD_eq_getElem?_getD, List.getElem?_append_right (by omega)]
    simp
  have hall : ∀ c ∈ line, decide (c ≠ 0) = true := by
    intro c hc
    have hne : c ≠ 0 := fun h ↦ hnul (h ▸ hc)
    simpa using hne
  rw [text, hk, List.range_add, List.map_append, hfirst, List.takeWhile_append_of_pos hall]
  cases k with
  | zero => rw [List.range_zero, List.map_nil, List.map_nil, List.takeWhile_nil, List.append_nil]
  | succ k =>
    rw [List.range_succ_eq_map, List.map_cons, List.map_cons, hnext,
      List.takeWhile_cons_of_neg (by simp), List.append_nil]

/-- One line is read. -/
theorem rioReadlineb_line {str : List UInt8} (hno : 10 ∉ str) (hfit : str.length + 1 ≤ maxBuf)
    (hfails : ¬rp.Fails) (hstream : rp.stream = str ++ [10] ++ rest) :
    ∃ rp', rp'.stream = rest ∧ ¬rp'.Fails ∧
      rioReadlineb rp maxBuf = some ⟨(str ++ [10]).length, str ++ [10] ++ [0], rp'⟩ := by
  have hline : nextLine maxBuf rp.stream = str ++ [10] := by
    rw [hstream, List.append_assoc, List.singleton_append, nextLine_append hno rest hfit]
  have hlength : (str ++ [10]).length = str.length + 1 := List.length_append
  obtain ⟨rp', hstream', hfails', hrun⟩ := rioReadlineb_run (by decide : 0 < maxBuf)
    (fun hcut ↦ hfails hcut.1)
    (by rw [hline, hlength]; exact lt_of_le_of_lt hfit (by decide))
  rw [hline, if_neg (by rw [hstream]; simp)] at hrun
  refine ⟨rp', ?_, fun h ↦ hfails (hfails'.mp h), hrun⟩
  rw [hstream', hline, hstream, List.drop_left]

/-- One turn of the loop over the header. -/
theorem clientHeader_line {str : List UInt8} (hno : 10 ∉ str) (hfit : str.length + 1 ≤ maxBuf)
    (hnul : 0 ∉ str) (hfails : ¬rp.Fails) (hstream : rp.stream = str ++ [10] ++ rest)
    (hbuf : isBlank buf = false) {n : ℤ} (hn : 0 < n) (tags : Tags) :
    ∃ rp', rp'.stream = rest ∧ ¬rp'.Fails ∧ ∀ turns, clientHeader (turns + 1) buf n tags rp =
      clientHeader turns (overwrite buf (str ++ [10] ++ [0])) (str ++ [10]).length
        (tags.scan (str ++ [10])) rp' := by
  obtain ⟨rp', hstream', hfails', hrun⟩ := rioReadlineb_line hno hfit hfails hstream
  have hlength : (str ++ [10]).length = str.length + 1 := List.length_append
  refine ⟨rp', hstream', hfails', fun turns ↦ ?_⟩
  rw [clientHeader, hbuf, decide_eq_true hn, hrun]
  simp only [Bool.not_false, Bool.and_self, if_true]
  rw [if_neg (not_lt.mpr (Int.natCast_nonneg _)), text_overwrite (by omega) (by simp [hnul])]

/-- The loop over the header reads the lines up to the empty one and looks for the tags in each. -/
theorem clientHeader_run (lines : List (List UInt8)) : ∀ {rp : Rio} {buf : ℕ → UInt8} {n : ℤ}
    {tags : Tags}, (∀ line ∈ lines, HeaderLine line) → ¬rp.Fails →
    rp.stream = lines.flatten ++ ([13, 10] ++ rest) → isBlank buf = false → 0 < n →
    ∃ rp', rp'.stream = rest ∧ ¬rp'.Fails ∧ clientHeader (lines.length + 2) buf n tags rp =
      some ((lines.foldl Tags.scan tags).scan [13, 10], rp') := by
  induction lines with
  | nil =>
    intro rp buf n tags _ hfails hstream hbuf hn
    obtain ⟨rp', hstream', hfails', hstep⟩ := @clientHeader_line rp buf rest [13] (by decide)
      (by decide)
      (by decide) hfails hstream hbuf n hn tags
    have hblank : isBlank (overwrite buf ([13] ++ [10] ++ [0])) = true := rfl
    refine ⟨rp', hstream', hfails', ?_⟩
    rw [List.length_nil, hstep, clientHeader, hblank]
    rfl
  | cons line lines ih =>
    intro rp buf n tags hlines hfails hstream hbuf hn
    have hline := hlines line List.mem_cons_self
    obtain ⟨str, rfl, hno⟩ := hline.ends
    have hfit := hline.fits.le
    rw [List.length_append, List.length_singleton] at hfit
    rw [List.flatten_cons, List.append_assoc] at hstream
    obtain ⟨rp', hstream', hfails', hstep⟩ := clientHeader_line hno hfit
      (fun h ↦ hline.nulFree (List.mem_append_left _ h)) hfails hstream hbuf hn tags
    have hnext : nextLine maxLine rp.stream = str ++ [10] := by
      rw [hstream, List.append_assoc, List.singleton_append, nextLine_append hno _ hfit]
    have hbuf' : isBlank (overwrite buf (str ++ [10] ++ [0])) = false := by
      rw [Bool.eq_false_iff, Ne, ← hnext, isBlank_overwrite_iff (by rw [hstream]; simp), hnext]
      exact hline.ne_blank
    obtain ⟨rp'', hstream'', hfails'', hrest⟩ := @ih rp' _ (str ++ [10]).length
      (tags.scan (str ++ [10]))
      (fun l hl ↦ hlines l (List.mem_cons_of_mem _ hl)) hfails' hstream' hbuf' (by simp)
    exact ⟨rp'', hstream'', hfails'', by rw [List.length_cons, hstep, hrest, List.foldl_cons]⟩

end Header

/-! ### The body -/

section Body

variable {rp : Rio}

theorem addBytes_append (csum : ℕ) (first second : List UInt8) :
    addBytes csum (first ++ second) = addBytes (addBytes csum first) second := List.foldl_append

theorem checksum_eq_addBytes (bytes : List UInt8) : checksum bytes = addBytes 0 bytes := rfl

/-- The sum in an `unsigned int` is the sum modulo `2^32`. -/
theorem addBytes_eq_sum (bytes : List UInt8) : ∀ {csum : ℕ}, csum < 2 ^ 32 →
    addBytes csum bytes = (csum + (bytes.map UInt8.toNat).sum) % 2 ^ 32 := by
  induction bytes with
  | nil =>
    intro csum h
    rw [List.map_nil, List.sum_nil, add_zero, Nat.mod_eq_of_lt h]
    rfl
  | cons b bytes ih =>
    intro csum h
    have hcons : addBytes csum (b :: bytes) = addBytes ((csum + b.toNat) % 2 ^ 32) bytes := rfl
    rw [hcons, ih (Nat.mod_lt _ (by decide)), List.map_cons, List.sum_cons, Nat.mod_add_mod,
      add_assoc]

theorem checksum_lt (bytes : List UInt8) : checksum bytes < 2 ^ 32 := by
  rw [checksum_eq_addBytes, addBytes_eq_sum bytes (by decide)]
  exact Nat.mod_lt _ (by decide)

theorem bmod_of_lt {n : ℤ} (hpos : 0 ≤ n) (hlt : n < 2 ^ 31) : n.bmod (2 ^ 32) = n := by
  apply Int.bmod_eq_of_le
  · simp only [Nat.cast_pow, Nat.cast_ofNat]
    omega
  · simpa using hlt

/-- The loop over the body at the end of the stream. -/
theorem clientBody_eof (hfails : ¬rp.Fails) (hnil : rp.stream = []) {length : ℤ} (hpos : 0 ≤ length)
    (hlt : length < 2 ^ 31) (turns csum : ℕ) :
    clientBody (turns + 1) length csum rp = some (length, csum) := by
  obtain ⟨rp', -, -, hrun⟩ := rioReadlineb_run (by decide : 0 < maxBuf)
    (fun hcut ↦ hfails hcut.1) (by rw [hnil, nextLine_nil]; decide)
  rw [if_pos hnil] at hrun
  rw [clientBody, hrun]
  simp only [lt_irrefl, if_false, add_zero, bmod_of_lt hpos hlt]
  rfl

/-- The loop over the body sums up all that is left of the stream. -/
theorem clientBody_run (k : ℕ) : ∀ {rp : Rio} {length : ℤ} {csum : ℕ}, rp.stream.length ≤ k →
    ¬rp.Fails → 0 ≤ length → length + rp.stream.length < 2 ^ 31 →
    clientBody (k + 1) length csum rp =
      some (length + rp.stream.length, addBytes csum rp.stream) := by
  induction k with
  | zero =>
    intro rp length csum hk hfails hpos hlt
    have hnil : rp.stream = [] := List.eq_nil_of_length_eq_zero (by omega)
    rw [clientBody_eof hfails hnil hpos (by omega), hnil, List.length_nil, Nat.cast_zero, add_zero]
    rfl
  | succ k ih =>
    intro rp length csum hk hfails hpos hlt
    by_cases hnil : rp.stream = []
    · rw [clientBody_eof hfails hnil hpos (by omega), hnil, List.length_nil, Nat.cast_zero,
        add_zero]
      rfl
    obtain ⟨line, hline⟩ : ∃ line, line = nextLine maxBuf rp.stream := ⟨_, rfl⟩
    have hne : 0 < line.length := by
      rw [List.length_pos_iff_ne_nil, hline, Ne, nextLine_eq_nil_iff (by decide)]
      exact hnil
    have hle : line.length ≤ maxBuf := hline ▸ length_nextLine_le _ _
    obtain ⟨rp', hstream, hfails', hrun⟩ := rioReadlineb_run (by decide : 0 < maxBuf)
      (fun hcut ↦ hfails hcut.1) (by rw [← hline]; exact lt_of_le_of_lt hle (by decide))
    rw [← hline] at hstream hrun
    rw [if_neg hnil] at hrun
    have hsplit : rp.stream = line ++ rp'.stream := by
      obtain ⟨rest, hrest⟩ := hline ▸ nextLine_isPrefix maxBuf rp.stream
      rw [hstream, ← hrest, List.drop_left]
    have hlength : rp.stream.length = line.length + rp'.stream.length := by
      rw [hsplit, List.length_append]
    have hnext := @ih rp' (length + line.length) (addBytes csum line) (by omega)
      (fun h ↦ hfails (hfails'.mp h)) (by omega) (by omega)
    rw [clientBody, hrun]
    simp only [Int.toNat_natCast, List.take_left', Int.natCast_pos, hne, if_true,
      bmod_of_lt (by omega : 0 ≤ length + line.length) (by omega)]
    rw [if_neg (not_lt.mpr (Int.natCast_nonneg _)), hnext, hlength, hsplit, addBytes_append,
      Nat.cast_add, add_assoc]

end Body

/-! ### The lines that the server writes -/

section Response

/-- A line with a tag and a number. -/
def tagLine (tag : String) (n : ℕ) : List UInt8 := ascii tag ++ ascii (toString n) ++ ascii "\r\n"

theorem digit_not_mem {n : ℕ} {c : UInt8} (hc : isDigit c = false) : c ∉ ascii (toString n) :=
    fun h ↦
  ne_of_isDigit (isDigit_of_mem_ascii h) hc rfl

theorem headerLine_tagLine {tag : String} (hno : 10 ∉ ascii tag) (hnul : 0 ∉ ascii tag)
    (hfits : (ascii tag).length ≤ 100) (hhead : (ascii tag).head? = some 67) {n : ℕ}
    (hn : n < 10 ^ 10) :
    HeaderLine (tagLine tag n) where
  ends := by
    refine ⟨ascii tag ++ ascii (toString n) ++ [13],
      by rw [tagLine, List.append_assoc _ [13]]; rfl, ?_⟩
    simp only [List.mem_append, not_or]
    exact ⟨⟨hno, digit_not_mem (by decide)⟩, by decide⟩
  fits := by
    have hdigits := length_ascii_le hn
    have hcrlf : (ascii "\r\n").length = 2 := rfl
    rw [tagLine, List.length_append, List.length_append]
    simp only [maxBuf]
    omega
  nulFree := by
    simp only [tagLine, List.mem_append, not_or]
    exact ⟨⟨hnul, digit_not_mem (by decide)⟩, by decide⟩
  ne_blank := by
    intro h
    have hfirst := congrArg List.head? h
    rw [tagLine, List.append_assoc, List.head?_append, hhead, Option.some_or] at hfirst
    exact absurd hfirst (by decide)

/-- The number after a tag is read back. -/
theorem scanTag_tagLine {tag : String} {long : String} (hlong : ascii long = ascii tag ++ [32])
    (n : ℕ) :
    scanTag tag (tagLine long n) = some (n : ℤ) := by
  have hline : tagLine long n = ascii tag ++ (32 :: (ascii (toString n) ++ 13 :: [10])) := by
    rw [tagLine, hlong, List.append_assoc, List.append_assoc]
    rfl
  rw [scanTag, hline, if_pos (List.prefix_append _ _), List.drop_left,
    scanInteger_ascii n (by decide)]

/-- Another tag is not found. -/
theorem scanTag_other {tag long : String} (hlong : ¬ascii tag <+: ascii long)
    (hshort : ¬ascii long <+: ascii tag) (n : ℕ) : scanTag tag (tagLine long n) = none := by
  rw [scanTag, if_neg]
  intro htag
  rw [tagLine, List.append_assoc] at htag
  rcases List.prefix_or_prefix_of_prefix htag (List.prefix_append _ _) with h | h
  · exact hlong h
  · exact hshort h

/-- The lines of the header behind the first. -/
def responseLines (data : FileData) : List (List UInt8) :=
  [ascii "Server: OS Web Server\r\n",
    ascii "Content-Type: " ++ ascii (requestGetFileType data.fileName) ++ ascii "\r\n",
    tagLine "Content-Length: " data.fileBuf.length,
    tagLine "Content-Csum: " (checksum data.fileBuf)]

variable {data : FileData}

/-- The response is the status line, these lines, the empty line and the file. -/
theorem requestSendfile_eq (hsize : data.fileSize = data.fileBuf.length) :
    requestSendfile data = ascii "HTTP/1.0 200 OK\r\n" ++
      ((responseLines data).flatten ++ ([13, 10] ++ data.fileBuf)) := by
  have hwhole : data.fileBuf.take data.fileSize.toNat = data.fileBuf := by
    rw [hsize, Int.toNat_natCast, List.take_length]
  have hnumber : toString data.fileSize = toString data.fileBuf.length := by
    rw [hsize]
    rfl
  have hblank : ascii "\r\n\r\n" = ascii "\r\n" ++ [13, 10] := rfl
  rw [requestSendfile]
  simp only [hwhole, hnumber, hblank, responseLines, tagLine, List.flatten_cons, List.flatten_nil,
    List.append_nil, List.append_assoc]

/-- The file types that the server knows. -/
theorem requestGetFileType_cases (fileName : List UInt8) :
    requestGetFileType fileName = "text/html" ∨ requestGetFileType fileName = "image/gif" ∨
      requestGetFileType fileName = "image/jpeg" ∨ requestGetFileType fileName = "text/plain" := by
  rw [requestGetFileType]
  split_ifs <;> simp

/-- The lines without a number. -/
theorem headerLine_of {line : List UInt8}
    (hends : line = line.dropLast ++ [10] ∧ 10 ∉ line.dropLast)
    (hfits : line.length < maxBuf) (hnul : 0 ∉ line) (hne : line ≠ [13, 10]) : HeaderLine line :=
  ⟨⟨_, hends⟩, hfits, hnul, hne⟩

theorem Tags.scan_eq_self {line : List UInt8} (hlength : scanTag "Content-Length:" line = none)
    (hcsum : scanTag "Content-Csum:" line = none) (tags : Tags) : tags.scan line = tags := by
  rw [Tags.scan, hlength, hcsum]
  rfl

theorem headerLine_type (fileName : List UInt8) : HeaderLine
    (ascii "Content-Type: " ++ ascii (requestGetFileType fileName) ++ ascii "\r\n") := by
  rcases requestGetFileType_cases fileName with h | h | h | h <;> rw [h] <;>
    exact headerLine_of (by decide) (by decide) (by decide) (by decide)

theorem scan_type (fileName : List UInt8) (tags : Tags) : tags.scan
    (ascii "Content-Type: " ++ ascii (requestGetFileType fileName) ++ ascii "\r\n") = tags := by
  rcases requestGetFileType_cases fileName with h | h | h | h <;> rw [h] <;>
    exact Tags.scan_eq_self (by decide) (by decide) tags

theorem headerLine_of_mem (hlt : data.fileBuf.length < 2 ^ 31) :
    ∀ line ∈ responseLines data, HeaderLine line := by
  have hcsum := checksum_lt data.fileBuf
  intro line hline
  simp only [responseLines, List.mem_cons, List.not_mem_nil, or_false] at hline
  rcases hline with rfl | rfl | rfl | rfl
  · exact headerLine_of (by decide) (by decide) (by decide) (by decide)
  · exact headerLine_type data.fileName
  · exact headerLine_tagLine (by decide) (by decide) (by decide) (by decide) (by omega)
  · exact headerLine_tagLine (by decide) (by decide) (by decide) (by decide) (by omega)

theorem scan_length {n : ℕ} (hn : n < 2 ^ 31) (tags : Tags) :
    tags.scan (tagLine "Content-Length: " n) = { tags with length := n } := by
  have hfound : scanTag "Content-Length:" (tagLine "Content-Length: " n) = some (n : ℤ) :=
    scanTag_tagLine (by decide) n
  have hother : scanTag "Content-Csum:" (tagLine "Content-Length: " n) = none :=
    scanTag_other (by decide) (by decide) n
  rw [Tags.scan, hfound, hother, Option.map_some, Option.map_none, Option.getD_some,
    Option.getD_none, bmod_of_lt (Int.natCast_nonneg n) (by omega)]

theorem scan_csum {n : ℕ} (hn : n < 2 ^ 32) (tags : Tags) :
    tags.scan (tagLine "Content-Csum: " n) = { tags with csum := n } := by
  have hfound : scanTag "Content-Csum:" (tagLine "Content-Csum: " n) = some (n : ℤ) :=
    scanTag_tagLine (by decide) n
  have hother : scanTag "Content-Length:" (tagLine "Content-Csum: " n) = none :=
    scanTag_other (by decide) (by decide) n
  have hmod : ((n : ℤ) % 2 ^ 32).toNat = n := by omega
  rw [Tags.scan, hfound, hother, Option.map_some, Option.map_none, Option.getD_some,
    Option.getD_none, hmod]

/-- The tags that the client finds. -/
theorem scan_responseLines (hlt : data.fileBuf.length < 2 ^ 31) :
    ((responseLines data).foldl Tags.scan ⟨0, 0⟩).scan [13, 10] =
      ⟨data.fileBuf.length, checksum data.fileBuf⟩ := by
  have hserver : (⟨0, 0⟩ : Tags).scan (ascii "Server: OS Web Server\r\n") = ⟨0, 0⟩ :=
    Tags.scan_eq_self (by decide) (by decide) _
  rw [responseLines, List.foldl_cons, List.foldl_cons, List.foldl_cons, List.foldl_cons,
    List.foldl_nil, hserver, scan_type, scan_length hlt, scan_csum (checksum_lt _),
    Tags.scan_eq_self (by decide) (by decide)]

/-! ### The client and the server agree -/

/-- The client on a status line, header lines, an empty line and a body. -/
theorem clientPrint_run {input : List ReadResult} (hread : .failed ∉ input) {status : List UInt8}
    (hstatus : HeaderLine status) {lines : List (List UInt8)}
    (hlines : ∀ line ∈ lines, HeaderLine line)
    {body : List UInt8} (hlt : body.length < 2 ^ 31)
    (hinput : delivered input = status ++ (lines.flatten ++ ([13, 10] ++ body))) (buf : ℕ → UInt8) :
    ∃ headerTurns bodyTurns r, clientPrint headerTurns bodyTurns buf input = some r ∧
      r.body.stream = body ∧ r.tags = (lines.foldl Tags.scan ⟨0, 0⟩).scan [13, 10] ∧
      r.lengthReceived = body.length ∧ r.csumReceived = checksum body := by
  obtain ⟨str, rfl, hno⟩ := hstatus.ends
  have hfit := hstatus.fits.le
  rw [List.length_append, List.length_singleton] at hfit
  obtain ⟨rp, hrp, hfails, hrun⟩ := @rioReadlineb_line (rioInit input) _ str hno hfit hread hinput
  have hne : (rioInit input).stream ≠ [] := by
    rw [Rio.stream, rioInit, List.nil_append, hinput]
    simp
  have hnext : nextLine maxLine (rioInit input).stream = str ++ [10] := by
    rw [Rio.stream, rioInit, List.nil_append, hinput, List.append_assoc, List.singleton_append,
      nextLine_append hno _ hfit]
  have hbuf : isBlank (overwrite buf (str ++ [10] ++ [0])) = false := by
    rw [Bool.eq_false_iff, Ne, ← hnext, isBlank_overwrite_iff hne, hnext]
    exact hstatus.ne_blank
  have hpos : (0 : ℤ) < (str ++ [10]).length := by simp
  obtain ⟨rp', hrp', hfails', hheader⟩ := @clientHeader_run body lines rp _ (str ++ [10]).length
    ⟨0, 0⟩
    hlines hfails hrp hbuf hpos
  have hbody := @clientBody_run body.length rp' 0 0 (by rw [hrp']) hfails' le_rfl
    (by rw [hrp', zero_add]; exact_mod_cast hlt)
  refine ⟨lines.length + 2, body.length + 1, ⟨_, rp', body.length, checksum body⟩, ?_, hrp', rfl,
    rfl, rfl⟩
  rw [clientPrint, hrun]
  simp only
  rw [if_neg (not_lt.mpr hpos.le), hheader]
  simp only
  rw [hbody, Option.map_some, hrp', zero_add]
  rfl

/-- Assumes: neither `write` nor `read` fails. When the client reads what `request_sendfile` sends
for a file of fewer than `2^31` bytes, however it is split on both sides and whatever the array
holds at first, it gets to its assertions: the header ends exactly before the file, the tags are the
length of the file and the sum of its bytes modulo `2^32`, and so are what the client has received.
-/
theorem client_decodes_response (data : FileData) (hsize : data.fileSize = data.fileBuf.length)
    (hlt : data.fileBuf.length < 2 ^ 31) (results : List WriteResult) (hwrite : .failed ∉ results)
    (input : List ReadResult) (hread : .failed ∉ input)
    (hinput : delivered input = sendResponse results data) (buf : ℕ → UInt8) :
    ∃ headerTurns bodyTurns r, clientPrint headerTurns bodyTurns buf input = some r ∧
      r.body.stream = data.fileBuf ∧ r.tags.length = data.fileSize ∧
      r.tags.csum = (data.fileBuf.map UInt8.toNat).sum % 2 ^ 32 ∧
      r.lengthReceived = r.tags.length ∧ r.csumReceived = r.tags.csum := by
  rw [sendResponse_eq hwrite, requestSendfile_eq hsize] at hinput
  have hstatus : HeaderLine (ascii "HTTP/1.0 200 OK\r\n") :=
    headerLine_of (by decide) (by decide) (by decide) (by decide)
  obtain ⟨headerTurns, bodyTurns, r, hrun, hbody, htags, hlength, hcsum⟩ :=
    clientPrint_run hread hstatus (headerLine_of_mem hlt) hlt hinput buf
  rw [scan_responseLines hlt] at htags
  refine ⟨headerTurns, bodyTurns, r, hrun, hbody, ?_, ?_, ?_, ?_⟩
  · rw [htags, hsize]
  · rw [htags, checksum_eq_addBytes, addBytes_eq_sum data.fileBuf (by decide), zero_add]
  · rw [htags, hlength]
  · rw [htags, hcsum]

end Response

/-- A file of four bytes, among them a NUL and a newline. -/
def binaryFile : FileData := ⟨ascii "./a", [72, 0, 10, 200], 4⟩

/-- The response for it, which `read` returns in three pieces: the first ends in a header line, and
the second in the file. -/
def binaryInput : List ReadResult :=
  [.data ⟨(requestSendfile binaryFile).take 10, by decide, by decide⟩, .interrupted,
    .data ⟨((requestSendfile binaryFile).drop 10).take 97, by decide, by decide⟩,
    .data ⟨(requestSendfile binaryFile).drop 107, by decide, by decide⟩]

/-- The client reads the response for this file. -/
theorem client_decodes_response_of_binaryFile : ∃ headerTurns bodyTurns r,
    clientPrint headerTurns bodyTurns (fun _ ↦ 0) binaryInput = some r ∧
      r.body.stream = [72, 0, 10, 200] ∧ r.tags.length = 4 ∧ r.tags.csum = 282 ∧
      r.lengthReceived = r.tags.length ∧ r.csumReceived = r.tags.csum := by
  have hinput : delivered binaryInput =
      sendResponse [.wrote 5 (by decide), .interrupted] binaryFile := by
    rw [sendResponse_eq (by simp)]
    decide
  exact client_decodes_response binaryFile rfl (by decide) [.wrote 5 (by decide), .interrupted]
    (by simp) binaryInput (by simp [binaryInput]) hinput fun _ ↦ 0

end OperatingSystems.Webserver
