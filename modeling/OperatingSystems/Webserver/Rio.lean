import OperatingSystems.Webserver.Response

/-!
# Buffered reading of lines

`rio_readb` and `rio_readlineb` of `common.c`. A descriptor is the list of what the coming calls of
`read` return: some bytes, an interruption, a failure; when the list is at its end, so is the file.
Of the internal buffer only the unread bytes matter.

`Rio.stream` are the bytes that reading delivers, and `nextLine` the next line among them, with at
most `maxlen` bytes. `rio_readlineb` delivers this line however `read` splits the stream
(`rioReadlineb_run`), and puts a NUL behind it. There is room for the NUL only if the line has
fewer than `maxlen` bytes (`rioReadlineb_in_bounds_iff`).
-/

set_option autoImplicit false
set_option relaxedAutoImplicit false

namespace OperatingSystems.Webserver

/-- `RIO_BUFSIZE`. -/
abbrev rioBufSize : ℕ := 8192

/-- The bytes that one call of `read` puts into the internal buffer. -/
structure Chunk where
  bytes : List UInt8
  ne_nil : bytes ≠ []
  fits : bytes.length ≤ rioBufSize

/-- What one call of `read` returns before the end of the file. -/
inductive ReadResult
  /-- Some bytes. -/
  | data (chunk : Chunk)
  /-- `-1` with `EINTR`. -/
  | interrupted
  /-- `-1` with another error. -/
  | failed

/-- `struct rio`: the unread bytes of the internal buffer, and what the coming calls of `read`
return. -/
structure Rio where
  unread : List UInt8
  input : List ReadResult

/-- `rio_init`. -/
def rioInit (input : List ReadResult) : Rio := ⟨[], input⟩

/-- The loop of `rio_readb` that fills the empty internal buffer: what it makes the call return, if
it does, and the buffer. -/
def refill : List ReadResult → Option ℤ × Rio
  | [] => (some 0, ⟨[], []⟩)
  | .data chunk :: rest => (none, ⟨chunk.bytes, rest⟩)
  | .interrupted :: rest => refill rest
  | .failed :: rest => (some (-1), ⟨[], rest⟩)

/-- `rio_readb`: what it returns, and the bytes it copies to `usrbuf`. -/
def rioReadb (rp : Rio) (n : ℕ) : ℤ × List UInt8 × Rio :=
  let (ended, rp) := if rp.unread = [] then refill rp.input else (none, rp)
  match ended with
  | some rc => (rc, [], rp)
  | none =>
    let cnt := min n rp.unread.length
    (cnt, rp.unread.take cnt, { rp with unread := rp.unread.drop cnt })

/-- What `rio_readlineb` returns, the bytes it has written to `usrbuf`, one after the other from its
start on, and the buffer. -/
structure LineRead where
  ret : ℤ
  written : List UInt8
  rp : Rio

/-- The loop of `rio_readlineb`, with the bytes stored so far and the number of those that the test
`n < maxlen` still lets in. There is no result if the counter, an `int`, overflows. -/
def readlineLoop : ℕ → List UInt8 → Rio → Option LineRead
  | 0, stored, rp => some ⟨stored.length, stored ++ [0], rp⟩
  | left + 1, stored, rp =>
    let (rc, bytes, rp) := rioReadb rp 1
    if rc = 1 then
      let c := bytes.headD 0
      if stored.length + 1 = 2 ^ 31 then none
      else if c = 10 then some ⟨stored.length + 1, stored ++ [c] ++ [0], rp⟩
      else readlineLoop left (stored ++ [c]) rp
    else if rc = 0 then
      if stored = [] then some ⟨0, [], rp⟩ else some ⟨stored.length, stored ++ [0], rp⟩
    else some ⟨-1, stored, rp⟩

/-- `rio_readlineb`. -/
def rioReadlineb (rp : Rio) (maxlen : ℕ) : Option LineRead := readlineLoop maxlen [] rp

/-! ### The stream and its lines -/

/-- The bytes of the coming calls of `read`, up to the first that fails. -/
def delivered : List ReadResult → List UInt8
  | [] => []
  | .data chunk :: rest => chunk.bytes ++ delivered rest
  | .interrupted :: rest => delivered rest
  | .failed :: _ => []

/-- The bytes that reading delivers. -/
def Rio.stream (rp : Rio) : List UInt8 := rp.unread ++ delivered rp.input

/-- Some call of `read` fails. -/
def Rio.Fails (rp : Rio) : Prop := ReadResult.failed ∈ rp.input

/-- The bytes up to the first newline, with it. -/
def throughNewline : List UInt8 → List UInt8
  | [] => []
  | c :: rest => if c = 10 then [c] else c :: throughNewline rest

/-- The next line of a stream, with at most `maxlen` bytes. -/
def nextLine (maxlen : ℕ) (stream : List UInt8) : List UInt8 := (throughNewline stream).take maxlen

section Lines

variable {maxlen left : ℕ} {c : UInt8} {stream rest : List UInt8}

@[simp] theorem nextLine_zero (stream : List UInt8) : nextLine 0 stream = [] := List.take_zero

@[simp] theorem nextLine_nil (maxlen : ℕ) : nextLine maxlen [] = [] := List.take_nil

theorem nextLine_newline (left : ℕ) (rest : List UInt8) : nextLine (left + 1)
    (10 :: rest) = [10] := by
  rw [nextLine, throughNewline, if_pos rfl, List.take_succ_cons, List.take_nil]

theorem nextLine_cons (left : ℕ) (rest : List UInt8) (hc : c ≠ 10) :
    nextLine (left + 1) (c :: rest) = c :: nextLine left rest := by
  rw [nextLine, throughNewline, if_neg hc, List.take_succ_cons, nextLine]

theorem length_nextLine_le (maxlen : ℕ) (stream : List UInt8) :
    (nextLine maxlen stream).length ≤ maxlen := List.length_take_le _ _

/-- A line is the start of the stream. -/
theorem throughNewline_isPrefix : ∀ stream : List UInt8, throughNewline stream <+: stream := by
  intro stream
  induction stream with
  | nil => exact List.nil_prefix
  | cons c rest ih =>
    rw [throughNewline]
    split_ifs
    · exact ⟨rest, rfl⟩
    · exact (List.prefix_cons_inj c).mpr ih

theorem nextLine_isPrefix (maxlen : ℕ) (stream : List UInt8) : nextLine maxlen stream <+: stream :=
  (List.take_prefix _ _).trans (throughNewline_isPrefix stream)

/-- A line is as many bytes of the stream as it has. -/
theorem nextLine_eq_take (maxlen : ℕ) (stream : List UInt8) :
    nextLine maxlen stream = stream.take (nextLine maxlen stream).length :=
  List.prefix_iff_eq_take.mp (nextLine_isPrefix maxlen stream)

/-- Only at the end of the stream there is no line. -/
theorem nextLine_eq_nil_iff (hmax : 0 < maxlen) : nextLine maxlen stream = [] ↔ stream = [] := by
  obtain ⟨left, rfl⟩ : ∃ left, maxlen = left + 1 := ⟨maxlen - 1, by omega⟩
  cases stream with
  | nil => simp
  | cons c rest =>
    by_cases hc : c = 10
    · rw [hc, nextLine_newline]
      simp
    · rw [nextLine_cons left rest hc]
      simp

end Lines

/-! ### Reading a byte -/

section Read

variable {rp : Rio} {c : UInt8} {rest : List UInt8} {left maxlen : ℕ} {stored : List UInt8}

/-- The loop fills the buffer with the next bytes of the stream. -/
theorem refill_cons : ∀ {input : List ReadResult}, delivered input = c :: rest →
    ∃ rp, refill input = (none, rp) ∧ rp.stream = c :: rest ∧ rp.unread ≠ [] ∧
      (rp.Fails ↔ ReadResult.failed ∈ input) := by
  intro input
  induction input with
  | nil =>
    intro h
    cases h
  | cons result input ih =>
    intro h
    cases result with
    | data chunk => exact ⟨⟨chunk.bytes, input⟩, rfl, h, chunk.ne_nil, by simp [Rio.Fails]⟩
    | interrupted =>
      obtain ⟨rp, hrun, hstream, hunread, hfails⟩ := ih h
      exact ⟨rp, hrun, hstream, hunread, by simp [hfails]⟩
    | failed => cases h

/-- The loop ends the call at the end of the stream. -/
theorem refill_nil : ∀ {input : List ReadResult}, delivered input = [] →
    (ReadResult.failed ∉ input → refill input = (some 0, ⟨[], []⟩)) ∧
    (ReadResult.failed ∈ input → ∃ rp, refill input = (some (-1), rp)) := by
  intro input
  induction input with
  | nil => exact fun _ ↦ ⟨fun _ ↦ rfl, fun h ↦ absurd h List.not_mem_nil⟩
  | cons result input ih =>
    intro h
    cases result with
    | data chunk => exact absurd (List.append_eq_nil_iff.mp h).1 chunk.ne_nil
    | interrupted =>
      obtain ⟨heof, hfail⟩ := ih h
      exact ⟨fun hin ↦ heof (by simpa using hin), fun hin ↦ hfail (by simpa using hin)⟩
    | failed => exact ⟨fun hin ↦ absurd List.mem_cons_self hin, fun _ ↦ ⟨_, rfl⟩⟩

/-- One byte of the stream is read. -/
theorem rioReadb_cons (h : rp.stream = c :: rest) :
    ∃ rp', rioReadb rp 1 = (1, [c], rp') ∧ rp'.stream = rest ∧ (rp'.Fails ↔ rp.Fails) := by
  obtain ⟨unread, input⟩ := rp
  cases unread with
  | nil =>
    obtain ⟨rp, hrun, hstream, hunread, hfails⟩ := refill_cons h
    obtain ⟨b, unread, hb⟩ := List.exists_cons_of_ne_nil hunread
    rw [Rio.stream, hb, List.cons_append, List.cons.injEq] at hstream
    refine ⟨⟨unread, rp.input⟩, ?_, hstream.2, hfails⟩
    rw [rioReadb, if_pos rfl, hrun]
    simp [hb, hstream.1]
  | cons b unread =>
    rw [Rio.stream, List.cons_append, List.cons.injEq] at h
    refine ⟨⟨unread, input⟩, ?_, h.2, Iff.rfl⟩
    rw [rioReadb, if_neg (List.cons_ne_nil b unread)]
    simp [h.1]

/-- At the end of the stream nothing is read. -/
theorem rioReadb_nil (h : rp.stream = []) :
    (¬rp.Fails → rioReadb rp 1 = (0, [], ⟨[], []⟩)) ∧
    (rp.Fails → ∃ rp', rioReadb rp 1 = (-1, [], rp')) := by
  obtain ⟨unread, input⟩ := rp
  obtain ⟨rfl, hinput⟩ := List.append_eq_nil_iff.mp h
  obtain ⟨heof, hfail⟩ := refill_nil hinput
  refine ⟨fun hin ↦ ?_, fun hin ↦ ?_⟩
  · rw [rioReadb, if_pos rfl, heof hin]
  · obtain ⟨rp, hrun⟩ := hfail hin
    exact ⟨rp, by rw [rioReadb, if_pos rfl, hrun]⟩

/-! ### Reading a line -/

/-- The loop stores the next byte. -/
theorem readlineLoop_cons (h : rp.stream = c :: rest) (left : ℕ) (stored : List UInt8) :
    ∃ rp', rp'.stream = rest ∧ (rp'.Fails ↔ rp.Fails) ∧ readlineLoop (left + 1) stored rp =
      if stored.length + 1 = 2 ^ 31 then none
      else if c = 10 then some ⟨stored.length + 1, stored ++ [c] ++ [0], rp'⟩
      else readlineLoop left (stored ++ [c]) rp' := by
  obtain ⟨rp', hrun, hstream, hfails⟩ := rioReadb_cons h
  refine ⟨rp', hstream, hfails, ?_⟩
  rw [readlineLoop, hrun]
  exact if_pos rfl

/-- The loop at the end of the stream. -/
theorem readlineLoop_nil (h : rp.stream = []) (left : ℕ) (stored : List UInt8) :
    (¬rp.Fails → readlineLoop (left + 1) stored rp = some (if stored = [] then ⟨0, [], ⟨[], []⟩⟩
      else ⟨stored.length, stored ++ [0], ⟨[], []⟩⟩)) ∧
    (rp.Fails → ∃ rp', readlineLoop (left + 1) stored rp = some ⟨-1, stored, rp'⟩) := by
  obtain ⟨heof, hfail⟩ := rioReadb_nil h
  refine ⟨fun hin ↦ ?_, fun hin ↦ ?_⟩
  · rw [readlineLoop, heof hin]
    simp only [zero_ne_one, if_false, if_true]
    split_ifs <;> rfl
  · obtain ⟨rp', hrun⟩ := hfail hin
    refine ⟨rp', ?_⟩
    rw [readlineLoop, hrun]
    rfl

/-- A failure of `read` cuts the line off: it comes before the newline and before `maxlen` bytes. -/
def Rio.CutOff (rp : Rio) (maxlen : ℕ) : Prop :=
  rp.Fails ∧ (nextLine maxlen rp.stream).length < maxlen ∧ 10 ∉ nextLine maxlen rp.stream

/-- The loop stores the next line and a NUL; nothing at the end of the file. -/
theorem readlineLoop_run (left : ℕ) : ∀ {stored : List UInt8} {rp : Rio}, ¬rp.CutOff left →
    stored.length + (nextLine left rp.stream).length < 2 ^ 31 → 0 < left + stored.length →
    ∃ rp', rp'.stream = rp.stream.drop (nextLine left rp.stream).length ∧ (rp'.Fails ↔ rp.Fails) ∧
      readlineLoop left stored rp = some
        (if stored ++ nextLine left rp.stream = [] then ⟨0, [], rp'⟩
        else ⟨(stored ++ nextLine left rp.stream).length, stored ++ nextLine left rp.stream ++ [0],
          rp'⟩) := by
  induction left with
  | zero =>
    intro stored rp _ _ hpos
    have hne : stored ≠ [] := List.ne_nil_of_length_pos (by omega)
    refine ⟨rp, by simp, Iff.rfl, ?_⟩
    rw [readlineLoop, nextLine_zero, List.append_nil, if_neg hne]
  | succ left ih =>
    intro stored rp hcut hfits _
    cases hstream : rp.stream with
    | nil =>
      have hin : ¬rp.Fails := fun hin ↦ hcut ⟨hin, by simp [hstream], by simp [hstream]⟩
      refine ⟨⟨[], []⟩,
        by simp [Rio.stream, delivered], by simp [Rio.Fails] at hin ⊢; exact hin, ?_⟩
      rw [(readlineLoop_nil hstream left stored).1 hin, nextLine_nil, List.append_nil]
    | cons c rest =>
      obtain ⟨rp', hstream', hfails, hloop⟩ := readlineLoop_cons hstream left stored
      rw [hstream] at hfits
      by_cases hc : c = 10
      · subst hc
        rw [nextLine_newline] at hfits ⊢
        rw [List.length_singleton] at hfits
        refine ⟨rp', by simpa using hstream', hfails, ?_⟩
        rw [hloop, if_neg (by omega), if_pos rfl, if_neg (by simp), List.length_append,
          List.length_singleton, Nat.cast_add, Nat.cast_one]
      · rw [nextLine_cons left rest hc] at hfits ⊢
        rw [List.length_cons] at hfits
        have hcut' : ¬rp'.CutOff left := by
          rintro ⟨hin, hshort, hno⟩
          rw [hstream'] at hshort hno
          refine hcut ⟨hfails.mp hin, ?_, ?_⟩
          · rw [hstream, nextLine_cons left rest hc, List.length_cons]
            omega
          · rw [hstream, nextLine_cons left rest hc]
            simp [Ne.symm hc, hno]
        have hlength : (stored ++ [c]).length = stored.length + 1 := List.length_append
        obtain ⟨rp'', hstream'', hfails', hrest⟩ := @ih (stored ++ [c]) rp' hcut'
          (by rw [hstream']; omega) (by omega)
        refine ⟨rp'', ?_, hfails'.trans hfails, ?_⟩
        · rw [hstream'', hstream', List.length_cons, List.drop_succ_cons]
        · rw [hloop, if_neg (by omega), if_neg hc, hrest, hstream', List.append_assoc,
            List.singleton_append]

/-- The loop stores what there is before the failure, and no NUL. -/
theorem readlineLoop_cutOff (left : ℕ) : ∀ {stored : List UInt8} {rp : Rio}, rp.CutOff left →
    stored.length + (nextLine left rp.stream).length < 2 ^ 31 →
    ∃ rp', readlineLoop left stored rp = some ⟨-1, stored ++ nextLine left rp.stream, rp'⟩ := by
  induction left with
  | zero => exact fun hcut _ ↦ absurd hcut.2.1 (Nat.not_lt_zero _)
  | succ left ih =>
    intro stored rp hcut hfits
    obtain ⟨hin, hshort, hno⟩ := hcut
    cases hstream : rp.stream with
    | nil =>
      obtain ⟨rp', hrun⟩ := (readlineLoop_nil hstream left stored).2 hin
      exact ⟨rp', by rw [hrun, nextLine_nil, List.append_nil]⟩
    | cons c rest =>
      obtain ⟨rp', hstream', hfails, hloop⟩ := readlineLoop_cons hstream left stored
      rw [hstream] at hfits hshort hno
      have hc : c ≠ 10 := by
        rintro rfl
        rw [nextLine_newline] at hno
        exact hno (List.mem_singleton_self 10)
      rw [nextLine_cons left rest hc] at hfits hshort hno ⊢
      rw [List.length_cons] at hfits hshort
      have hcut' : rp'.CutOff left := by
        refine ⟨hfails.mpr hin, ?_, ?_⟩
        · rw [hstream']
          omega
        · rw [hstream']
          exact fun h ↦ hno (List.mem_cons_of_mem c h)
      have hlength : (stored ++ [c]).length = stored.length + 1 := List.length_append
      obtain ⟨rp'', hrest⟩ := @ih (stored ++ [c]) rp' hcut' (by rw [hstream']; omega)
      refine ⟨rp'', ?_⟩
      rw [hloop, if_neg (by omega), if_neg hc, hrest, hstream', List.append_assoc,
        List.singleton_append]

/-- A line of `2^31` bytes overflows the counter. -/
theorem readlineLoop_overflow (left : ℕ) : ∀ {stored : List UInt8} {rp : Rio},
    stored.length < 2 ^ 31 → 2 ^ 31 ≤ stored.length + (nextLine left rp.stream).length →
    readlineLoop left stored rp = none := by
  induction left with
  | zero =>
    intro stored rp hlt hlong
    rw [nextLine_zero, List.length_nil] at hlong
    omega
  | succ left ih =>
    intro stored rp hlt hlong
    cases hstream : rp.stream with
    | nil =>
      rw [hstream, nextLine_nil, List.length_nil] at hlong
      omega
    | cons c rest =>
      obtain ⟨rp', hstream', -, hloop⟩ := readlineLoop_cons hstream left stored
      rw [hloop]
      by_cases hfull : stored.length + 1 = 2 ^ 31
      · rw [if_pos hfull]
      rw [hstream] at hlong
      have hc : c ≠ 10 := by
        rintro rfl
        rw [nextLine_newline, List.length_singleton] at hlong
        omega
      rw [nextLine_cons left rest hc, List.length_cons] at hlong
      rw [if_neg hfull, if_neg hc]
      apply ih
      · rw [List.length_append, List.length_singleton]
        omega
      · rw [hstream', List.length_append, List.length_singleton]
        omega

/-- `rio_readlineb` delivers the next line, however it comes, and a NUL; nothing at the end of the
file. -/
theorem rioReadlineb_run (hmax : 0 < maxlen) (hcut : ¬rp.CutOff maxlen)
    (hfits : (nextLine maxlen rp.stream).length < 2 ^ 31) :
    ∃ rp', rp'.stream = rp.stream.drop (nextLine maxlen rp.stream).length ∧ (rp'.Fails ↔ rp.Fails) ∧
      rioReadlineb rp maxlen = some (if rp.stream = [] then ⟨0, [], rp'⟩
        else ⟨(nextLine maxlen rp.stream).length, nextLine maxlen rp.stream ++ [0], rp'⟩) := by
  obtain ⟨rp', hstream, hfails, hrun⟩ := @readlineLoop_run maxlen [] rp hcut
    (by rw [List.length_nil]; omega) (by omega)
  refine ⟨rp', hstream, hfails, ?_⟩
  rw [rioReadlineb, hrun, List.nil_append]
  simp only [nextLine_eq_nil_iff hmax]

/-! ### The bounds of the buffer -/

/-- What is written stays within `maxlen` bytes, and a positive return value is the number of bytes
of the stream that are stored before a NUL. -/
def LineRead.Respects (r : LineRead) (maxlen : ℕ) (stream : List UInt8) : Prop :=
  r.written.length ≤ maxlen ∧
    (0 < r.ret → ∃ line, line <+: stream ∧ (line.length : ℤ) = r.ret ∧ r.written = line ++ [0])

/-- Assumes: the buffer has at least one byte. For every stream and every splitting of it,
`rio_readlineb` stays within its buffer and delivers the next bytes and a NUL exactly if the next
line, through its newline or to the end, is shorter than the buffer and than `2^31` bytes. -/
theorem rioReadlineb_in_bounds_iff (rp : Rio) (hmax : 1 ≤ maxlen) :
    (∃ r, rioReadlineb rp maxlen = some r ∧ r.Respects maxlen rp.stream) ↔
      (throughNewline rp.stream).length < maxlen ∧ (throughNewline rp.stream).length < 2 ^ 31 := by
  have hcutLength : (nextLine maxlen rp.stream).length = min maxlen
      (throughNewline rp.stream).length :=
    List.length_take
  by_cases hfits : (nextLine maxlen rp.stream).length < 2 ^ 31
  swap
  · have hnone := @readlineLoop_overflow maxlen [] rp (by decide) (by rw [List.length_nil]; omega)
    refine iff_of_false (fun ⟨r, hrun, _⟩ ↦ ?_) (fun h ↦ by omega)
    rw [rioReadlineb, hnone] at hrun
    cases hrun
  by_cases hcut : rp.CutOff maxlen
  · obtain ⟨rp', hrun⟩ := @readlineLoop_cutOff maxlen [] rp hcut (by rw [List.length_nil]; omega)
    have hshort := hcut.2.1
    refine iff_of_true ⟨_, hrun, ?_, fun hpos ↦ absurd hpos (by simp)⟩ (by omega)
    rw [List.nil_append]
    exact hshort.le
  · obtain ⟨rp', -, -, hrun⟩ := rioReadlineb_run hmax hcut hfits
    by_cases hempty : rp.stream = []
    · rw [if_pos hempty] at hrun
      refine iff_of_true ⟨_, hrun, Nat.zero_le _, fun hpos ↦ absurd hpos (lt_irrefl 0)⟩ ?_
      rw [hempty]
      exact ⟨hmax, by decide⟩
    rw [if_neg hempty] at hrun
    have hwritten : (nextLine maxlen rp.stream ++ [0]).length = (nextLine maxlen rp.stream).length +
        1 :=
      List.length_append
    constructor
    · rintro ⟨r, hr, hbound, -⟩
      rw [hrun, Option.some.injEq] at hr
      subst hr
      rw [hwritten] at hbound
      omega
    · rintro ⟨hlt, -⟩
      exact ⟨_, hrun, by rw [hwritten]; omega, fun _ ↦ ⟨_, nextLine_isPrefix _ _, rfl, rfl⟩⟩

end Read

/-- A stream that `read` returns in one piece. -/
def oneChunk (bytes : List UInt8) (ne_nil : bytes ≠ []) (fits : bytes.length ≤ rioBufSize) : Rio :=
  rioInit [.data ⟨bytes, ne_nil, fits⟩]

/-- A line of one byte, read into two bytes. -/
theorem rioReadlineb_in_bounds_of_two :
    ∃ r, rioReadlineb (oneChunk [97] (by decide) (by decide)) 2 = some r ∧
      r.Respects 2 (oneChunk [97] (by decide) (by decide)).stream :=
  (rioReadlineb_in_bounds_iff _ (by decide)).mpr (by decide)

/-- A line that does not end. -/
theorem throughNewline_replicate {c : UInt8} (hc : c ≠ 10) (k : ℕ) :
    throughNewline (List.replicate k c) = List.replicate k c := by
  induction k with
  | zero => rfl
  | succ k ih => rw [List.replicate_succ, throughNewline, if_neg hc, ih]

/-- Of a line of `MAXLINE` bytes, read into a buffer of `MAXLINE` bytes, all are stored, and the NUL
is written behind the buffer. -/
theorem rioReadlineb_out_of_bounds : ¬∀ (rp : Rio) (maxlen : ℕ), 1 ≤ maxlen →
    ∃ r, rioReadlineb rp maxlen = some r ∧ r.Respects maxlen rp.stream := by
  intro h
  obtain ⟨bytes, hbytes⟩ : ∃ bytes, bytes = List.replicate maxLine (97 : UInt8) := ⟨_, rfl⟩
  have hlength : bytes.length = maxLine := by rw [hbytes, List.length_replicate]
  have hne : bytes ≠ [] := List.ne_nil_of_length_pos (by rw [hlength]; decide)
  have hstream : (oneChunk bytes hne hlength.le).stream = bytes := List.append_nil bytes
  have hline : nextLine maxLine bytes = bytes := by
    rw [nextLine, hbytes, throughNewline_replicate (by decide), List.take_replicate, Nat.min_self]
  have hcut : ¬(oneChunk bytes hne hlength.le).CutOff maxLine := by
    rintro ⟨-, hshort, -⟩
    rw [hstream, hline, hlength] at hshort
    exact lt_irrefl _ hshort
  obtain ⟨rp', -, -, hrun⟩ := rioReadlineb_run (by decide) hcut
    (by rw [hstream, hline, hlength]; decide)
  rw [hstream, if_neg hne, hline] at hrun
  obtain ⟨r, hr, hbound, -⟩ := h _ maxLine (by decide)
  rw [hrun, Option.some.injEq] at hr
  rw [← hr, List.length_append, hlength, List.length_singleton] at hbound
  omega

end OperatingSystems.Webserver
