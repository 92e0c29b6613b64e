import OperatingSystems.Webserver.Rio

/-!
# Skipping the headers of a request

`request_read_headers` reads lines until its buffer holds an empty one. It looks at the buffer and
not at what `Rio_readlineb` returns, which at the end of the file returns 0 and leaves the buffer as
it is; so once the stream has ended without an empty line the loop goes on for ever.

`HasBlankLine` says that one of the lines into which `rio_readlineb` cuts a stream is empty.

The array `buf` is a map from all numbers, but the source's has `MAXLINE` bytes. A piece of
`MAXLINE` bytes or more without a newline makes `rio_readlineb` write its NUL behind it; what the
program does after that is not described here.
-/

set_option autoImplicit false
set_option relaxedAutoImplicit false

namespace OperatingSystems.Webserver

/-! ### The loop -/

/-- An array after bytes were written to it, one after the other from its start on. -/
def overwrite (buf : ℕ → UInt8) (written : List UInt8) (k : ℕ) : UInt8 := written.getD k (buf k)

/-- `strcmp(buf, "\r\n") == 0`. -/
def isBlank (buf : ℕ → UInt8) : Bool := buf 0 == 13 && buf 1 == 10 && buf 2 == 0

/-- How a function that reads with `Rio_readlineb` ends. -/
inductive ReadEnd
  /-- It returns. -/
  | returned (rp : Rio)
  /-- Reading failed, and the process exits. -/
  | exited
  /-- The counter of `rio_readlineb` overflowed. -/
  | undefined

/-- `request_read_headers`, if it ends with at most `calls` calls of `Rio_readlineb`. -/
def requestReadHeaders : ℕ → (ℕ → UInt8) → Rio → Option ReadEnd
  | 0, _, _ => none
  | calls + 1, buf, rp =>
    match rioReadlineb rp maxLine with
    | none => some .undefined
    | some r =>
      if r.ret < 0 then some .exited
      else
        let buf := overwrite buf r.written
        if isBlank buf then some (.returned r.rp) else requestReadHeaders calls buf r.rp

/-! ### Empty lines -/

/-- One of the lines into which a stream is cut is empty. -/
inductive HasBlankLine (maxlen : ℕ) : List UInt8 → Prop
  | here (rest : List UInt8) : HasBlankLine maxlen (13 :: 10 :: rest)
  | later {stream : List UInt8} (hne : stream ≠ [])
      (h : HasBlankLine maxlen (stream.drop (nextLine maxlen stream).length)) :
      HasBlankLine maxlen stream

theorem not_hasBlankLine_nil (maxlen : ℕ) : ¬HasBlankLine maxlen [] := by
  rintro (_ | ⟨hne, -⟩)
  exact hne rfl

/-- The next line is empty if the stream starts with a line end. -/
theorem nextLine_blank (rest : List UInt8) : nextLine maxLine (13 :: 10 :: rest) = [13, 10] := by
  rw [nextLine_cons _ _ (by decide), nextLine_newline]

/-- A buffer that was filled with a line holds an empty line exactly if that line is empty. -/
theorem isBlank_overwrite_iff {stream : List UInt8} (hne : stream ≠ []) (buf : ℕ → UInt8) :
    isBlank (overwrite buf (nextLine maxLine stream ++ [0])) = true ↔
      nextLine maxLine stream = [13, 10] := by
  have hmax : maxLine = 8191 + 1 := rfl
  cases stream with
  | nil => exact absurd rfl hne
  | cons c rest =>
    rw [hmax]
    by_cases hc : c = 10
    · rw [hc, nextLine_newline]
      simp [isBlank, overwrite]
    rw [nextLine_cons _ _ hc]
    cases rest with
    | nil => simp [isBlank, overwrite]
    | cons d rest =>
      by_cases hd : d = 10
      · rw [hd, nextLine_newline]
        simp [isBlank, overwrite]
      · rw [nextLine_cons _ _ hd]
        simp [isBlank, overwrite, hd]

/-! ### When the loop ends -/

section Ends

variable {rp : Rio} {buf : ℕ → UInt8}

/-- One call of `Rio_readlineb` in the loop, before the end of the stream. -/
theorem requestReadHeaders_line (hfails : ¬rp.Fails) (hne : rp.stream ≠ []) (buf : ℕ → UInt8) :
    ∃ rp', rp'.stream = rp.stream.drop (nextLine maxLine rp.stream).length ∧ ¬rp'.Fails ∧
      ∀ calls, requestReadHeaders (calls + 1) buf rp =
        if nextLine maxLine rp.stream = [13, 10] then some (.returned rp')
        else requestReadHeaders calls (overwrite buf (nextLine maxLine rp.stream ++ [0])) rp' := by
  have hle := length_nextLine_le maxLine rp.stream
  obtain ⟨rp', hstream, hfails', hrun⟩ := rioReadlineb_run (by decide : 0 < maxLine)
    (fun hcut ↦ hfails hcut.1) (lt_of_le_of_lt hle (by decide))
  rw [if_neg hne] at hrun
  refine ⟨rp', hstream, fun h ↦ hfails (hfails'.mp h), fun calls ↦ ?_⟩
  rw [requestReadHeaders, hrun]
  simp only [isBlank_overwrite_iff hne]
  rw [if_neg (not_lt.mpr (Int.natCast_nonneg _))]

/-- One call of `Rio_readlineb` in the loop, at the end of the stream. -/
theorem requestReadHeaders_eof (hfails : ¬rp.Fails) (hnil : rp.stream = []) (buf : ℕ → UInt8) :
    ∃ rp', rp'.stream = [] ∧ ¬rp'.Fails ∧ ∀ calls, requestReadHeaders (calls + 1) buf rp =
      if isBlank buf then some (.returned rp') else requestReadHeaders calls buf rp' := by
  obtain ⟨rp', hstream, hfails', hrun⟩ := rioReadlineb_run (by decide : 0 < maxLine)
    (fun hcut ↦ hfails hcut.1) (by rw [hnil, nextLine_nil]; decide)
  rw [if_pos hnil] at hrun
  refine ⟨rp', by rw [hstream, hnil, List.drop_nil], fun h ↦ hfails (hfails'.mp h), fun calls ↦ ?_⟩
  rw [requestReadHeaders, hrun]
  rfl

/-- At the end of the stream the loop never finds an empty line that is not there yet. -/
theorem requestReadHeaders_stuck (calls : ℕ) : ∀ {rp : Rio}, ¬rp.Fails → rp.stream = [] →
    isBlank buf = false → requestReadHeaders calls buf rp = none := by
  induction calls with
  | zero => exact fun _ _ _ ↦ rfl
  | succ calls ih =>
    intro rp hfails hnil hbuf
    obtain ⟨rp', hstream, hfails', hstep⟩ := requestReadHeaders_eof hfails hnil buf
    rw [hstep, hbuf, if_neg Bool.false_ne_true]
    exact ih hfails' hstream hbuf

/-- An empty line ends the loop. -/
theorem HasBlankLine.requestReadHeaders_ends {stream : List UInt8}
    (h : HasBlankLine maxLine stream) :
    ∀ {rp : Rio} (buf : ℕ → UInt8), ¬rp.Fails → rp.stream = stream →
      ∃ calls rp', requestReadHeaders calls buf rp = some (.returned rp') := by
  induction h with
  | here rest =>
    intro rp buf hfails hrp
    obtain ⟨rp', -, -, hstep⟩ := requestReadHeaders_line hfails (by simp [hrp]) buf
    exact ⟨1, rp', by rw [hstep, if_pos (by rw [hrp, nextLine_blank])]⟩
  | later hne hlater ih =>
    intro rp buf hfails hrp
    obtain ⟨rp', hstream, hfails', hstep⟩ := requestReadHeaders_line hfails (hrp ▸ hne) buf
    by_cases hblank : nextLine maxLine rp.stream = [13, 10]
    · exact ⟨1, rp', by rw [hstep, if_pos hblank]⟩
    · obtain ⟨calls, rp'', hends⟩ := ih (overwrite buf (nextLine maxLine rp.stream ++ [0])) hfails'
        (by rw [hstream, hrp])
      exact ⟨calls + 1, rp'', by rw [hstep, if_neg hblank, hends]⟩

/-- The loop ends only with an empty line. -/
theorem hasBlankLine_of_ends (calls : ℕ) : ∀ {rp rp' : Rio} {buf : ℕ → UInt8}, ¬rp.Fails →
    requestReadHeaders calls buf rp = some (.returned rp') →
    HasBlankLine maxLine rp.stream ∨ rp.stream = [] ∧ isBlank buf = true := by
  induction calls with
  | zero =>
    intro rp rp' buf _ h
    cases h
  | succ calls ih =>
    intro rp rp' buf hfails h
    by_cases hnil : rp.stream = []
    · right
      refine ⟨hnil, ?_⟩
      by_contra hbuf
      rw [requestReadHeaders_stuck _ hfails hnil (by simpa using hbuf)] at h
      cases h
    left
    obtain ⟨rp₁, hstream, hfails', hstep⟩ := requestReadHeaders_line hfails hnil buf
    by_cases hblank : nextLine maxLine rp.stream = [13, 10]
    · obtain ⟨rest, hrest⟩ := nextLine_isPrefix maxLine rp.stream
      rw [← hrest, hblank]
      exact .here rest
    rw [hstep, if_neg hblank] at h
    rcases ih hfails' h with hlater | ⟨-, hbuf⟩
    · exact .later hnil (hstream ▸ hlater)
    · exact absurd ((isBlank_overwrite_iff hnil buf).mp hbuf) hblank

/-- Assumes: reading does not fail. Whatever the array holds at first, `request_read_headers`
returns after finitely many calls exactly if one of the lines of the stream is empty, or the stream
is at its end and what the array happens to hold is an empty line. -/
theorem requestReadHeaders_ends_iff (rp : Rio) (hfails : ¬rp.Fails) (buf : ℕ → UInt8) :
    (∃ calls rp', requestReadHeaders calls buf rp = some (.returned rp')) ↔
      HasBlankLine maxLine rp.stream ∨ rp.stream = [] ∧ isBlank buf = true := by
  constructor
  · rintro ⟨calls, rp', h⟩
    exact hasBlankLine_of_ends calls hfails h
  · rintro (hblank | ⟨hnil, hbuf⟩)
    · exact hblank.requestReadHeaders_ends buf hfails rfl
    · obtain ⟨rp', -, -, hstep⟩ := requestReadHeaders_eof hfails hnil buf
      exact ⟨1, rp', by rw [hstep, if_pos hbuf]⟩

end Ends

/-- A header line and the empty line behind it. -/
def headerLines : Rio := oneChunk [97, 58, 13, 10, 13, 10] (by decide) (by decide)

/-- The loop goes on after the header line, and ends with the empty one. -/
theorem requestReadHeaders_ends_headerLines :
    (requestReadHeaders 1 (fun _ ↦ 0) headerLines).isNone = true ∧
    ∃ calls rp', requestReadHeaders calls (fun _ ↦ 0) headerLines = some (.returned rp') := by
  refine ⟨by decide +kernel, (requestReadHeaders_ends_iff headerLines ?_ fun _ ↦ 0).mpr (.inl ?_)⟩
  · simp [headerLines, oneChunk, rioInit, Rio.Fails]
  · have hrest :
        headerLines.stream.drop (nextLine maxLine headerLines.stream).length = [13, 10] := by
      decide
    exact .later (by decide) (hrest ▸ .here [])

/-- A header line after which the client closes its end. -/
def truncated : Rio := oneChunk [97, 58, 13, 10] (by decide) (by decide)

/-- After a header line and no empty one the loop never ends. -/
theorem requestReadHeaders_endless : ¬∀ rp : Rio, ¬rp.Fails → ∀ buf : ℕ → UInt8,
    ∃ calls rp', requestReadHeaders calls buf rp = some (.returned rp') := by
  intro h
  have hfails : ¬truncated.Fails := by simp [truncated, oneChunk, rioInit, Rio.Fails]
  obtain ⟨calls, rp', hends⟩ := h truncated hfails fun _ ↦ 0
  have hline : truncated.stream.drop (nextLine maxLine truncated.stream).length = [] := by decide
  rcases hasBlankLine_of_ends calls hfails hends with hblank | ⟨hnil, -⟩
  · cases hblank with
    | later hne hlater => exact not_hasBlankLine_nil _ (hline ▸ hlater)
  · exact absurd hnil (by decide)

end OperatingSystems.Webserver
