import OperatingSystems.Webserver.Rio

/-!
# Buffered reading does not depend on the chunks

`rioReadlines` makes one call of `rio_readlineb` after the other. `streamLines` cuts a stream into
the lines these calls should deliver, from the stream and the bounds `maxlen` alone. Whatever pieces
`read` returns the stream in and however often it is interrupted, the calls deliver these lines
(`rioReadlines_run`), as long as none of them has `2^31` bytes: `rio_readlineb` counts in an `int`.
Where every line is shorter than the bound (`LinesFit`), the NUL behind it has room.
-/

set_option autoImplicit false
set_option relaxedAutoImplicit false

namespace OperatingSystems.Webserver

/-- Calls of `rio_readlineb` with these bounds, one after the other: what each returns, and the
bytes it has written to `usrbuf`. -/
def rioReadlines : Rio → List ℕ → Option (List (ℤ × List UInt8))
  | _, [] => some []
  | rp, maxlen :: rest => do
    let r ← rioReadlineb rp maxlen
    let results ← rioReadlines r.rp rest
    some ((r.ret, r.written) :: results)

/-- The lines of a stream for calls with these bounds. -/
def streamLines : List ℕ → List UInt8 → List (List UInt8)
  | [], _ => []
  | maxlen :: rest, stream =>
    nextLine maxlen stream :: streamLines rest (stream.drop (nextLine maxlen stream).length)

/-- What a call that delivers the line returns and writes: its length, the line and a NUL; 0 and
nothing at the end of the stream. -/
def delivery (line : List UInt8) : ℤ × List UInt8 :=
  (line.length, if line = [] then [] else line ++ [0])

variable {rp : Rio} {maxlens : List ℕ} {stream : List UInt8}

/-- Assumes: `read` fails by interruption only. The calls deliver the lines of the stream, up to the
first that is too long for the counter. -/
theorem rioReadlines_run (hmax : ∀ maxlen ∈ maxlens, 1 ≤ maxlen) (hrp : ¬rp.Fails) :
    rioReadlines rp maxlens =
      if ∀ line ∈ streamLines maxlens rp.stream, line.length < 2 ^ 31 then
        some ((streamLines maxlens rp.stream).map delivery)
      else none := by
  induction maxlens generalizing rp with
  | nil => simp [rioReadlines, streamLines]
  | cons maxlen rest ih =>
    have hpos := hmax maxlen List.mem_cons_self
    by_cases hfits : (nextLine maxlen rp.stream).length < 2 ^ 31
    swap
    · have hnone : rioReadlineb rp maxlen = none :=
        readlineLoop_overflow maxlen (by decide) (by rw [List.length_nil]; omega)
      rw [rioReadlines, hnone, streamLines, if_neg fun hall ↦ hfits (hall _ List.mem_cons_self)]
      rfl
    obtain ⟨rp', hstream, hfails, hrun⟩ := rioReadlineb_run hpos (fun hcut ↦ hrp hcut.1) hfits
    have hcall : ∃ r, rioReadlineb rp maxlen = some r ∧ r.rp = rp' ∧
        (r.ret, r.written) = delivery (nextLine maxlen rp.stream) := by
      refine ⟨_, hrun, ?_⟩
      by_cases hempty : rp.stream = []
      · simp [hempty, delivery]
      · have hline : nextLine maxlen rp.stream ≠ [] := (nextLine_eq_nil_iff hpos).not.mpr hempty
        simp [hempty, delivery, hline]
    obtain ⟨r, hr, hrp', hdelivery⟩ := hcall
    have hrp'' : ¬rp'.Fails := hfails.not.mpr hrp
    have hrest := ih (fun m hm ↦ hmax m (List.mem_cons_of_mem _ hm)) hrp''
    rw [hstream] at hrest
    simp only [rioReadlines, hr, hrp', hrest, hdelivery, streamLines, List.forall_mem_cons, hfits,
      true_and, Option.bind_eq_bind, Option.bind_some]
    split_ifs
    · rw [Option.bind_some, List.map_cons]
    · rfl

/-- The lines up to the one at the end of the stream are the stream. -/
theorem flatten_streamLines (hmax : ∀ maxlen ∈ maxlens, 1 ≤ maxlen)
    (hend : [] ∈ streamLines maxlens stream) : (streamLines maxlens stream).flatten = stream := by
  induction maxlens generalizing stream with
  | nil => cases hend
  | cons maxlen rest ih =>
    have hrest : ∀ m ∈ rest, 1 ≤ m := fun m hm ↦ hmax m (List.mem_cons_of_mem _ hm)
    rw [streamLines, List.flatten_cons]
    by_cases hempty : stream = []
    · subst hempty
      have hnil : ∀ ms, (streamLines ms []).flatten = [] := by
        intro ms
        induction ms with
        | nil => rfl
        | cons m ms ih => rw [streamLines, List.flatten_cons, nextLine_nil, List.length_nil,
            List.drop_zero, ih, List.append_nil]
      rw [nextLine_nil, List.length_nil, List.drop_zero, hnil, List.append_nil]
    · rw [streamLines, List.mem_cons] at hend
      have hline : nextLine maxlen stream ≠ [] :=
        (nextLine_eq_nil_iff (hmax maxlen List.mem_cons_self)).not.mpr hempty
      rw [ih hrest (hend.resolve_left hline.symm)]
      nth_rewrite 1 [nextLine_eq_take maxlen stream]
      rw [List.take_append_drop]

/-- The bytes of a line in the buffer are as many as the call has returned. -/
theorem take_delivery (line : List UInt8) :
    (delivery line).2.take (delivery line).1.toNat = line := by
  rw [delivery, Int.toNat_natCast]
  split_ifs with hline
  · simp [hline]
  · exact List.take_left

/-- Assumes: `read` fails by interruption only, and each call has room for one byte. What the calls
return and write is the same for every way in which `read` splits the stream; it is the lines of the
stream exactly if each of these has fewer than `2^31` bytes; and if a call has returned 0, all of
them together have delivered the stream. -/
theorem rioReadlines_delivers_iff (hmax : ∀ maxlen ∈ maxlens, 1 ≤ maxlen) (hrp : ¬rp.Fails) :
    (∀ rp' : Rio, ¬rp'.Fails → rp'.stream = rp.stream →
      rioReadlines rp' maxlens = rioReadlines rp maxlens) ∧
    (rioReadlines rp maxlens = some ((streamLines maxlens rp.stream).map delivery) ↔
      ∀ line ∈ streamLines maxlens rp.stream, line.length < 2 ^ 31) ∧
    ∀ results, rioReadlines rp maxlens = some results → (∃ result ∈ results, result.1 = 0) →
      (results.flatMap fun result ↦ result.2.take result.1.toNat) = rp.stream := by
  refine ⟨fun rp' hrp' hstream ↦ ?_, ?_, fun results hresults ⟨result, hmem, hzero⟩ ↦ ?_⟩
  · rw [rioReadlines_run hmax hrp', rioReadlines_run hmax hrp, hstream]
  · rw [rioReadlines_run hmax hrp, Option.ite_none_right_eq_some, and_iff_left rfl]
  · rw [rioReadlines_run hmax hrp, Option.ite_none_right_eq_some, Option.some.injEq] at hresults
    obtain ⟨-, rfl⟩ := hresults
    obtain ⟨line, hline, rfl⟩ := List.mem_map.mp hmem
    have hnil : line = [] := List.length_eq_zero_iff.mp (Int.natCast_eq_zero.mp hzero)
    simp only [List.flatMap_map, take_delivery, List.flatMap_id']
    exact flatten_streamLines hmax (hnil ▸ hline)

/-- Two lines in one chunk, read with the bounds 3, 1, 1 and 5. -/
theorem rioReadlines_delivers_iff_twoLines :
    rioReadlines (oneChunk [97, 10, 98, 99] (by decide) (by decide)) [3, 1, 1, 5] =
      some [(2, [97, 10, 0]), (1, [98, 0]), (1, [99, 0]), (0, [])] :=
  (rioReadlines_delivers_iff (by decide) (by simp [oneChunk, rioInit, Rio.Fails])).2.1.mpr
    (by decide)

/-- A line of `2^31` bytes, read with this bound, overflows the counter. -/
theorem rioReadlines_overflows : ¬∀ (rp : Rio) (maxlens : List ℕ),
    (∀ maxlen ∈ maxlens, 1 ≤ maxlen) → ¬rp.Fails →
      rioReadlines rp maxlens = some ((streamLines maxlens rp.stream).map delivery) := by
  intro h
  obtain ⟨bytes, hbytes⟩ : ∃ bytes, bytes = List.replicate rioBufSize (97 : UInt8) := ⟨_, rfl⟩
  have hlength : bytes.length = rioBufSize := by rw [hbytes, List.length_replicate]
  have hne : bytes ≠ [] := List.ne_nil_of_length_pos (by rw [hlength]; decide)
  have hdelivered : ∀ k, delivered (List.replicate k (.data ⟨bytes, hne, hlength.le⟩)) =
      List.replicate (k * rioBufSize) 97 := by
    intro k
    induction k with
    | zero => simp [delivered]
    | succ k ih =>
      rw [List.replicate_succ, delivered, ih]
      dsimp only
      rw [hbytes, List.replicate_append_replicate, Nat.add_comm, Nat.add_mul, Nat.one_mul]
  obtain ⟨rp, hrp⟩ : ∃ rp, rp = rioInit (List.replicate (2 ^ 18)
    (.data ⟨bytes, hne, hlength.le⟩)) := ⟨_, rfl⟩
  have hstream : rp.stream = List.replicate (2 ^ 31) 97 := by
    rw [Rio.stream, hrp, rioInit, hdelivered, List.nil_append,
      show 2 ^ 18 * rioBufSize = 2 ^ 31 from rfl]
  have hfails : ¬rp.Fails := by
    rw [Rio.Fails, hrp, rioInit, List.mem_replicate]
    rintro ⟨-, hfailed⟩
    cases hfailed
  have hmax : ∀ maxlen ∈ [2 ^ 31], 1 ≤ maxlen := by simp
  have hline : (nextLine (2 ^ 31) rp.stream).length = 2 ^ 31 := by
    rw [hstream, nextLine, throughNewline_replicate (by decide), List.take_replicate, Nat.min_self,
      List.length_replicate]
  have hrun := h rp [2 ^ 31] hmax hfails
  rw [rioReadlines_run hmax hfails, Option.ite_none_right_eq_some] at hrun
  have hfits := hrun.1 (nextLine (2 ^ 31) rp.stream) List.mem_cons_self
  rw [hline] at hfits
  exact lt_irrefl _ hfits

/-! ### The NUL behind a line -/

/-- No line of the stream is as long as the bound, its newline counted, so that there is room for
the NUL behind it. -/
def LinesFit (maxlen : ℕ) (stream : List UInt8) : Prop :=
  ∀ bytes c, bytes ++ [c] <:+: stream → 10 ∉ bytes → bytes.length + 1 < maxlen

section LinesFit

variable {maxlen : ℕ} {str rest piece stream : List UInt8}

/-- A stream without room for a line and its NUL in the bound. -/
theorem linesFit_of_length_lt (h : stream.length < maxlen) : LinesFit maxlen stream := by
  intro bytes c hpiece _
  have hle := hpiece.length_le
  rw [List.length_append, List.length_singleton] at hle
  omega

/-- A part of a stream has only parts of its lines. -/
theorem LinesFit.of_isInfix (h : LinesFit maxlen stream) (hpiece : piece <:+: stream) :
    LinesFit maxlen piece :=
  fun bytes c hbytes ↦ h bytes c (hbytes.trans hpiece)

/-- What comes before a newline and one more byte is no longer than the text before the newline. -/
theorem length_le_of_prefix_line {bytes : List UInt8} (hpre : bytes <+: str ++ 10 :: rest)
    (hno : 10 ∉ bytes) : bytes.length ≤ str.length := by
  by_contra hlong
  have hline : str ++ [10] <+: str ++ 10 :: rest :=
    (List.prefix_append_right_inj str).mpr (List.cons_prefix_cons.mpr ⟨rfl, List.nil_prefix⟩)
  have hin : str ++ [10] <+: bytes :=
    List.prefix_of_prefix_length_le hline hpre (by
      rw [List.length_append, List.length_singleton]
      omega)
  exact hno (hin.subset (List.mem_append_right str List.mem_cons_self))

/-- A line in front that is short enough. -/
theorem LinesFit.append_line (hrest : LinesFit maxlen rest) (hfit : str.length + 1 < maxlen) :
    LinesFit maxlen (str ++ 10 :: rest) := by
  intro bytes c hpiece hno
  induction str with
  | nil =>
    rcases List.infix_cons_iff.mp hpiece with hpre | hin
    · have hle := @length_le_of_prefix_line [] rest bytes
        ((List.prefix_append bytes [c]).trans hpre) hno
      omega
    · exact hrest bytes c hin hno
  | cons d str ih =>
    rw [List.cons_append] at hpiece
    rcases List.infix_cons_iff.mp hpiece with hpre | hin
    · have hle := @length_le_of_prefix_line (d :: str) rest bytes
        ((List.prefix_append bytes [c]).trans hpre) hno
      omega
    · rw [List.length_cons] at hfit
      exact ih (by omega) hin

/-- Before its last byte, a line has no newline. -/
theorem not_mem_of_append_isPrefix {bytes : List UInt8} {c : UInt8} :
    ∀ {stream : List UInt8}, bytes ++ [c] <+: throughNewline stream → 10 ∉ bytes := by
  intro stream
  induction stream generalizing bytes with
  | nil =>
    intro h
    rw [throughNewline, List.prefix_nil] at h
    exact absurd h (by simp)
  | cons d rest ih =>
    intro h
    cases bytes with
    | nil => exact List.not_mem_nil
    | cons b bytes =>
      rw [throughNewline] at h
      split_ifs at h with hd
      · have htail := (List.cons_prefix_cons.mp h).2
        rw [List.prefix_nil] at htail
        exact absurd htail (by simp)
      · obtain ⟨rfl, htail⟩ := List.cons_prefix_cons.mp h
        rw [List.mem_cons, not_or]
        exact ⟨Ne.symm hd, ih htail⟩

/-- The next line leaves room for the NUL. -/
theorem LinesFit.nextLine_lt (h : LinesFit maxlen stream) (hpos : 0 < maxlen) :
    (nextLine maxlen stream).length < maxlen := by
  rcases List.eq_nil_or_concat' (nextLine maxlen stream) with hnil | ⟨bytes, c, hline⟩
  · rw [hnil]
    exact hpos
  · have hpre : bytes ++ [c] <+: throughNewline stream := by
      rw [← hline]
      exact List.take_prefix _ _
    have hlt := h bytes c (hline ▸ (nextLine_isPrefix maxlen stream).isInfix)
      (not_mem_of_append_isPrefix hpre)
    rw [hline, List.length_append, List.length_singleton]
    exact hlt

/-- None of the lines is cut. -/
theorem LinesFit.streamLines_lt (hpos : 0 < maxlen) : ∀ (calls : ℕ) {stream : List UInt8},
    LinesFit maxlen stream → ∀ line ∈ streamLines (List.replicate calls maxlen) stream,
      line.length < maxlen := by
  intro calls
  induction calls with
  | zero => exact fun _ line hline ↦ absurd hline List.not_mem_nil
  | succ calls ih =>
    intro stream h line hline
    rw [List.replicate_succ, streamLines, List.mem_cons] at hline
    rcases hline with rfl | hrest
    · exact h.nextLine_lt hpos
    · exact ih (h.of_isInfix (List.drop_suffix _ stream).isInfix) line hrest

/-- Assumes: `read` fails by interruption only. However many calls with this bound are made, none
writes behind an array of as many bytes. -/
theorem LinesFit.written_le {rp : Rio} (h : LinesFit maxlen rp.stream) (hpos : 0 < maxlen)
    (hrp : ¬rp.Fails) {calls : ℕ} {results : List (ℤ × List UInt8)}
    (hresults : rioReadlines rp (List.replicate calls maxlen) = some results) :
    ∀ result ∈ results, result.2.length ≤ maxlen := by
  rw [rioReadlines_run (fun m hm ↦ by rw [List.eq_of_mem_replicate hm]; exact hpos) hrp,
    Option.ite_none_right_eq_some, Option.some.injEq] at hresults
  obtain ⟨-, rfl⟩ := hresults
  intro result hresult
  obtain ⟨line, hline, rfl⟩ := List.mem_map.mp hresult
  have hlt := h.streamLines_lt hpos calls line hline
  rw [delivery]
  split_ifs with hnil
  · exact Nat.zero_le _
  · rw [List.length_append, List.length_singleton]
    omega

end LinesFit

end OperatingSystems.Webserver
