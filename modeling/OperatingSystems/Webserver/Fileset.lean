import OperatingSystems.Webserver.Exchange

/-!
# The file set of an experiment

`fileset.c` makes files and an index of them, with a line for each file: its name, the sum of its
bytes and their number. `init_fileset` of `client.c` reads the index, and the client asks for the
files and checks what it gets against it. How large the files are and what is in them is up to the
random numbers of `fileset.c`, so the contents are a parameter.

The client reads what was written (`initFileset_index`), and as long as the server finds the files
that were made, no assertion of the client fails (`fileset_verifies`).
-/

set_option autoImplicit false
set_option relaxedAutoImplicit false

namespace OperatingSystems.Webserver

open Library

/-! ### Writing the index -/

/-- `struct fileinfo`. -/
structure FileInfo where
  name : List UInt8
  csum : ℕ
  len : ℤ
  deriving DecidableEq

/-- `sprintf(name, "/%05d", nr_files)`. -/
def fileNumber (nrFiles : ℕ) : List UInt8 :=
  ascii "/" ++ List.replicate (5 - (digitBytes nrFiles).length) 48 ++ digitBytes nrFiles

/-- What the loop of `fileset.c` has about the file that it makes. -/
def fileInfo (dir : List UInt8) (nrFiles : ℕ) (contents : List UInt8) : FileInfo :=
  ⟨dir ++ fileNumber nrFiles, checksum contents, contents.length⟩

/-- `sprintf(idx_buf, "%s %u %d\n", filename, csum, file_sz)`. -/
def FileInfo.line (fi : FileInfo) : List UInt8 :=
  fi.name ++ ascii " " ++ ascii (toString fi.csum) ++ ascii " " ++ ascii (toString fi.len) ++
    ascii "\n"

/-- The loop of `fileset.c` over the files it makes, with `nr_files` and `idx_buffer`. There is no
result if the assertion on the length of the buffer fails. -/
def filesetLoop (dir : List UInt8) :
    ℕ → List UInt8 → List (List UInt8) → Option (ℕ × List UInt8)
  | nrFiles, idxBuffer, [] => some (nrFiles, idxBuffer)
  | nrFiles, idxBuffer, contents :: rest =>
    let idxBuf := (fileInfo dir nrFiles contents).line
    if idxBuffer.length + idxBuf.length < 4096 * 256 - 1 then
      filesetLoop dir (nrFiles + 1) (idxBuffer ++ idxBuf) rest
    else none

/-- The index that `fileset.c` writes for files with these contents. -/
def filesetIndex (dir : List UInt8) (files : List (List UInt8)) : Option (List UInt8) :=
  (filesetLoop dir 0 [] files).map fun (nrFiles, idxBuffer) ↦
    ascii (toString nrFiles) ++ ascii "\n" ++ idxBuffer

/-! ### Reading the index -/

/-- What follows the number that `scanInteger` reads. -/
def skipInteger (str : List UInt8) : List UInt8 :=
  let str := str.dropWhile isSpace
  let unsigned := if str.head? = some 45 ∨ str.head? = some 43 then str.tail else str
  unsigned.dropWhile isDigit

/-- `sscanf(buf, "%s %u %d", fi->name, &fi->csum, &fi->len)`, with what the memory holds before. -/
def scanFileInfo (fi : FileInfo) (str : List UInt8) : FileInfo :=
  match scanString str with
  | none => fi
  | some (name, rest) =>
    match scanInteger rest with
    | none => { fi with name := name }
    | some csum =>
      match scanInteger (skipInteger rest) with
      | none => { fi with name := name, csum := (csum % 2 ^ 32).toNat }
      | some len => ⟨name, (csum % 2 ^ 32).toNat, len.bmod (2 ^ 32)⟩

/-- `atoi`. -/
def atoi (str : List UInt8) : ℤ := ((scanInteger str).getD 0).bmod (2 ^ 32)

/-- How `init_fileset` ends. -/
inductive FilesetEnd
  /-- It returns, with these files. -/
  | loaded (fileset : List FileInfo)
  /-- An assertion fails. -/
  | assertion
  /-- Reading failed, and the process exits. -/
  | exited
  /-- The counter of `rio_readlineb` overflowed. -/
  | undefined
  deriving DecidableEq

/-- The loop of `init_fileset`, if it ends within so many turns, with `cl->nr_files` and the entries
of `cl->fileset` that are filled in. The memory of the others holds anything. -/
def initFilesetLoop (memory : ℕ → FileInfo) :
    ℕ → (ℕ → UInt8) → ℤ → List FileInfo → Rio → Option FilesetEnd
  | 0, _, _, _, _ => none
  | turns + 1, buf, nrFiles, fileset, rp =>
    match rioReadlineb rp maxLine with
    | none => some .undefined
    | some r =>
      if r.ret < 0 then some .exited
      else if r.ret = 0 then
        if 0 < nrFiles ∧ fileset.length = nrFiles then some (.loaded fileset) else some .assertion
      else
        let buf := overwrite buf r.written
        if nrFiles = 0 then
          if 0 < atoi (text buf) then
            initFilesetLoop memory turns buf (atoi (text buf)) fileset r.rp
          else some .assertion
        else if fileset.length < nrFiles then
          initFilesetLoop memory turns buf nrFiles
            (fileset ++ [scanFileInfo (memory fileset.length) (text buf)]) r.rp
        else some .assertion

/-- `init_fileset` on the index that a client is given. -/
def initFileset (memory : ℕ → FileInfo) (turns : ℕ) (buf : ℕ → UInt8) (input : List ReadResult) :
    Option FilesetEnd :=
  initFilesetLoop memory turns buf 0 [] (rioInit input)

/-! ### The lines of the index -/

/-- The files as the index has them. -/
def filesetInfos (dir : List UInt8) (nrFiles : ℕ) (files : List (List UInt8)) : List FileInfo :=
  files.mapIdx fun k contents ↦ fileInfo dir (nrFiles + k) contents

section Index

variable {dir idxBuffer contents : List UInt8} {files : List (List UInt8)} {nrFiles : ℕ}

theorem filesetInfos_cons (dir : List UInt8) (nrFiles : ℕ) (contents : List UInt8)
    (files : List (List UInt8)) : filesetInfos dir nrFiles (contents :: files) =
      fileInfo dir nrFiles contents :: filesetInfos dir (nrFiles + 1) files := by
  rw [filesetInfos, List.mapIdx_cons, filesetInfos, Nat.add_zero]
  simp only [Nat.add_assoc, Nat.add_comm 1]

theorem length_filesetInfos : (filesetInfos dir nrFiles files).length = files.length :=
  List.length_mapIdx

/-- The buffer holds the lines of the files, and is not full. -/
theorem filesetLoop_eq {result : ℕ × List UInt8}
    (h : filesetLoop dir nrFiles idxBuffer files = some result) :
    result = (nrFiles + files.length,
      idxBuffer ++ (filesetInfos dir nrFiles files).flatMap FileInfo.line) ∧
      idxBuffer.length + files.length ≤ max idxBuffer.length (4096 * 256) := by
  induction files generalizing nrFiles idxBuffer with
  | nil =>
    cases h
    exact ⟨by simp [filesetInfos], by simp⟩
  | cons contents files ih =>
    rw [filesetLoop, Option.ite_none_right_eq_some] at h
    obtain ⟨hfits, hrest⟩ := h
    obtain ⟨hresult, hlength⟩ := ih hrest
    have hpos : 0 < (fileInfo dir nrFiles contents).line.length := by
      rw [FileInfo.line, List.length_append]
      exact Nat.add_pos_right _ (by decide)
    refine ⟨?_, ?_⟩
    · rw [hresult, filesetInfos_cons, List.flatMap_cons, List.length_cons, List.append_assoc]
      simp only [Nat.add_assoc, Nat.add_comm 1]
    · rw [List.length_append] at hlength
      rw [List.length_cons]
      omega

/-- The index is a line with the number of files, and the lines of the files. -/
theorem filesetIndex_eq {index : List UInt8} (h : filesetIndex dir files = some index) :
    index = ascii (toString files.length) ++ [10] ++
      (filesetInfos dir 0 files).flatMap FileInfo.line ∧ files.length ≤ 4096 * 256 := by
  rw [filesetIndex, Option.map_eq_some_iff] at h
  obtain ⟨result, hloop, rfl⟩ := h
  obtain ⟨rfl, hlength⟩ := filesetLoop_eq hloop
  refine ⟨?_, by simpa using hlength⟩
  rw [Nat.zero_add, List.nil_append]
  rfl

end Index

/-! ### Reading a line back -/

/-- A file that a line of the index can be about. -/
structure FileInfo.Plain (fi : FileInfo) : Prop where
  word : IsWord fi.name
  nulFree : 0 ∉ fi.name
  short : fi.name.length ≤ 1100
  csum_lt : fi.csum < 2 ^ 32
  len : ∃ n : ℕ, n < 2 ^ 31 ∧ fi.len = n

section Line

variable {fi : FileInfo} {n : ℕ} {c : UInt8}

/-- A blank in front of a number is skipped. -/
theorem scanInteger_cons (hc : isSpace c = true) (rest : List UInt8) :
    scanInteger (c :: rest) = scanInteger rest := by
  rw [scanInteger, scanInteger, List.dropWhile_cons_of_pos hc]

/-- What follows a number. -/
theorem skipInteger_ascii (n : ℕ) (hc : isDigit c = false) (rest : List UInt8) :
    skipInteger (32 :: (ascii (toString n) ++ c :: rest)) = c :: rest := by
  obtain ⟨d, digits, hdigits⟩ := List.exists_cons_of_ne_nil (ascii_ne_nil n)
  have hd : isDigit d = true := isDigit_of_mem_ascii (n := n)
    (by rw [hdigits]; exact List.mem_cons_self)
  have hblank : isSpace 32 = true := by decide
  have hskip : (32 :: (ascii (toString n) ++ c :: rest)).dropWhile isSpace =
      ascii (toString n) ++ c :: rest := by
    rw [List.dropWhile_cons_of_pos hblank, hdigits, List.cons_append,
      List.dropWhile_cons_of_neg (by simp [isSpace_of_isDigit hd])]
  have hhead : (ascii (toString n) ++ c :: rest).head? = some d := by rw [hdigits]; rfl
  have hminus : d ≠ 45 := ne_of_isDigit hd (by decide)
  have hplus : d ≠ 43 := ne_of_isDigit hd (by decide)
  rw [skipInteger]
  simp only [hskip, hhead, Option.some.injEq, hminus, hplus, or_self, if_false]
  rw [List.dropWhile_append_of_pos fun b hb ↦ isDigit_of_mem_ascii hb,
    List.dropWhile_cons_of_neg (by simp [hc])]

/-- A line in parts. -/
theorem FileInfo.line_eq (hlen : fi.len = n) : fi.line =
    fi.name ++ 32 :: (ascii (toString fi.csum) ++ 32 :: (ascii (toString n) ++ 10 :: [])) := by
  have hnumber : toString fi.len = toString n := by
    rw [hlen]
    rfl
  have hblank : ascii " " = [32] := rfl
  have hnewline : ascii "\n" = [10] := rfl
  rw [FileInfo.line, hnumber, hblank, hnewline]
  simp only [List.append_assoc, List.cons_append, List.nil_append]

/-- The file is read back, whatever the memory holds before. -/
theorem FileInfo.Plain.scan (h : fi.Plain) (memory : FileInfo) :
    scanFileInfo memory fi.line = fi := by
  obtain ⟨n, hn, hlen⟩ := h.len
  have hcsum := h.csum_lt
  have hmod : ((fi.csum : ℤ) % 2 ^ 32).toNat = fi.csum := by omega
  rw [FileInfo.line_eq hlen, scanFileInfo, scanString_append h.word.1 h.word.2 (by decide)]
  simp only
  rw [scanInteger_ascii _ (by decide), skipInteger_ascii _ (by decide)]
  simp only
  rw [scanInteger_ascii _ (by decide)]
  simp only
  rw [hmod, bmod_of_lt (Int.natCast_nonneg n) (by omega), ← hlen]

/-- The line is one line, and short enough for the array. -/
theorem FileInfo.Plain.line (h : fi.Plain) : ∃ str, fi.line = str ++ [10] ∧ 10 ∉ str ∧ 0 ∉ str ∧
    str.length + 1 ≤ maxLine := by
  obtain ⟨n, hn, hlen⟩ := h.len
  have hcsum := h.csum_lt
  have hno : 10 ∉ fi.name := fun hmem ↦ by
    have hspace := h.word.2 10 hmem
    exact absurd hspace (by decide)
  refine ⟨fi.name ++ 32 :: (ascii (toString fi.csum) ++ 32 :: ascii (toString n)), ?_, ?_, ?_, ?_⟩
  · rw [FileInfo.line_eq hlen]
    simp only [List.append_assoc, List.cons_append]
  · simp only [List.mem_append, List.mem_cons, not_or]
    exact ⟨hno, by decide, digit_not_mem (by decide), by decide, digit_not_mem (by decide)⟩
  · simp only [List.mem_append, List.mem_cons, not_or]
    exact ⟨h.nulFree, by decide, digit_not_mem (by decide), by decide, digit_not_mem (by decide)⟩
  · have hname := h.short
    have hfirst := length_ascii_le (n := fi.csum) (by omega)
    have hsecond := length_ascii_le (n := n) (by omega)
    have hmax : maxLine = 8192 := rfl
    simp only [List.length_append, List.length_cons]
    omega

end Line

/-! ### The files of the index -/

section Files

variable {dir contents : List UInt8} {files : List (List UInt8)} {nrFiles : ℕ} {c : UInt8}

/-- A number consists of a slash and digits. -/
theorem eq_or_isDigit_of_mem_fileNumber (h : c ∈ fileNumber nrFiles) :
    c = 47 ∨ isDigit c = true := by
  rw [fileNumber, List.mem_append, List.mem_append] at h
  rcases h with (hslash | hzero) | hdigit
  · exact .inl (List.mem_singleton.mp hslash)
  · rw [(List.mem_replicate.mp hzero).2]
    exact .inr (by decide)
  · exact .inr (isDigit_iff.mpr (range_of_mem_digitBytes hdigit))

theorem length_fileNumber_le (h : nrFiles < 10 ^ 10) : (fileNumber nrFiles).length ≤ 16 := by
  have hslash : (ascii "/").length = 1 := by decide
  have hdigits := length_digitBytes_le h
  rw [fileNumber, List.length_append, List.length_append, List.length_replicate, hslash]
  omega

/-- The directory of the files: no blank, no NUL, and no more bytes than `fileset.c` admits. -/
structure PlainDir (dir : List UInt8) : Prop where
  noBlank : ∀ c ∈ dir, isSpace c = false
  nulFree : 0 ∉ dir
  short : dir.length ≤ 1000

/-- The files of `fileset.c` are such that their lines can be read. -/
theorem PlainDir.fileInfo (hdir : PlainDir dir) (hnr : nrFiles < 10 ^ 10)
    (hsize : contents.length < 2 ^ 31) : (fileInfo dir nrFiles contents).Plain where
  word := by
    refine ⟨?_, fun c hc ↦ ?_⟩
    · simp [Webserver.fileInfo, fileNumber, ascii]
    · rcases List.mem_append.mp hc with hc | hc
      · exact hdir.noBlank c hc
      · rcases eq_or_isDigit_of_mem_fileNumber hc with rfl | hdigit
        · decide
        · exact isSpace_of_isDigit hdigit
  nulFree := by
    intro hzero
    rcases List.mem_append.mp hzero with hzero | hzero
    · exact hdir.nulFree hzero
    · rcases eq_or_isDigit_of_mem_fileNumber hzero with heq | hdigit
      · exact absurd heq (by decide)
      · exact absurd hdigit (by decide)
  short := by
    have hlength : (Webserver.fileInfo dir nrFiles contents).name.length =
        dir.length + (fileNumber nrFiles).length := List.length_append
    have hnumber := length_fileNumber_le hnr
    have hshort := hdir.short
    omega
  csum_lt := checksum_lt contents
  len := ⟨contents.length, hsize, rfl⟩

/-- A file of the index is one that was made. -/
theorem exists_of_mem_filesetInfos {fi : FileInfo} (h : fi ∈ filesetInfos dir nrFiles files) :
    ∃ k contents, files[k]? = some contents ∧ fi = fileInfo dir (nrFiles + k) contents := by
  obtain ⟨k, hk⟩ := List.mem_iff_getElem?.mp h
  rw [filesetInfos, List.getElem?_mapIdx, Option.map_eq_some_iff] at hk
  obtain ⟨contents, hcontents, rfl⟩ := hk
  exact ⟨k, contents, hcontents, rfl⟩

end Files

/-! ### The client reads the index -/

section Load

variable {dir index : List UInt8} {files : List (List UInt8)} {input : List ReadResult}

/-- The loop of `init_fileset` at the end of the index. -/
theorem initFilesetLoop_eof {rp : Rio} {nrFiles : ℤ} {fileset : List FileInfo} (hfails : ¬rp.Fails)
    (hnil : rp.stream = []) (hpos : 0 < nrFiles) (hfull : (fileset.length : ℤ) = nrFiles)
    (memory : ℕ → FileInfo) (buf : ℕ → UInt8) :
    initFilesetLoop memory 1 buf nrFiles fileset rp = some (.loaded fileset) := by
  obtain ⟨rp', -, -, hrun⟩ := rioReadlineb_run (by decide : 0 < maxLine)
    (fun hcut ↦ hfails hcut.1) (by rw [hnil, nextLine_nil]; decide)
  rw [if_pos hnil] at hrun
  rw [initFilesetLoop, hrun]
  simp only [lt_irrefl, if_false, if_true]
  exact if_pos ⟨hpos, hfull⟩

/-- The loop of `init_fileset` reads the files of the index, one in each turn. -/
theorem initFilesetLoop_run (memory : ℕ → FileInfo) (infos : List FileInfo) :
    ∀ {rp : Rio} {buf : ℕ → UInt8} {nrFiles : ℤ} {fileset : List FileInfo},
      (∀ fi ∈ infos, fi.Plain) → ¬rp.Fails → rp.stream = infos.flatMap FileInfo.line →
      0 < nrFiles → (fileset.length : ℤ) + infos.length = nrFiles →
      initFilesetLoop memory (infos.length + 1) buf nrFiles fileset rp =
        some (.loaded (fileset ++ infos)) := by
  induction infos with
  | nil =>
    intro rp buf nrFiles fileset _ hfails hstream hpos hfull
    rw [List.append_nil]
    exact initFilesetLoop_eof hfails hstream hpos (by simpa using hfull) memory buf
  | cons fi infos ih =>
    intro rp buf nrFiles fileset hplain hfails hstream hpos hfull
    rw [List.length_cons] at hfull
    have hfi := hplain fi List.mem_cons_self
    obtain ⟨str, hline, hno, hnul, hfit⟩ := hfi.line
    rw [List.flatMap_cons, hline] at hstream
    obtain ⟨rp', hstream', hfails', hrun⟩ := rioReadlineb_line hno hfit hfails hstream
    have hlength : (str ++ [10]).length = str.length + 1 := List.length_append
    have htext : text (overwrite buf (str ++ [10] ++ [0])) = fi.line := by
      rw [text_overwrite (hlength ▸ hfit) (by simp [hnul]), hline]
    have hnext := @ih rp' (overwrite buf (str ++ [10] ++ [0])) nrFiles (fileset ++ [fi])
      (fun f hf ↦ hplain f (List.mem_cons_of_mem fi hf)) hfails' hstream' hpos
      (by rw [List.length_append, List.length_singleton]; push_cast at hfull ⊢; omega)
    rw [List.append_assoc fileset, List.singleton_append] at hnext
    rw [List.length_cons, initFilesetLoop, hrun]
    simp only
    rw [if_neg (not_lt.mpr (Int.natCast_nonneg _)), if_neg (by rw [hlength]; omega),
      if_neg hpos.ne', if_pos (by omega), htext, hfi.scan, hnext]

/-- The first line of the index. -/
theorem atoi_line {n : ℕ} (hn : n < 2 ^ 31) : atoi (ascii (toString n) ++ [10]) = n := by
  have hscan := scanInteger_ascii n (c := 10) (by decide) []
  rw [scanInteger_cons (by decide)] at hscan
  rw [atoi, hscan, Option.getD_some, bmod_of_lt (Int.natCast_nonneg n) (by omega)]

/-- The client reads the files of the index, however `read` splits it. -/
theorem initFileset_run (hdir : PlainDir dir) (hne : files ≠ [])
    (hsize : ∀ contents ∈ files, contents.length < 2 ^ 31)
    (hindex : filesetIndex dir files = some index) (hread : .failed ∉ input)
    (hinput : delivered input = index) (memory : ℕ → FileInfo) (buf : ℕ → UInt8) :
    ∃ turns, initFileset memory turns buf input = some (.loaded (filesetInfos dir 0 files)) := by
  obtain ⟨rfl, hfew⟩ := filesetIndex_eq hindex
  have hpos : 0 < files.length := List.length_pos_iff.mpr hne
  have hplain : ∀ fi ∈ filesetInfos dir 0 files, fi.Plain := by
    intro fi hfi
    obtain ⟨k, contents, hk, rfl⟩ := exists_of_mem_filesetInfos hfi
    obtain ⟨hlt, -⟩ := List.getElem?_eq_some_iff.mp hk
    exact hdir.fileInfo (by omega) (hsize contents (List.mem_of_getElem? hk))
  have hno : 10 ∉ ascii (toString files.length) := digit_not_mem (by decide)
  have hnul : 0 ∉ ascii (toString files.length) ++ [10] := by
    simp only [List.mem_append, not_or]
    exact ⟨digit_not_mem (by decide), by decide⟩
  have hdigits := length_ascii_le (n := files.length) (by omega)
  have hmax : maxLine = 8192 := rfl
  have hlength : (ascii (toString files.length) ++ [10]).length =
      (ascii (toString files.length)).length + 1 := List.length_append
  obtain ⟨rp, hstream, hfails, hrun⟩ := @rioReadlineb_line (rioInit input) _ _ hno
    (by simp only [maxBuf]; omega) hread hinput
  have hloop := @initFilesetLoop_run memory (filesetInfos dir 0 files) rp
    (overwrite buf (ascii (toString files.length) ++ [10] ++ [0])) files.length [] hplain hfails
    hstream (by exact_mod_cast hpos) (by rw [length_filesetInfos]; simp)
  refine ⟨(filesetInfos dir 0 files).length + 2, ?_⟩
  have hcount : atoi (text (overwrite buf (ascii (toString files.length) ++ [10] ++ [0]))) =
      files.length := by
    rw [text_overwrite (by simp only [maxBuf]; omega) hnul, atoi_line (by omega)]
  rw [initFileset, initFilesetLoop, hrun]
  simp only
  rw [if_neg (not_lt.mpr (Int.natCast_nonneg _)), if_neg (by rw [hlength]; omega), if_pos trivial,
    hcount, if_pos (by exact_mod_cast hpos), hloop, List.nil_append]

/-- Assumes: the name of the directory has no blank, no NUL and at most 1000 bytes; there is a file,
and no file has `2^31` bytes. The client reads the index that `fileset.c` has written for the files,
however `read` splits it and whatever is in the memory before: `init_fileset` returns, and what it
has for the files is their names, the sums of their bytes modulo `2^32` and their lengths. -/
theorem initFileset_index (hdir : PlainDir dir) (hne : files ≠ [])
    (hsize : ∀ contents ∈ files, contents.length < 2 ^ 31)
    (hindex : filesetIndex dir files = some index) (hread : .failed ∉ input)
    (hinput : delivered input = index) (memory : ℕ → FileInfo) (buf : ℕ → UInt8) :
    ∃ turns fileset, initFileset memory turns buf input = some (.loaded fileset) ∧
      fileset.length = files.length ∧ ∀ (k : ℕ) (contents : List UInt8), files[k]? = some contents →
        fileset[k]? = some ⟨dir ++ fileNumber k, (contents.map UInt8.toNat).sum % 2 ^ 32,
          contents.length⟩ := by
  obtain ⟨turns, hrun⟩ := initFileset_run hdir hne hsize hindex hread hinput memory buf
  refine ⟨turns, _, hrun, length_filesetInfos, fun k contents hk ↦ ?_⟩
  have hcsum : checksum contents = (contents.map UInt8.toNat).sum % 2 ^ 32 := by
    rw [checksum_eq_addBytes, addBytes_eq_sum contents (by decide), zero_add]
  rw [filesetInfos, List.getElem?_mapIdx, hk, Option.map_some, fileInfo, hcsum, Nat.zero_add]

end Load

/-- The index of one file of two bytes. -/
def twoBytesIndex : List UInt8 := ascii "1\nd/00000 3 2\n"

theorem filesetIndex_twoBytes : filesetIndex (ascii "d") [[1, 2]] = some twoBytesIndex := by
  decide +kernel

/-- The name of the directory of that file. -/
theorem plainDir_d : PlainDir (ascii "d") :=
  ⟨(by decide : IsWord (ascii "d")).2, by decide, by decide⟩

/-- The client reads the index of one file. -/
theorem initFileset_index_twoBytes : ∃ turns fileset,
    initFileset (fun _ ↦ ⟨[], 0, 0⟩) turns (fun _ ↦ 0)
      [.data ⟨twoBytesIndex, by decide, by decide⟩] = some (.loaded fileset) ∧
    fileset[0]? = some ⟨ascii "d/00000", 3, 2⟩ := by
  obtain ⟨turns, fileset, hrun, -, hfiles⟩ := @initFileset_index (ascii "d") twoBytesIndex [[1, 2]]
    [.data ⟨twoBytesIndex, by decide, by decide⟩] plainDir_d (by decide) (by simp)
    filesetIndex_twoBytes (by simp) (List.append_nil _) (fun _ ↦ ⟨[], 0, 0⟩) fun _ ↦ 0
  exact ⟨turns, fileset, hrun, (hfiles 0 [1, 2] rfl).trans (by decide +kernel)⟩

/-! ### The files are served -/

section Served

variable {disk : List UInt8 → FileStatus} {dir index fileName contents : List UInt8}
  {files : List (List UInt8)} {input : List ReadResult} {nrFiles : ℕ}

/-- Two equal bytes in a row are in the front part of a text, if the byte is not in the rest. -/
theorem infix_of_infix_append {a : UInt8} {rest : List UInt8} (hrest : a ∉ rest) :
    ∀ {front : List UInt8}, [a, a] <:+: front ++ rest → [a, a] <:+: front := by
  intro front
  induction front with
  | nil => exact fun h ↦ absurd (h.subset List.mem_cons_self) hrest
  | cons c front ih =>
    intro h
    rcases List.infix_cons_iff.mp h with hprefix | hinfix
    · obtain ⟨hc, htail⟩ := List.cons_prefix_cons.mp hprefix
      cases front with
      | nil => exact absurd (htail.subset List.mem_cons_self) hrest
      | cons d front =>
        obtain ⟨hd, -⟩ := List.cons_prefix_cons.mp htail
        rw [← hc, ← hd]
        exact ⟨[], front, rfl⟩
    · exact (ih hinfix).trans (List.suffix_cons c front).isInfix

/-- The text from the last occurrence of a character is what the text ends with. -/
theorem isSuffix_of_strrchr {str found : List UInt8} {c : UInt8} (h : strrchr str c = some found) :
    found <:+ str := by
  rw [strrchr, Option.ite_none_right_eq_some, Option.some.injEq] at h
  obtain ⟨hmem, rfl⟩ := h
  have hsplit := List.takeWhile_append_dropWhile (p := (· ≠ c)) (l := str.reverse)
  cases hdrop : str.reverse.dropWhile (· ≠ c) with
  | nil =>
    rw [List.dropWhile_eq_nil_iff] at hdrop
    have hne := hdrop c (List.mem_reverse.mpr hmem)
    simp at hne
  | cons d rest =>
    have hd : d = c := by
      have hhead := List.head?_dropWhile_not (· ≠ c) str.reverse
      rw [hdrop] at hhead
      simpa using hhead
    rw [hdrop, hd] at hsplit
    refine ⟨rest.reverse, ?_⟩
    have hreverse := congrArg List.reverse hsplit
    rw [List.reverse_append, List.reverse_cons, List.reverse_reverse] at hreverse
    rw [List.append_assoc, List.singleton_append] at hreverse
    exact hreverse

/-- A file that is made has a number at its end. -/
theorem getLast?_fileNumber (nrFiles : ℕ) (front : List UInt8) :
    ∃ d, (front ++ fileNumber nrFiles).getLast? = some d ∧ isDigit d = true := by
  obtain ⟨d, hd⟩ : ∃ d, (digitBytes nrFiles).getLast? = some d :=
    ⟨_, List.getLast?_eq_some_getLast (digitBytes_ne_nil nrFiles)⟩
  refine ⟨d, ?_, isDigit_iff.mpr (range_of_mem_digitBytes (List.mem_of_getLast? hd))⟩
  rw [fileNumber, ← List.append_assoc, List.getLast?_append, hd, Option.some_or]

/-- The server refuses no file that was made in a directory without `..`, and sends its contents. -/
theorem answerBody_fileInfo (hdir : ¬ascii ".." <:+: dir) (hsize : contents.length < 2 ^ 31)
    (hdisk : disk (ascii "./" ++ (dir ++ fileNumber nrFiles)) = .regular contents) :
    answerBody disk (ascii "./" ++ (dir ++ fileNumber nrFiles)) = contents := by
  obtain ⟨name, hname⟩ : ∃ name, name = ascii "./" ++ (dir ++ fileNumber nrFiles) := ⟨_, rfl⟩
  rw [← hname] at hdisk ⊢
  have habsolute : name.head? ≠ some 47 := by
    rw [hname]
    exact nofun
  have hparent : ¬ascii ".." <:+: name := by
    have hdots : ascii ".." = [46, 46] := rfl
    have hnumber : (46 : UInt8) ∉ fileNumber nrFiles := fun hmem ↦ by
      rcases eq_or_isDigit_of_mem_fileNumber hmem with heq | hdigit
      · exact absurd heq (by decide)
      · exact absurd hdigit (by decide)
    have hstart : name = 46 :: 47 :: (dir ++ fileNumber nrFiles) := hname
    rw [hdots] at hdir ⊢
    intro h
    rw [hstart, List.infix_cons_iff, List.infix_cons_iff] at h
    rcases h with hfirst | hsecond | hrest
    · exact absurd (List.cons_prefix_cons.mp (List.cons_prefix_cons.mp hfirst).2).1 (by decide)
    · exact absurd (List.cons_prefix_cons.mp hsecond).1 (by decide)
    · exact hdir (infix_of_infix_append hnumber hrest)
  have hextension : ∀ c, isDigit c = false → strrchr name 46 ≠ some [46, c] := by
    intro c hc h
    obtain ⟨front, hfront⟩ := isSuffix_of_strrchr h
    obtain ⟨d, hd, hdigit⟩ := getLast?_fileNumber nrFiles (ascii "./" ++ dir)
    rw [List.append_assoc, ← hname, ← hfront, List.getLast?_append] at hd
    have hcd : c = d := Option.some.inj hd
    rw [← hcd, hc] at hdigit
    cases hdigit
  have hsource : ¬(strrchr name 46 = some (ascii ".c") ∨ strrchr name 46 = some (ascii ".h")) := by
    rintro (h | h)
    · exact hextension 99 (by decide) h
    · exact hextension 104 (by decide) h
  have hbmod := bmod_of_lt (Int.natCast_nonneg contents.length) (by exact_mod_cast hsize)
  have hread : requestReadfile disk name = .filled contents contents.length := by
    rw [requestReadfile]
    simp only [if_neg habsolute, if_neg hparent, if_neg hsource, hdisk, hbmod]
    rw [if_neg (not_lt.mpr (Int.natCast_nonneg _)), Int.toNat_natCast, List.take_length]
  have herror : requestReadfileError disk name = none := by
    rw [requestReadfileError, if_neg habsolute, if_neg hparent, if_neg hsource, hdisk]
  rw [answerBody, herror]
  simp only
  rw [hread]

/-- Assumes: the name of the directory has no blank, no NUL, no `..` and at most 1000 bytes; there
is a file; no file has `2^31` bytes, and no line of a file has `MAXBUF` bytes with its newline,
which for the contents of `fileset.c`, without newlines, means fewer than `MAXBUF` bytes; under the
names of the files the server finds what `fileset.c` has written; nothing fails in reading and
writing. The client that has read the index of `fileset.c` asks for any of its files. For every
limit of the cache and in every interleaving with other requests, however the index, the request and
the response are split, the client stays within its array, and no assertion of it fails on what the
server answers. -/
theorem fileset_verifies (hdir : PlainDir dir) (hparent : ¬ascii ".." <:+: dir) (hne : files ≠ [])
    (hsize : ∀ contents ∈ files, contents.length < 2 ^ 31)
    (hlines : ∀ contents ∈ files, LinesFit maxBuf contents)
    (hindex : filesetIndex dir files = some index)
    (hdisk : ∀ (k : ℕ) (contents : List UInt8), files[k]? = some contents →
      disk (ascii "./" ++ (dir ++ fileNumber k)) = .regular contents)
    (hread : .failed ∉ input) (hinput : delivered input = index) (memory : ℕ → FileInfo)
    (buf : ℕ → UInt8) :
    ∃ turns fileset, initFileset memory turns buf input = some (.loaded fileset) ∧
      ∀ fi ∈ fileset, ∀ host results request, WriteResult.failed ∉ results →
        ReadResult.failed ∉ request →
        clientSend results host fi.name = some (delivered request) →
        ∀ maxCacheSize stack response, Answers disk maxCacheSize stack request response →
        StaysInArray response ∧
        ∀ input', ReadResult.failed ∉ input' → delivered input' = response → ∀ buf',
        ∃ headerTurns bodyTurns r, clientPrint headerTurns bodyTurns buf' input' = some r ∧
          r.Verified fi.csum fi.len := by
  obtain ⟨turns, hrun⟩ := initFileset_run hdir hne hsize hindex hread hinput memory buf
  obtain ⟨-, hfew⟩ := filesetIndex_eq hindex
  refine ⟨turns, _, hrun, fun fi hfi host results request hwrite hrequest hsend maxCacheSize stack
    response hanswer ↦ ?_⟩
  obtain ⟨k, contents, hk, rfl⟩ := exists_of_mem_filesetInfos hfi
  rw [Nat.zero_add] at hsend ⊢
  obtain ⟨hlt, -⟩ := List.getElem?_eq_some_iff.mp hk
  have hmem := List.mem_of_getElem? hk
  have hcontents := hsize contents hmem
  have hplain := @PlainDir.fileInfo dir contents k hdir (by omega) hcontents
  have hshort := hplain.short
  have hframed := exchange_run hplain.word hplain.nulFree (by omega) hwrite hrequest hsend hanswer
  rw [fileInfo, answerBody_fileInfo hparent hcontents (hdisk k contents hk)] at hframed
  refine ⟨hframed.staysInArray (hlines contents hmem), fun input' hread' hresponse buf' ↦ ?_⟩
  obtain ⟨headerTurns, bodyTurns, r, hprint, -, htags, hlength, hcsum⟩ :=
    hframed.decodes input' hread' hresponse buf'
  exact ⟨headerTurns, bodyTurns, r, hprint,
    (Received.verified_iff htags hlength hcsum _ _).mpr ⟨rfl, rfl⟩⟩

end Served

/-- The file of two bytes is asked for and answered, with a cache of ten bytes. -/
theorem fileset_verifies_twoBytes : ∃ turns fileset,
    initFileset (fun _ ↦ ⟨[], 0, 0⟩) turns (fun _ ↦ 0)
      [.data ⟨twoBytesIndex, by decide, by decide⟩] = some (.loaded fileset) ∧
    ∀ fi ∈ fileset, ∀ request, ReadResult.failed ∉ request →
      clientSend [] [] fi.name = some (delivered request) →
      ∀ response, Answers CacheServer.twoBytes 10 .zero request response →
      StaysInArray response ∧
      ∀ input', ReadResult.failed ∉ input' → delivered input' = response →
      ∃ headerTurns bodyTurns r, clientPrint headerTurns bodyTurns (fun _ ↦ 0) input' = some r ∧
        r.Verified fi.csum fi.len := by
  obtain ⟨turns, fileset, hrun, hfiles⟩ := @fileset_verifies CacheServer.twoBytes (ascii "d")
    twoBytesIndex [[1, 2]] [.data ⟨twoBytesIndex, by decide, by decide⟩] plainDir_d (by decide)
    (by decide) (by simp) (fun contents hmem ↦ linesFit_of_length_lt (by
      rw [List.mem_singleton.mp hmem]
      decide))
    filesetIndex_twoBytes (fun k contents hk ↦ by
      cases k with
      | zero => rw [← Option.some.inj hk]; rfl
      | succ k => cases hk)
    (by simp) (List.append_nil _) (fun _ ↦ ⟨[], 0, 0⟩) fun _ ↦ 0
  refine ⟨turns, fileset, hrun, fun fi hfi request hrequest hsend response hanswer ↦ ?_⟩
  obtain ⟨harray, hverified⟩ := hfiles fi hfi [] [] request List.not_mem_nil hrequest hsend 10 .zero
    response hanswer
  exact ⟨harray, fun input' hread' hresponse ↦ hverified input' hread' hresponse fun _ ↦ 0⟩

end OperatingSystems.Webserver
