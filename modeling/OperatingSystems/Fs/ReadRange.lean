import OperatingSystems.Fs.Narrowing

/-!
# The range check of `cmd_read`

`cmd_read` adds the size, converted to an `off_t`, to the offset and compares the sum with the size
of the file. The sum is not the one over the integers when the conversion or the addition wraps.
`read_within_iff` says for which arguments the check keeps what it is there for: whenever it lets a
request pass, the request is within the file and all of it is copied.
-/

set_option autoImplicit false
set_option relaxedAutoImplicit false

namespace OperatingSystems.Fs

open Library Library.Machine

/-- `cmd_read` gets past its tests of the offset and of the range. -/
def PassesRangeCheck (fileSize offset : ℤ) (size : ℕ) : Prop :=
  ¬ offset < 0 ∧ ¬ toOff (offset + toOff size) > fileSize

/-- If the request passes, it is within the file and `testfs_read_data` copies exactly `size`
bytes, for which there is a place in the buffer. -/
def ReadsWithin (s : FsState) (i : ℕ) (offset : ℤ) (size : ℕ) : Prop :=
  PassesRangeCheck (s.dinode i).iSize offset size →
    offset + size ≤ (s.dinode i).iSize ∧
    ∃ ret bytes, (testfsReadData i offset size).run s = .ok ((ret, bytes), s) ∧
      bytes.length = size ∧ bytes.length < toSize (size + 1)

section Range

variable {s t : FsState} {i : ℕ} {inode : Inode} {offset : ℤ} {size : ℕ}

/-- A request that does not pass is refused. -/
theorem readFile_refuses (ht : s.inodeHashTable i = some inode) (hoffset : 0 ≤ offset)
    (h : ¬ PassesRangeCheck (s.dinode i).iSize offset size) :
    (readFile i offset size).run s = .ok ((-eINVAL, .nothing), s) := by
  have hbig : toOff (offset + toOff size) > (s.dinode i).iSize := by
    by_contra hle
    exact h ⟨not_lt.mpr hoffset, hle⟩
  rw [readFile, Program.run_bind (testfsInodeGetSize_run ht), if_pos hbig, Program.pure_run]

/-- The conversion of a `size_t` to an `off_t`. -/
theorem toOff_natCast (h : size < 2 ^ 64) :
    toOff size = if size < 2 ^ 63 then (size : ℤ) else size - 2 ^ 64 := by
  split_ifs with hlow
  · exact toOff_of_range (by omega) (by omega)
  · have hwrap : toOff (size : ℤ) = toOff (size - 2 ^ 64) := by
      rw [toOff, toOff]
      exact (Int.sub_bmod_right (size : ℤ) (2 ^ 64)).symm
    rw [hwrap]
    exact toOff_of_range (by omega) (by omega)

/-- The sum of the range check, for an offset that is not negative. -/
theorem toOff_add (hoffset : 0 ≤ offset) (hlimit : offset < 2 ^ 63) (h : size < 2 ^ 64) :
    toOff (offset + toOff size) =
      if offset + size < 2 ^ 63 then offset + size else offset + size - 2 ^ 64 := by
  rw [toOff_natCast h]
  by_cases hlow : size < 2 ^ 63
  · rw [if_pos hlow]
    split_ifs with hsum
    · exact toOff_of_range (by omega) hsum
    · have hwrap : toOff (offset + size) = toOff (offset + size - 2 ^ 64) := by
        rw [toOff, toOff]
        exact (Int.sub_bmod_right (offset + size) (2 ^ 64)).symm
      rw [hwrap]
      exact toOff_of_range (by omega) (by omega)
  · rw [if_neg hlow, if_neg (by omega), ← add_sub_assoc]
    exact toOff_of_range (by omega) (by omega)

/-- A request within the file is served in full. -/
theorem Sound.read_all (hs : Sound s) (ht : s.inodeHashTable i = some inode) (hoffset : 0 ≤ offset)
    (hend : offset + size ≤ (s.dinode i).iSize) : ∃ ret bytes,
    (testfsReadData i offset size).run s = .ok ((ret, bytes), s) ∧
      bytes.length = size ∧ bytes.length < toSize (size + 1) := by
  have hext := hs.extent_of_some ht
  have hmax := hext.le_max
  have hbig : (maxFileSize : ℤ) < 2 ^ 62 := by decide
  rw [dinode_of_some ht] at hend
  have hbuffer : size < toSize (size + 1) := by
    rw [toSize_of_range (by omega) (by omega)]
    omega
  obtain ⟨start, rfl⟩ := Int.eq_ofNat_of_zero_le hoffset
  by_cases hstart : start < maxFileSize
  · have hrun := testfsReadData_count_run hs.core hs.reached ht hext hstart (n := size) (by omega)
      (by omega)
    have hall : min size (inode.din.iSize.toNat - start) = size := by omega
    rw [hall] at hrun
    exact ⟨_, _, hrun, length_bytes _ _ _ _, by rw [length_bytes]; exact hbuffer⟩
  · obtain rfl : size = 0 := by omega
    refine ⟨-eFBIG, [], ?_, rfl, hbuffer⟩
    rw [testfsReadData, if_pos (Int.ofNat_le.mpr (not_lt.mp hstart)), Program.pure_run]

/-- Reading stays within the file exactly if the sum does not wrap, or if it is too big even then.
-/
theorem Sound.readsWithin_iff (hs : Sound s) (ht : s.inodeHashTable i = some inode)
    (hlimit : offset < 2 ^ 63) (hsize : size < 2 ^ 64) : ReadsWithin s i offset size ↔
      offset < 0 ∨ offset + size < 2 ^ 63 ∨ (s.dinode i).iSize + 2 ^ 64 < offset + size := by
  have hext := hs.extent_of_some ht
  have hmax := hext.le_max
  have hnonneg := hext.nonneg
  have hbig : (maxFileSize : ℤ) < 2 ^ 62 := by decide
  rw [ReadsWithin, PassesRangeCheck]
  by_cases hneg : offset < 0
  · exact iff_of_true (fun hpass ↦ absurd hneg hpass.1) (Or.inl hneg)
  have hoffset := not_lt.mp hneg
  rw [toOff_add hoffset hlimit hsize]
  constructor
  · intro h
    by_contra hnot
    have hwraps : ¬ offset + size < 2 ^ 63 := fun hlt ↦ hnot (Or.inr (Or.inl hlt))
    have hsmall : offset + size - 2 ^ 64 ≤ (s.dinode i).iSize := by
      by_contra hlt
      exact hnot (Or.inr (Or.inr (by omega)))
    rw [if_neg hwraps] at h
    have hend := (h ⟨hneg, not_lt.mpr hsmall⟩).1
    rw [dinode_of_some ht] at hend
    omega
  · rintro (hlt | hlt | hlt) ⟨-, hpass⟩
    · exact absurd hlt hneg
    · rw [if_pos hlt, gt_iff_lt, not_lt] at hpass
      exact ⟨hpass, hs.read_all ht hoffset hpass⟩
    · rw [if_neg (by rw [dinode_of_some ht] at hlt; omega), gt_iff_lt, not_lt] at hpass
      omega

/-! ### Arguments -/

theorem strToOffset_lt {str : CString} (h : strToOffset str = .ok offset) : offset < 2 ^ 63 := by
  rw [strToOffset] at h
  split_ifs at h
  rw [← Except.ok.inj h, strtoll]
  omega

theorem strToSize_lt {str : CString} (h : strToSize str = .ok size) : size < 2 ^ 64 := by
  rw [strToSize] at h
  split_ifs at h
  rw [← Except.ok.inj h, strtoull]
  simp only [ge_iff_le]
  split_ifs with hbig hsign
  · norm_num
  · rw [toSize]
    omega
  · exact not_le.mp hbig

/-- Assumes: any run of commands on a fresh file system, and in the session it leads to a file that
`testfs_get_file_inode` finds, and arguments that `str_to_offset` and `str_to_size` accept. What
passes the range check of `cmd_read` is within the file, and is copied, exactly if the offset is
negative, the sum of offset and size is below `2^63`, or the sum exceeds the size of the file by
more than `2^64`. -/
theorem read_within_iff {maxFsBlocks c : ℕ} {p : Session} {filename offsetStr sizeStr : CString}
    (hmax : maxFsBlocks ≤ nrDataBlocks) (hrun : CommandRun (fun _ _ ↦ True) maxFsBlocks p)
    (hfile : (testfsGetFileInode p.curDir filename).run p.fs = .ok ((0, c), s))
    (hoffset : strToOffset offsetStr = .ok offset) (hsize : strToSize sizeStr = .ok size) :
    ReadsWithin s c offset size ↔
      offset < 0 ∨ offset + size < 2 ^ 63 ∨ (s.dinode c).iSize + 2 ^ 64 < offset + size := by
  have hsound := hrun.sound hmax
  obtain ⟨hc, rfl⟩ := hsound.getFileInode hfile
  obtain ⟨n, hn⟩ := inodeHashTable_fetch p.fs c
  exact (hsound.fetch hc).readsWithin_iff hn (strToOffset_lt hoffset) (strToSize_lt hsize)

/-! ### A negative size -/

/-- What `testfs_read_data` has copied stays in the buffer. -/
theorem readLoop_length_le (turns : ℕ) : ∀ {s t : FsState} (l ix size : ℕ) (block : Block)
    (buf : List UInt8) {ret : ℤ} {bytes : List UInt8},
    (readLoop i turns l ix size block buf).run s = .ok ((ret, bytes), t) →
      buf.length ≤ bytes.length := by
  induction turns with
  | zero =>
    intro s t l ix size block buf ret bytes hrun
    obtain ⟨hresult, -⟩ := Prod.mk.inj (Except.ok.inj hrun)
    exact (congrArg List.length (Prod.mk.inj hresult).2).le
  | succ turns ih =>
    intro s t l ix size block buf ret bytes hrun
    rw [readLoop] at hrun
    split_ifs at hrun with hsize
    swap
    · obtain ⟨hresult, -⟩ := Prod.mk.inj (Except.ok.inj hrun)
      exact (congrArg List.length (Prod.mk.inj hresult).2).le
    obtain ⟨⟨nr, data⟩, u, -, hrest⟩ := Program.bind_eq_ok_iff.mp hrun
    simp only at hrest
    split_ifs at hrest with hneg
    · obtain ⟨hresult, -⟩ := Prod.mk.inj (Except.ok.inj hrest)
      exact (congrArg List.length (Prod.mk.inj hresult).2).le
    · have hnext := ih _ _ _ _ _ hrest
      rw [List.length_append] at hnext
      exact (Nat.le_add_right _ _).trans hnext

/-- A read of all but one byte of the address space from the start of a file on passes the range
check and does not return: the buffer of `size + 1` bytes is empty. -/
theorem Sound.readFile_wraps (hs : Sound s) (ht : s.inodeHashTable i = some inode)
    (result : (ℤ × Output) × FsState) : (readFile i 0 (2 ^ 64 - 1)).run s ≠ .ok result := by
  intro hrun
  have hsmall : ¬ (-1 : ℤ) > inode.din.iSize := by
    have hnonneg := (hs.extent_of_some ht).nonneg
    omega
  have hneg : toOff (0 + toOff ((2 ^ 64 - 1 : ℕ) : ℤ)) = -1 := by decide
  have hbuffer : toSize (((2 ^ 64 - 1 : ℕ) : ℤ) + 1) = 0 := by decide
  rw [readFile, Program.run_bind (testfsInodeGetSize_run ht), hneg, hbuffer, dinode_of_some ht,
    if_neg hsmall, if_neg (by norm_num)] at hrun
  obtain ⟨⟨ret, bytes⟩, u, hread, hrest⟩ := Program.bind_eq_ok_iff.mp hrun
  obtain ⟨_, v, hcheck, -⟩ := Program.bind_eq_ok_iff.mp hrest
  have hempty := (Program.check_eq_ok_iff.mp hcheck).1
  rw [testfsReadData, if_neg (by decide), Program.run_bind (inodeRef_run ht)] at hread
  simp only [hneg, if_neg hsmall] at hread
  rw [if_neg (by norm_num), Program.check_bind_run le_rfl] at hread
  obtain ⟨n, hn⟩ : ∃ n, 2 ^ 64 - 1 = n + 1 := ⟨2 ^ 64 - 2, by norm_num⟩
  rw [hn, readLoop, if_pos (Nat.succ_pos n)] at hread
  obtain ⟨⟨nr, data⟩, w, hblock, hloop⟩ := Program.bind_eq_ok_iff.mp hread
  have hfirst := testfsReadBlock_run hs.core hs.reached ht (l := 0) (by decide) Block.zero
  have hnr : nr = s.own i (Slot.ofLog 0) := by
    have heq := hfirst.symm.trans hblock
    exact (Prod.mk.inj (Prod.mk.inj (Except.ok.inj heq)).1).1.symm
  have hnonneg : ¬ nr < 0 := by
    rw [hnr, not_lt]
    by_cases hzero : s.own i (Slot.ofLog 0) = 0
    · exact hzero.ge
    · exact (hs.core.own_pos (hs.lt ht) hzero).le
  simp only at hloop
  rw [if_neg hnonneg] at hloop
  have hlength := readLoop_length_le _ _ _ _ _ _ hloop
  rw [List.nil_append, Block.length_copyOut] at hlength
  have hmin : 0 < min (blockSize - (0 : ℤ).toNat % blockSize) (n + 1) := by
    simp only [blockSize]
    omega
  omega

end Range

/-- The size `-1`. -/
def sizeMinusOne : CString := ⟨[45, 49], by decide⟩

/-- `create f` and `read f 0 -1` in a new file system of eight blocks: the request passes the range
check, the file is empty, and `cmd_read` does not return. -/
theorem negative_size_passes : ∃ (p₀ p : Session) (c : ℕ) (s : FsState),
    Started 8 p₀ ∧ p₀.step (0, ⟨.create, [nameF]⟩) = some p ∧
    (testfsGetFileInode p.curDir nameF).run p.fs = .ok ((0, c), s) ∧
    strToOffset offsetZero = .ok 0 ∧ strToSize sizeMinusOne = .ok (2 ^ 64 - 1) ∧
    PassesRangeCheck (s.dinode c).iSize 0 (2 ^ 64 - 1) ∧
    ¬ (0 + ((2 ^ 64 - 1 : ℕ) : ℤ) ≤ (s.dinode c).iSize) ∧ ¬ ReadsWithin s c 0 (2 ^ 64 - 1) ∧
    ∀ result, (cmdRead p.curDir [nameF, offsetZero, sizeMinusOne]).run p.fs ≠ .ok result := by
  obtain ⟨p₀, p, T, dirs, c, hstart, -, hcreate, hcreated⟩ :=
    fresh_create (by decide : 0 < 8) (by decide)
  obtain ⟨hpresent, hfound⟩ := hcreated.inTree.fileInode_run hcreated.lookup hcreated.file
  rw [← hcreated.curDir] at hfound
  have hfetched :=
    (hcreated.inTree.fetch (hcreated.inTree.represents.bound c hpresent)).calm.toSound
  obtain ⟨n, hn⟩ := inodeHashTable_fetch p.fs c
  have hext := hfetched.extent_of_some hn
  have hmax := hext.le_max
  have hnonneg := hext.nonneg
  rw [← dinode_of_some hn] at hmax hnonneg
  have hoffset : strToOffset offsetZero = .ok 0 := by decide
  have hsize : strToSize sizeMinusOne = .ok (2 ^ 64 - 1) := by decide
  have hpasses : PassesRangeCheck ((p.fs.fetch c).dinode c).iSize 0 (2 ^ 64 - 1) := by
    have hneg : toOff (0 + toOff ((2 ^ 64 - 1 : ℕ) : ℤ)) = -1 := by decide
    refine ⟨lt_irrefl 0, ?_⟩
    rw [hneg]
    omega
  have hbeyond : ¬ (0 + ((2 ^ 64 - 1 : ℕ) : ℤ) ≤ ((p.fs.fetch c).dinode c).iSize) := by
    have hbig : ((maxFileSize : ℕ) : ℤ) < ((2 ^ 64 - 1 : ℕ) : ℤ) := by decide
    omega
  refine ⟨p₀, p, c, _, hstart, hcreate, hfound, hoffset, hsize, hpasses, hbeyond,
    fun h ↦ hbeyond (h hpasses).1, fun result hrun ↦ ?_⟩
  rw [cmdRead, hoffset] at hrun
  simp only at hrun
  rw [if_neg (lt_irrefl 0), hsize] at hrun
  simp only at hrun
  rw [Program.run_bind hfound] at hrun
  simp only at hrun
  rw [if_neg (lt_irrefl 0)] at hrun
  obtain ⟨out, t⟩ := result
  obtain ⟨read, u, hread, -⟩ := Program.bind_eq_ok_iff.mp hrun
  exact hfetched.readFile_wraps hn _ hread

/-- `create f` and `write f 0 abc` in a new file system of eight blocks: reading two bytes from the
offset `1` on passes the range check, and they are copied. -/
theorem read_within_text : ∃ (p : Session) (c : ℕ) (s : FsState),
    CommandRun (fun _ _ ↦ True) 8 p ∧
    (testfsGetFileInode p.curDir nameF).run p.fs = .ok ((0, c), s) ∧
    s.file c = FileView.empty.write textABC.bytes 0 3 ∧
    PassesRangeCheck (s.dinode c).iSize 1 2 ∧ ReadsWithin s c 1 2 ∧
    (testfsReadData c 1 2).run s = .ok ((2, [98, 99]), s) := by
  obtain ⟨p₀, p, T, dirs, c, hstart, -, hcreate, hcreated⟩ :=
    fresh_create (by decide : 0 < 8) (by decide)
  have hzero : strToOffset offsetZero = .ok ((0 : ℕ) : ℤ) := by decide
  obtain ⟨q, hwrite, hcur, htree, hwritten⟩ :=
    hcreated.writes textABC hzero (by decide) (by decide) (by decide)
  obtain ⟨hpresent, hfound⟩ := htree.fileInode_run hcreated.lookup hcreated.file
  rw [← hcur] at hfound
  have hsound := (htree.fetch (htree.represents.bound c hpresent)).calm.toSound
  obtain ⟨n, hn⟩ := inodeHashTable_fetch q.fs c
  have hfile : (q.fs.fetch c).file c = FileView.empty.write textABC.bytes 0 3 := by
    rw [FsState.file, dinode_fetch, content_fetch]
    exact hwritten
  have hsize : ((q.fs.fetch c).dinode c).iSize.toNat = 3 := congrArg FileView.size hfile
  have hrun : CommandRun (fun _ _ ↦ True) 8 q :=
    ⟨p₀, hstart, (Relation.ReflTransGen.single ⟨_, trivial, hcreate⟩).tail ⟨_, trivial, hwrite⟩⟩
  have hoffset : strToOffset (⟨[49], by decide⟩ : CString) = .ok 1 := by decide
  have hcount : strToSize (⟨[50], by decide⟩ : CString) = .ok 2 := by decide
  have hreads := (hsound.actsOnFile hn).read 1 2 (by rw [hfile]; decide) (by decide) (by decide)
  have hpass : PassesRangeCheck ((q.fs.fetch c).dinode c).iSize 1 2 := by
    have hsum : toOff (1 + toOff ((2 : ℕ) : ℤ)) = 3 := by decide
    refine ⟨by decide, ?_⟩
    rw [hsum]
    omega
  refine ⟨q, c, _, hrun, hfound, hfile, hpass, ?_, ?_⟩
  · refine (read_within_iff (by decide) hrun hfound hoffset hcount).mpr (Or.inr (Or.inl ?_))
    norm_num
  · rw [hfile] at hreads
    exact hreads

end OperatingSystems.Fs
