import OperatingSystems.Fs.Write

/-!
# Reading from a file

`testfsReadData_run` says that `testfs_read_data` returns the bytes of the file from `start` on, as
many as are asked for and as the file has, and that it changes nothing.
-/

set_option autoImplicit false
set_option relaxedAutoImplicit false

namespace OperatingSystems.Fs

open Library

/-- The `n` bytes of a file from an offset on. -/
def FsState.bytes (s : FsState) (i off n : ℕ) : List UInt8 :=
  (List.range n).map fun k ↦ s.content i (off + k)

@[simp] theorem length_bytes (s : FsState) (i off n : ℕ) : (s.bytes i off n).length = n := by
  simp [FsState.bytes]

theorem bytes_add (s : FsState) (i off m n : ℕ) :
    s.bytes i off (m + n) = s.bytes i off m ++ s.bytes i (off + m) n := by
  simp only [FsState.bytes, List.range_add, List.map_append, List.map_map]
  congr 2
  funext k
  simp only [Function.comp_apply, add_assoc]

/-- The bytes copied out of a logical block. -/
theorem copyOut_blockOf (s : FsState) (i : ℕ) {off m : ℕ} (hm : m ≤ blockSize - off % blockSize)
    (hend : off + m ≤ maxFileSize) :
    (s.blockOf i (off / blockSize)).copyOut (off % blockSize) m = s.bytes i off m := by
  rw [Block.copyOut, FsState.bytes]
  apply List.map_congr_left
  intro k hk
  have hkm := List.mem_range.mp hk
  have hdiv : (off + k) / blockSize = off / blockSize := by
    simp only [blockSize] at *
    omega
  have hmod : (off + k) % blockSize = off % blockSize + k := by
    simp only [blockSize] at *
    omega
  have hbyte := byte_blockOf s i (show off + k < maxFileSize by omega)
  rw [hdiv, hmod] at hbyte
  exact hbyte

section Read

variable {s : FsState} {i : ℕ} {inode : Inode}

/-- The loop of `testfs_read_data` copies the bytes of the file. -/
theorem readLoop_run (h : Core s) (hr : Reached s) (ht : s.inodeHashTable i = some inode)
    (turns : ℕ) : ∀ (off l ix size : ℕ) (block : Block) (buf : List UInt8), size ≤ turns →
    off + size ≤ maxFileSize → (0 < size → l = off / blockSize ∧ ix = off % blockSize) →
    (readLoop i turns l ix size block buf).run s =
      .ok ((toInt32 (buf.length + size : ℕ), buf ++ s.bytes i off size), s) := by
  induction turns with
  | zero =>
    intro off l ix size block buf hturns _ _
    obtain rfl := Nat.le_zero.mp hturns
    rw [readLoop, Program.pure_run, add_zero, FsState.bytes, List.range_zero, List.map_nil,
      List.append_nil]
  | succ turns ih =>
    intro off l ix size block buf hturns hend hplace
    rw [readLoop]
    by_cases hsize : size > 0
    swap
    · obtain rfl := Nat.le_zero.mp (not_lt.mp hsize)
      rw [if_neg hsize, Program.pure_run, add_zero, FsState.bytes, List.range_zero, List.map_nil,
        List.append_nil]
    obtain ⟨rfl, rfl⟩ := hplace hsize
    have hl : off / blockSize < maxBlockNr :=
      Nat.div_lt_of_lt_mul (by rw [mul_comm]; exact lt_of_lt_of_le (by omega) hend)
    have hmod := Nat.mod_lt off (by decide : 0 < blockSize)
    obtain ⟨m, hm⟩ : ∃ m, m = min (blockSize - off % blockSize) size := ⟨_, rfl⟩
    rw [if_pos hsize, Program.run_bind (testfsReadBlock_run h hr ht hl block)]
    have hnonneg : ¬ s.own i (Slot.ofLog (off / blockSize)) < 0 := by
      rw [not_lt]
      by_cases hzero : s.own i (Slot.ofLog (off / blockSize)) = 0
      · exact hzero.ge
      · exact (h.own_pos (h.table i inode ht) hzero).le
    simp only [← hm]
    rw [if_neg hnonneg, copyOut_blockOf s i (by omega) (by omega)]
    refine (ih (off + m) _ _ _ _ _ (by omega) (by omega) ?_).trans ?_
    · simp only [blockSize] at *
      omega
    · have hsum : size = m + (size - m) := by omega
      rw [List.append_assoc, ← bytes_add, ← hsum, List.length_append, length_bytes, add_assoc,
        ← hsum]

/-- The bytes that `testfs_read_data` is to copy. -/
theorem readSize_run {inode : Inode} {start n : ℕ} (hmax : inode.din.iSize ≤ (maxFileSize : ℕ))
    (hsize : (start : ℤ) ≤ inode.din.iSize) (hn : n < 2 ^ 62) :
    (if toOff (start + toOff n) > inode.din.iSize then toSize (inode.din.iSize - start) else n) =
      min n (inode.din.iSize.toNat - start) := by
  have hbig : (maxFileSize : ℤ) < 2 ^ 62 := by decide
  have hlen : toOff n = n := toOff_of_range (by omega) (by omega)
  have hsum : toOff (start + n) = start + n := toOff_of_range (by omega) (by omega)
  rw [hlen, hsum]
  split_ifs with hlong
  · rw [toSize_of_range (by omega) (by omega)]
    omega
  · omega

/-- `testfs_read_data` within a file copies the bytes there are, and leaves the state as it is. The
count is converted to an `int`. -/
theorem testfsReadData_count_run (h : Core s) (hr : Reached s)
    (ht : s.inodeHashTable i = some inode)
    (hext : Extent (s.own i) inode.din.iSize) {start n : ℕ} (hstart : start < maxFileSize)
    (hsize : (start : ℤ) ≤ inode.din.iSize) (hn : n < 2 ^ 62) :
    (testfsReadData i start n).run s =
      .ok ((toInt32 (min n (inode.din.iSize.toNat - start) : ℕ),
        s.bytes i start (min n (inode.din.iSize.toNat - start))), s) := by
  have hmax := hext.le_max
  rw [testfsReadData, if_neg (not_le.mpr (Int.ofNat_lt.mpr hstart)),
    Program.run_bind (inodeRef_run ht)]
  simp only [readSize_run hmax hsize hn]
  obtain ⟨m, hm⟩ : ∃ m, m = min n (inode.din.iSize.toNat - start) := ⟨_, rfl⟩
  rw [← hm]
  by_cases hzero : m = 0
  · rw [if_pos hzero, Program.pure_run, hzero]
    rfl
  · have hend : start + m ≤ maxFileSize := by omega
    have hloop := readLoop_run h hr ht m start (start / blockSize) (start % blockSize) m Block.zero
      [] le_rfl hend fun _ ↦ ⟨rfl, rfl⟩
    rw [List.length_nil, zero_add, List.nil_append] at hloop
    rw [if_neg hzero, Program.check_bind_run (Int.natCast_nonneg start), Int.toNat_natCast]
    exact hloop

/-- A count below `2^31` is returned as it is. -/
theorem testfsReadData_run (h : Core s) (hr : Reached s) (ht : s.inodeHashTable i = some inode)
    (hext : Extent (s.own i) inode.din.iSize) {start n : ℕ} (hstart : start < maxFileSize)
    (hsize : (start : ℤ) ≤ inode.din.iSize) (hn : n < 2 ^ 31) :
    (testfsReadData i start n).run s =
      .ok (((min n (inode.din.iSize.toNat - start) : ℕ),
        s.bytes i start (min n (inode.din.iSize.toNat - start))), s) := by
  rw [testfsReadData_count_run h hr ht hext hstart hsize (by omega),
    toInt32_of_range (by omega) (by omega)]

end Read

/-! ### Reading leaves the state as it is -/

section Preserves

variable {I : FsState → Prop}

theorem preserves_readBlock (start : ℤ) : Program.Preserves I (readBlock start) := by
  refine Program.Preserves.bind ?_ fun _ ↦ Program.preserves_pure _
  refine Program.Preserves.bind (Program.preserves_gets _) fun _ ↦ ?_
  refine Program.Preserves.bind (Program.preserves_check _ _) fun _ ↦ ?_
  exact Program.Preserves.bind (Program.preserves_check _ _) fun _ ↦ Program.preserves_pure _

theorem preserves_inodeRef (i : ℕ) : Program.Preserves I (inodeRef i) := by
  refine Program.Preserves.bind (Program.preserves_gets _) fun table ↦ ?_
  cases table i with
  | some inode => exact Program.preserves_pure _
  | none => exact Program.preserves_halt _

theorem preserves_physicalBlock (inode : Inode) (logBlockNr : ℕ) :
    Program.Preserves I (physicalBlock inode logBlockNr) := by
  rw [physicalBlock]
  split_ifs
  · exact Program.preserves_pure _
  · refine Program.Preserves.ite (fun _ ↦ ?_) fun _ ↦ Program.preserves_pure _
    refine Program.Preserves.bind (preserves_readBlock _) fun _ ↦ ?_
    refine Program.Preserves.ite (fun _ ↦ ?_) fun _ ↦ Program.preserves_pure _
    exact Program.Preserves.bind (preserves_readBlock _) fun _ ↦ Program.preserves_pure _
  · exact Program.Preserves.bind (preserves_readBlock _) fun _ ↦ Program.preserves_pure _
  · exact Program.preserves_pure _

theorem preserves_testfsReadBlock (i logBlockNr : ℕ) (block : Block) :
    Program.Preserves I (testfsReadBlock i logBlockNr block) := by
  refine Program.Preserves.ite (fun _ ↦ Program.preserves_pure _) fun _ ↦ ?_
  refine Program.Preserves.bind (preserves_inodeRef i) fun inode ↦ ?_
  refine Program.Preserves.bind (preserves_physicalBlock inode logBlockNr) fun _ ↦ ?_
  refine Program.Preserves.ite (fun _ ↦ ?_) fun _ ↦ Program.preserves_pure _
  exact Program.Preserves.bind (preserves_readBlock _) fun _ ↦ Program.preserves_pure _

theorem preserves_readLoop (i turns : ℕ) : ∀ (blockNr blockIx size : ℕ) (block : Block)
    (buf : List UInt8), Program.Preserves I (readLoop i turns blockNr blockIx size block buf) := by
  induction turns with
  | zero => exact fun _ _ _ _ _ ↦ Program.preserves_pure _
  | succ turns ih =>
    intro blockNr blockIx size block buf
    rw [readLoop]
    refine Program.Preserves.ite (fun _ ↦ ?_) fun _ ↦ Program.preserves_pure _
    refine Program.Preserves.bind (preserves_testfsReadBlock i blockNr block) fun result ↦ ?_
    exact Program.Preserves.ite (fun _ ↦ Program.preserves_pure _) fun _ ↦ ih _ _ _ _ _

/-- `testfs_read_data` changes nothing, wherever it reads. -/
theorem preserves_testfsReadData (i : ℕ) (start : ℤ) (size : ℕ) :
    Program.Preserves I (testfsReadData i start size) := by
  refine Program.Preserves.ite (fun _ ↦ Program.preserves_pure _) fun _ ↦ ?_
  refine Program.Preserves.bind (preserves_inodeRef i) fun inode ↦ ?_
  refine Program.Preserves.ite (fun _ ↦ Program.preserves_pure _) fun _ ↦ ?_
  exact Program.Preserves.bind (Program.preserves_check _ _) fun _ ↦
    preserves_readLoop _ _ _ _ _ _ _

end Preserves

end OperatingSystems.Fs
