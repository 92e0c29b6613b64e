import OperatingSystems.Fs.ReadWrite

/-!
# What the allocation of blocks and inode numbers does to a file system

In a file system with the layout of `mktestfs` (`Layout`), the operations of `super.c` are
updates of the state that these theorems write out: `testfsAllocBlock` takes the least clear bit
of the block freemap (`takeBlock`) or fails, and `testfsFreeBlock` zeroes the block and clears
its bit (`releaseBlock`). Both write only the super block, one freemap block and, for a release,
the released block, so everything from the inode blocks on is as before.
-/

set_option autoImplicit false
set_option relaxedAutoImplicit false

namespace OperatingSystems.Fs

open Library

/-! ### The layout -/

/-- The places of the regions and the sizes of the bitmaps, as `mktestfs` and the mount set
them. -/
structure Layout (s : FsState) : Prop where
  inodeFreemapStart : s.sb.inodeFreemapStart = superBlockSize
  blockFreemapStart : s.sb.blockFreemapStart = superBlockSize + inodeFreemapSize
  inodeBlocksStart : s.sb.inodeBlocksStart = firstInodeBlock
  dataBlocksStart : s.sb.dataBlocksStart = firstDataBlock
  inodeBits : s.inodeFreemap.nbits = blockSize * inodeFreemapSize * bitsPerWord
  blockBits : s.blockFreemap.nbits = nrDataBlocks
  devLen : firstDataBlock ≤ s.dev.len

theorem Bitmap.padded_of_dvd {b : Bitmap} (h : 8 ∣ b.nbits) : b.Padded := by
  obtain ⟨n, hn⟩ := h
  intro i hi hword
  simp only [Bitmap.words, bitsPerWord] at hword
  omega

theorem Layout.paddedBlocks {s : FsState} (h : Layout s) : s.blockFreemap.Padded :=
  Bitmap.padded_of_dvd (by rw [h.blockBits]; decide)

theorem Layout.paddedInodes {s : FsState} (h : Layout s) : s.inodeFreemap.Padded :=
  Bitmap.padded_of_dvd (by rw [h.inodeBits]; decide)

/-! ### Devices -/

/-- The device with one block written. -/
def Device.put (dev : Device) (b : ℕ) (block : Block) : Device where
  len := max dev.len (b + 1)
  blocks := Function.update dev.blocks b block

theorem Device.write_one (dev : Device) (blocks : ℕ → Block) (b : ℕ) :
    dev.write blocks b 1 = dev.put b (blocks 0) := by
  simp only [Device.write, Device.put, Device.mk.injEq]
  refine ⟨by simp, ?_⟩
  funext c
  by_cases h : c = b
  · subst h
    simp
  · rw [Function.update_of_ne h, if_neg (by omega)]

@[simp] theorem Device.blocks_put_self (dev : Device) (b : ℕ) (block : Block) :
    (dev.put b block).blocks b = block := by
  simp [Device.put]

theorem Device.blocks_put_of_ne (dev : Device) {b c : ℕ} (block : Block) (h : c ≠ b) :
    (dev.put b block).blocks c = dev.blocks c := by
  simp [Device.put, h]

theorem Device.len_le_put (dev : Device) (b : ℕ) (block : Block) :
    dev.len ≤ (dev.put b block).len :=
  le_max_left _ _

theorem Device.lt_len_put (dev : Device) (b : ℕ) (block : Block) : b < (dev.put b block).len :=
  lt_of_lt_of_le (Nat.lt_succ_self b) (le_max_right _ _)

theorem writeBlocks_run {start : ℤ} (h : 0 ≤ start) (blocks : ℕ → Block) (s : FsState) :
    (writeBlocks blocks start 1).run s =
      .ok ((), { s with dev := s.dev.put start.toNat (blocks 0) }) := by
  rw [writeBlocks, Program.check_bind_run h, Program.modify_run, Device.write_one]

theorem zeroBlocks_run {start : ℤ} (h : 0 ≤ start) (s : FsState) :
    (zeroBlocks start 1).run s = .ok ((), { s with dev := s.dev.put start.toNat Block.zero }) := by
  rw [zeroBlocks, zeroBlocks, Program.pure_bind_run]
  simpa using writeBlocks_run h (fun _ ↦ Block.zero) s

/-- `read_blocks` returns if the blocks are in the device file. -/
theorem readBlocks_eq_ok_iff {start : ℤ} {nr : ℕ} {blocks : ℕ → Block} {s t : FsState} :
    (readBlocks start nr).run s = .ok (blocks, t) ↔ 0 ≤ start ∧ start.toNat + nr ≤ s.dev.len ∧
      blocks = (fun k ↦ s.dev.blocks (start.toNat + k)) ∧ t = s := by
  rw [readBlocks, Program.gets_bind_run]
  constructor
  · intro hrun
    obtain ⟨_, s₁, hcheck, hrun⟩ := Program.bind_eq_ok_iff.mp hrun
    obtain ⟨hstart, rfl⟩ := Program.check_eq_ok_iff.mp hcheck
    obtain ⟨_, s₂, hcheck', hrun⟩ := Program.bind_eq_ok_iff.mp hrun
    obtain ⟨hlen, rfl⟩ := Program.check_eq_ok_iff.mp hcheck'
    obtain ⟨rfl, rfl⟩ := Prod.mk.inj (Except.ok.inj hrun)
    exact ⟨hstart, hlen, rfl, rfl⟩
  · rintro ⟨hstart, hlen, rfl, rfl⟩
    rw [Program.check_bind_run hstart, Program.check_bind_run hlen, Program.pure_run]

theorem readBlock_run {start : ℤ} {s : FsState} (h : 0 ≤ start) (hlen : start.toNat < s.dev.len) :
    (readBlock start).run s = .ok (s.dev.blocks start.toNat, s) := by
  have hread : (readBlocks start 1).run s = .ok (fun k ↦ s.dev.blocks (start.toNat + k), s) := by
    rw [readBlocks, Program.gets_bind_run, Program.check_bind_run h,
      Program.check_bind_run (Nat.succ_le_of_lt hlen), Program.pure_run]
  rw [readBlock, Program.run_bind hread]
  rfl

/-- Reading behind the end of the device file ends the process. -/
theorem readBlock_fails {start : ℤ} {s : FsState} (h : 0 ≤ start)
    (hlen : ¬start.toNat < s.dev.len) : (readBlock start).run s = .error .exit := by
  have hread : (readBlocks start 1).run s = .error .exit := by
    rw [readBlocks, Program.gets_bind_run, Program.check_bind_run h,
      Program.check_bind_fails fun hle ↦ hlen (Nat.lt_of_succ_le hle)]
  rw [readBlock, Program.run_bind_error hread]

/-! ### Blocks -/

/-- The state after bit `idx` of the block freemap was set to `value` and the count of used
blocks to `used`, both written through. -/
def FsState.putBlockBit (s : FsState) (idx : ℕ) (value : Bool) (used : ℕ) : FsState :=
  let freemap := s.blockFreemap.put idx value
  let sb := { s.sb with usedBlockCount := used }
  let nr := idx / (blockSize * bitsPerWord)
  { s with
    blockFreemap := freemap
    sb := sb
    dev := (s.dev.put (s.sb.blockFreemapStart + nr) (freemapBlock freemap nr)).put 0
      (encodeSuper sb) }

/-- The state after `testfs_alloc_block` took the block of bit `idx`. -/
def FsState.takeBlock (s : FsState) (idx : ℕ) : FsState :=
  s.putBlockBit idx true (s.sb.usedBlockCount + 1)

/-- The state after `testfs_free_block` released the block of bit `idx`. -/
def FsState.releaseBlock (s : FsState) (idx : ℕ) : FsState :=
  let zeroed := { s with dev := s.dev.put (s.sb.dataBlocksStart + idx) Block.zero }
  zeroed.putBlockBit idx false (s.sb.usedBlockCount - 1)

section PutBlockBit

variable {s : FsState} {idx : ℕ} {value : Bool} {used : ℕ}

/-- Only the blocks before the inode blocks are written. -/
theorem blocks_putBlockBit (h : Layout s) (hidx : idx < nrDataBlocks) {b : ℕ}
    (hb : firstInodeBlock ≤ b) : (s.putBlockBit idx value used).dev.blocks b = s.dev.blocks b := by
  have hnr : idx / (blockSize * bitsPerWord) < 16 := by
    simp only [nrDataBlocks, blockSize, blockFreemapSize, bitsPerWord] at *
    omega
  have hstart := h.blockFreemapStart
  simp only [firstInodeBlock, superBlockSize, inodeFreemapSize, blockFreemapSize] at *
  rw [FsState.putBlockBit]
  rw [Device.blocks_put_of_ne _ _ (by omega), Device.blocks_put_of_ne _ _ (by omega)]

theorem len_putBlockBit (h : Layout s) (hidx : idx < nrDataBlocks) :
    (s.putBlockBit idx value used).dev.len = s.dev.len := by
  have hnr : idx / (blockSize * bitsPerWord) < 16 := by
    simp only [nrDataBlocks, blockSize, blockFreemapSize, bitsPerWord] at *
    omega
  have hstart := h.blockFreemapStart
  have hlen := h.devLen
  simp only [FsState.putBlockBit, Device.put, firstDataBlock, firstInodeBlock, superBlockSize,
    inodeFreemapSize, blockFreemapSize, nrInodeBlocks] at *
  omega

theorem Layout.putBlockBit (h : Layout s) (hidx : idx < nrDataBlocks) :
    Layout (s.putBlockBit idx value used) where
  inodeFreemapStart := h.inodeFreemapStart
  blockFreemapStart := h.blockFreemapStart
  inodeBlocksStart := h.inodeBlocksStart
  dataBlocksStart := h.dataBlocksStart
  inodeBits := h.inodeBits
  blockBits := h.blockBits
  devLen := by rw [len_putBlockBit h hidx]; exact h.devLen

end PutBlockBit

theorem testfsWriteBlockFreemap_run (s : FsState) (idx : ℕ) :
    (testfsWriteBlockFreemap idx).run s = .ok ((), { s with
      dev := s.dev.put (s.sb.blockFreemapStart + idx / (blockSize * bitsPerWord))
        (freemapBlock s.blockFreemap (idx / (blockSize * bitsPerWord))) }) := by
  rw [testfsWriteBlockFreemap, Program.get_bind_run,
    writeBlocks_run (by positivity)]
  rfl

theorem testfsWriteSuperBlock_run (s : FsState) :
    testfsWriteSuperBlock.run s = .ok ((), { s with dev := s.dev.put 0 (encodeSuper s.sb) }) := by
  rw [testfsWriteSuperBlock, Program.gets_bind_run, writeBlocks_run (le_refl 0)]
  rfl

/-- The file system has reached its size limit or its freemap is full. -/
def FsState.Full (s : FsState) : Prop :=
  s.sb.maxFsBlocks ≤ s.sb.usedBlockCount ∨ ∀ idx < nrDataBlocks, s.blockFreemap.bit idx = true

theorem not_full {s : FsState} {idx : ℕ} (hidx : idx < nrDataBlocks)
    (hclear : s.blockFreemap.bit idx = false) (hroom : s.sb.usedBlockCount < s.sb.maxFsBlocks) :
    ¬ s.Full := by
  rintro (hlimit | hall)
  · exact absurd hroom (not_lt.mpr hlimit)
  · rw [hall idx hidx] at hclear
    exact Bool.false_ne_true hclear.symm

/-- `testfs_alloc_block` takes the block of a clear bit, or fails with `-ENOSPC` because the file
system is full. -/
theorem testfsAllocBlock_spec {s : FsState} (h : Layout s) :
    (∃ idx < nrDataBlocks, s.blockFreemap.bit idx = false ∧
      s.sb.usedBlockCount < s.sb.maxFsBlocks ∧
      testfsAllocBlock.run s = .ok ((firstDataBlock + idx : ℕ), s.takeBlock idx)) ∨
    (testfsAllocBlock.run s = .ok (-eNOSPC, s.failAlloc) ∧ s.Full) := by
  rw [testfsAllocBlock]
  simp only [Program.get_bind_run]
  by_cases hlimit : s.sb.usedBlockCount ≥ s.sb.maxFsBlocks
  · rw [if_pos hlimit]
    exact Or.inr ⟨rfl, Or.inl hlimit⟩
  rw [if_neg hlimit]
  rcases bitmapAlloc_spec h.paddedBlocks with ⟨idx, halloc, hidx, hclear, -⟩ | ⟨halloc, hfull⟩
  · rw [h.blockBits] at hidx
    refine Or.inl ⟨idx, hidx, hclear, by omega, ?_⟩
    have hget : testfsGetBlockFreemap.run s = .ok ((idx : ℤ), { s with
        blockFreemap := s.blockFreemap.put idx true
        dev := s.dev.put (s.sb.blockFreemapStart + idx / (blockSize * bitsPerWord))
          (freemapBlock (s.blockFreemap.put idx true) (idx / (blockSize * bitsPerWord))) }) := by
      rw [testfsGetBlockFreemap]
      simp only [Program.get_bind_run, halloc]
      rw [Program.run_bind (Program.ofExcept_ok_run _ _)]
      simp only [Program.modify_bind_run]
      rw [Program.run_bind (testfsWriteBlockFreemap_run _ _), Program.pure_run]
    rw [Program.run_bind hget, if_neg (by omega)]
    rw [Program.modify_bind_run, Program.run_bind (testfsWriteSuperBlock_run _), Program.pure_run]
    simp only [h.dataBlocksStart, FsState.takeBlock, FsState.putBlockBit]
    norm_num
  · refine Or.inr ⟨?_, Or.inr fun idx hidx ↦ hfull idx (by rw [h.blockBits]; exact hidx)⟩
    have hget : testfsGetBlockFreemap.run s = .ok (-eNOSPC, s) := by
      rw [testfsGetBlockFreemap]
      simp only [Program.get_bind_run, halloc]
      rw [Program.run_bind (Program.ofExcept_ok_run _ _)]
      rfl
    rw [Program.run_bind hget, if_pos (by norm_num)]
    rfl

/-- `testfs_free_block` of a block in use passes its assertions. -/
theorem testfsFreeBlock_run {s : FsState} (h : Layout s) {idx : ℕ} (hidx : idx < nrDataBlocks)
    (hset : s.blockFreemap.bit idx = true) (hused : 0 < s.sb.usedBlockCount) :
    (testfsFreeBlock (firstDataBlock + idx : ℕ)).run s = .ok (0, s.releaseBlock idx) := by
  have hnr : ((firstDataBlock + idx : ℕ) : ℤ) - (firstDataBlock : ℕ) = (idx : ℤ) := by
    push_cast
    ring
  have hunmark := bitmapUnmark_spec (b := s.blockFreemap) (i := idx)
    (by rw [h.blockBits]; exact hidx) hset
  rw [testfsFreeBlock, Program.run_bind (zeroBlocks_run (by positivity) s)]
  simp only [Program.get_bind_run, h.dataBlocksStart, hnr, Int.toNat_natCast]
  rw [Program.check_bind_run (by rw [h.dataBlocksStart, hnr]; positivity)]
  have hput : (testfsPutBlockFreemap idx).run
      { s with dev := s.dev.put (firstDataBlock + idx) Block.zero } = .ok ((), { s with
        blockFreemap := s.blockFreemap.put idx false
        dev := (s.dev.put (firstDataBlock + idx) Block.zero).put
          (s.sb.blockFreemapStart + idx / (blockSize * bitsPerWord))
          (freemapBlock (s.blockFreemap.put idx false) (idx / (blockSize * bitsPerWord))) }) := by
    rw [testfsPutBlockFreemap]
    simp only [Program.get_bind_run, hunmark]
    rw [Program.run_bind (Program.ofExcept_ok_run _ _), Program.modify_bind_run,
      testfsWriteBlockFreemap_run]
  rw [Program.run_bind hput, Program.check_bind_run hused, Program.modify_bind_run,
    Program.run_bind (testfsWriteSuperBlock_run _), Program.pure_run]
  simp only [FsState.releaseBlock, FsState.putBlockBit, h.dataBlocksStart]

/-! ### Inode numbers -/

/-- The state after bit `idx` of the inode freemap was set to `value` and the count of used
inodes to `used`, both written through. -/
def FsState.putInodeBit (s : FsState) (idx : ℕ) (value : Bool) (used : ℕ) : FsState :=
  let freemap := s.inodeFreemap.put idx value
  let sb := { s.sb with usedInodeCount := used }
  let nr := idx / (blockSize * bitsPerWord)
  { s with
    inodeFreemap := freemap
    sb := sb
    dev := (s.dev.put (s.sb.inodeFreemapStart + nr) (freemapBlock freemap nr)).put 0
      (encodeSuper sb) }

section PutInodeBit

variable {s : FsState} {idx : ℕ} {value : Bool} {used : ℕ}

theorem blocks_putInodeBit (h : Layout s) (hidx : idx < s.inodeFreemap.nbits) {b : ℕ}
    (hb : firstInodeBlock ≤ b) : (s.putInodeBit idx value used).dev.blocks b = s.dev.blocks b := by
  rw [h.inodeBits] at hidx
  have hnr : idx / (blockSize * bitsPerWord) = 0 := by
    simp only [blockSize, inodeFreemapSize, bitsPerWord] at *
    omega
  have hstart := h.inodeFreemapStart
  simp only [firstInodeBlock, superBlockSize, inodeFreemapSize, blockFreemapSize] at *
  rw [FsState.putInodeBit, hnr]
  rw [Device.blocks_put_of_ne _ _ (by omega), Device.blocks_put_of_ne _ _ (by omega)]

theorem len_putInodeBit (h : Layout s) (hidx : idx < s.inodeFreemap.nbits) :
    (s.putInodeBit idx value used).dev.len = s.dev.len := by
  rw [h.inodeBits] at hidx
  have hnr : idx / (blockSize * bitsPerWord) = 0 := by
    simp only [blockSize, inodeFreemapSize, bitsPerWord] at *
    omega
  have hstart := h.inodeFreemapStart
  have hlen := h.devLen
  simp only [FsState.putInodeBit, Device.put, hnr, firstDataBlock, firstInodeBlock, superBlockSize,
    inodeFreemapSize, blockFreemapSize, nrInodeBlocks] at *
  omega

theorem Layout.putInodeBit (h : Layout s) (hidx : idx < s.inodeFreemap.nbits) :
    Layout (s.putInodeBit idx value used) where
  inodeFreemapStart := h.inodeFreemapStart
  blockFreemapStart := h.blockFreemapStart
  inodeBlocksStart := h.inodeBlocksStart
  dataBlocksStart := h.dataBlocksStart
  inodeBits := h.inodeBits
  blockBits := h.blockBits
  devLen := by rw [len_putInodeBit h hidx]; exact h.devLen

end PutInodeBit

theorem testfsWriteInodeFreemap_run (s : FsState) (idx : ℕ) :
    (testfsWriteInodeFreemap idx).run s = .ok ((), { s with
      dev := s.dev.put (s.sb.inodeFreemapStart + idx / (blockSize * bitsPerWord))
        (freemapBlock s.inodeFreemap (idx / (blockSize * bitsPerWord))) }) := by
  rw [testfsWriteInodeFreemap, Program.get_bind_run, writeBlocks_run (by positivity)]
  rfl

/-- `testfs_get_inode_freemap` takes the least clear bit, or fails when the freemap is full. -/
theorem testfsGetInodeFreemap_spec {s : FsState} (h : Layout s) :
    (∃ idx < s.inodeFreemap.nbits, s.inodeFreemap.bit idx = false ∧
      (∀ j < idx, s.inodeFreemap.bit j = true) ∧ testfsGetInodeFreemap.run s =
        .ok ((idx : ℤ), s.putInodeBit idx true (s.sb.usedInodeCount + 1))) ∨
    (testfsGetInodeFreemap.run s = .ok (-eNOSPC, s) ∧
      ∀ idx < s.inodeFreemap.nbits, s.inodeFreemap.bit idx = true) := by
  rw [testfsGetInodeFreemap]
  simp only [Program.get_bind_run]
  rcases bitmapAlloc_spec h.paddedInodes with ⟨idx, halloc, hidx, hclear, hleast⟩ | ⟨halloc, hfull⟩
  · refine Or.inl ⟨idx, hidx, hclear, hleast, ?_⟩
    rw [halloc, Program.run_bind (Program.ofExcept_ok_run _ _)]
    simp only [Program.modify_bind_run]
    rw [Program.run_bind (testfsWriteInodeFreemap_run _ _), Program.modify_bind_run,
      Program.run_bind (testfsWriteSuperBlock_run _), Program.pure_run]
    rfl
  · refine Or.inr ⟨?_, hfull⟩
    rw [halloc, Program.run_bind (Program.ofExcept_ok_run _ _)]
    rfl

/-- `testfs_put_inode_freemap` of an inode number in use passes its assertions. -/
theorem testfsPutInodeFreemap_run {s : FsState} {idx : ℕ} (hidx : idx < s.inodeFreemap.nbits)
    (hset : s.inodeFreemap.bit idx = true) (hused : 0 < s.sb.usedInodeCount) :
    (testfsPutInodeFreemap idx).run s =
      .ok ((), s.putInodeBit idx false (s.sb.usedInodeCount - 1)) := by
  rw [testfsPutInodeFreemap]
  simp only [Program.get_bind_run]
  rw [bitmapUnmark_spec hidx hset, Program.run_bind (Program.ofExcept_ok_run _ _),
    Program.modify_bind_run, Program.run_bind (testfsWriteInodeFreemap_run _ _),
    Program.check_bind_run hused, Program.modify_bind_run, testfsWriteSuperBlock_run]
  rfl

/-! ### In-memory inodes -/

section InMemory

variable {s : FsState} {i : ℕ} {inode : Inode}

@[simp] theorem inodeHashTable_setInode_self (s : FsState) (i : ℕ) (inode : Option Inode) :
    (s.setInode i inode).inodeHashTable i = inode := by
  simp [FsState.setInode]

theorem inodeHashTable_setInode_of_ne (s : FsState) {i j : ℕ} (inode : Option Inode) (h : j ≠ i) :
    (s.setInode i inode).inodeHashTable j = s.inodeHashTable j := by
  simp [FsState.setInode, h]

@[simp] theorem setInode_setInode (s : FsState) (i : ℕ) (first second : Option Inode) :
    (s.setInode i first).setInode i second = s.setInode i second := by
  simp [FsState.setInode]

theorem setInode_self (h : s.inodeHashTable i = some inode) : s.setInode i (some inode) = s := by
  rw [FsState.setInode, ← h, Function.update_eq_self]

theorem Layout.setInode (h : Layout s) (i : ℕ) (inode : Option Inode) :
    Layout (s.setInode i inode) where
  inodeFreemapStart := h.inodeFreemapStart
  blockFreemapStart := h.blockFreemapStart
  inodeBlocksStart := h.inodeBlocksStart
  dataBlocksStart := h.dataBlocksStart
  inodeBits := h.inodeBits
  blockBits := h.blockBits
  devLen := h.devLen

theorem inodeRef_run (h : s.inodeHashTable i = some inode) :
    (inodeRef i).run s = .ok (inode, s) := by
  simp [inodeRef, h]

theorem inodeRef_eq_ok {s s' : FsState} {inode : Inode} (h : (inodeRef i).run s = .ok (inode, s')) :
    s.inodeHashTable i = some inode ∧ s' = s := by
  simp only [inodeRef, Program.gets_bind_run] at h
  cases htable : s.inodeHashTable i with
  | none => simp [htable] at h
  | some found =>
    simp only [htable, Program.pure_run, Except.ok.injEq, Prod.mk.injEq] at h
    exact ⟨by rw [h.1], h.2.symm⟩

theorem modifyDinode_run (h : s.inodeHashTable i = some inode) (f : Dinode → Dinode) :
    (modifyDinode i f).run s = .ok ((), s.setInode i (some { inode with din := f inode.din })) := by
  rw [modifyDinode, Program.run_bind (inodeRef_run h)]
  rfl

theorem markDirty_run (h : s.inodeHashTable i = some inode) :
    (markDirty i).run s = .ok ((), s.setInode i (some { inode with dirty := true })) := by
  rw [markDirty, Program.run_bind (inodeRef_run h)]
  rfl

/-- The inode after the number of its blocks changed. -/
def Inode.addCount (inode : Inode) (n : ℤ) : Inode :=
  { inode with din := { inode.din with blockCount := inode.din.blockCount + n }, dirty := true }

/-- `testfs_alloc_block_for_inode` takes a block and counts it, or fails. -/
theorem testfsAllocBlockForInode_spec (hl : Layout s) (h : s.inodeHashTable i = some inode) :
    (∃ idx < nrDataBlocks, s.blockFreemap.bit idx = false ∧
      s.sb.usedBlockCount < s.sb.maxFsBlocks ∧
      (testfsAllocBlockForInode i).run s = .ok ((firstDataBlock + idx : ℕ),
        (s.takeBlock idx).setInode i (some (inode.addCount 1)))) ∨
    ((testfsAllocBlockForInode i).run s = .ok (-eNOSPC, s.failAlloc) ∧
      s.Full) := by
  rw [testfsAllocBlockForInode]
  rcases testfsAllocBlock_spec hl with ⟨idx, hidx, hclear, hroom, halloc⟩ | ⟨halloc, hfull⟩
  · refine Or.inl ⟨idx, hidx, hclear, hroom, ?_⟩
    have htable : (s.takeBlock idx).inodeHashTable i = some inode := h
    rw [Program.run_bind halloc, if_pos (by positivity),
      Program.run_bind (modifyDinode_run htable _),
      Program.run_bind (markDirty_run (inodeHashTable_setInode_self _ _ _)), Program.pure_run,
      setInode_setInode]
    rfl
  · refine Or.inr ⟨?_, hfull⟩
    rw [Program.run_bind halloc, if_neg (by norm_num), Program.pure_run]

/-- `testfs_free_block_from_inode` of a block in use. -/
theorem testfsFreeBlockFromInode_run (hl : Layout s) (h : s.inodeHashTable i = some inode)
    {idx : ℕ} (hidx : idx < nrDataBlocks) (hset : s.blockFreemap.bit idx = true)
    (hused : 0 < s.sb.usedBlockCount) :
    (testfsFreeBlockFromInode i (firstDataBlock + idx : ℕ)).run s =
      .ok ((), (s.releaseBlock idx).setInode i (some (inode.addCount (-1)))) := by
  have hne : ((firstDataBlock + idx : ℕ) : ℤ) ≠ 0 := by positivity
  have htable : (s.releaseBlock idx).inodeHashTable i = some inode := h
  rw [testfsFreeBlockFromInode, if_neg hne, Program.run_bind
    (testfsFreeBlock_run hl hidx hset hused), Program.run_bind (modifyDinode_run htable _),
    markDirty_run (inodeHashTable_setInode_self _ _ _), setInode_setInode]
  rfl

end InMemory

end OperatingSystems.Fs
