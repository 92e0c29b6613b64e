import OperatingSystems.Fs.Commands
import OperatingSystems.Fs.Create

/-!
# Mounting a file system

`testfs_init_super_block` reads back what `testfs_close_super_block` wrote, so a file system that
was closed and mounted again is the same (`Sound.remount`). A device fresh from `mktestfs` holds a
sound file system with an empty root directory, or with nothing when it has no data blocks.
-/

set_option autoImplicit false
set_option relaxedAutoImplicit false

namespace OperatingSystems.Fs

open Library

/-! ### The super block -/

/-- The fields of the super block fit their types. -/
structure DsuperBlock.Fits (sb : DsuperBlock) : Prop where
  word : ∀ k, sb.word k < 256 ^ 4
  maxFsBlocks : sb.maxFsBlocks < 256 ^ 8

/-- A super block with the layout of `mktestfs` and counts within the freemaps. -/
theorem DsuperBlock.fits_of_le {sb : DsuperBlock} (hinode : sb.inodeFreemapStart = superBlockSize)
    (hblock : sb.blockFreemapStart = superBlockSize + inodeFreemapSize)
    (hinodes : sb.inodeBlocksStart = firstInodeBlock) (hdata : sb.dataBlocksStart = firstDataBlock)
    (husedInodes : sb.usedInodeCount ≤ blockSize * inodeFreemapSize * bitsPerWord)
    (husedBlocks : sb.usedBlockCount ≤ nrDataBlocks) (hmax : sb.maxFsBlocks ≤ nrDataBlocks) :
    sb.Fits := by
  refine ⟨fun k ↦ ?_, lt_of_le_of_lt hmax (by decide)⟩
  match k with
  | 0 => exact lt_of_eq_of_lt hinode (by decide)
  | 1 => exact lt_of_eq_of_lt hblock (by decide)
  | 2 => exact lt_of_eq_of_lt hinodes (by decide)
  | 3 => exact lt_of_eq_of_lt hdata (by decide)
  | 4 => exact lt_of_le_of_lt husedInodes (by decide)
  | 5 => exact lt_of_le_of_lt husedBlocks (by decide)
  | k + 6 => exact (by decide : 0 < 256 ^ 4)

/-- The super block that is read is the one that was written. -/
theorem decodeSuper_encodeSuper {sb : DsuperBlock} (h : sb.Fits) : decodeSuper
    (encodeSuper sb) = sb := by
  have hword : ∀ k < 6, wordAt 4 (encodeSuper sb).byte k = sb.word k := by
    intro k hk
    rw [wordAt_of_leByte (v := sb.word k), Nat.mod_eq_of_lt (h.word k)]
    intro j hj
    have hdiv : (4 * k + j) / 4 = k := by omega
    have hmod : (4 * k + j) % 4 = j := by omega
    rw [encodeSuper, Block.byte_ofBytes (by simp only [blockSize]; omega), if_pos (by omega), hdiv,
      hmod]
  have hmax : wordAt 8 (encodeSuper sb).byte 3 = sb.maxFsBlocks := by
    rw [wordAt_of_leByte (v := sb.maxFsBlocks), Nat.mod_eq_of_lt h.maxFsBlocks]
    intro j hj
    have hsub : 8 * 3 + j - 24 = j := by omega
    rw [encodeSuper, Block.byte_ofBytes (by simp only [blockSize]; omega), if_neg (by omega),
      if_pos (by omega), hsub]
  rw [decodeSuper, hword 0 (by decide), hword 1 (by decide), hword 2 (by decide),
    hword 3 (by decide), hword 4 (by decide), hword 5 (by decide), hmax]
  rfl

/-! ### Mounting -/

/-- The state that `testfs_init_super_block` makes from a device with the super block `sb`. -/
def FsState.mounted (s : FsState) (sb : DsuperBlock) : FsState :=
  { s with
    sb := sb
    inodeFreemap := loadFreemap (blockSize * inodeFreemapSize * bitsPerWord)
      fun k ↦ s.dev.blocks (sb.inodeFreemapStart + k)
    blockFreemap := loadFreemap (blockSize * blockFreemapSize * bitsPerWord)
      fun k ↦ s.dev.blocks (sb.blockFreemapStart + k)
    inodeHashTable := fun _ ↦ none }

theorem readBlocks_run {s : FsState} {start nr : ℕ} (h : start + nr ≤ s.dev.len) :
    (readBlocks start nr).run s = .ok ((fun k ↦ s.dev.blocks (start + k)), s) := by
  rw [readBlocks, Program.gets_bind_run, Program.check_bind_run (Int.natCast_nonneg start),
    Int.toNat_natCast, Program.check_bind_run h, Program.pure_run]

theorem testfsInitSuperBlock_run {s : FsState} {sb : DsuperBlock}
    (hlen : firstDataBlock ≤ s.dev.len)
    (hsuper : s.dev.blocks 0 = encodeSuper sb) (hfits : sb.Fits)
    (hinode : sb.inodeFreemapStart = superBlockSize)
    (hblock : sb.blockFreemapStart = superBlockSize + inodeFreemapSize) :
    testfsInitSuperBlock.run s = .ok ((), s.mounted sb) := by
  have hread : (readBlock 0).run s = .ok (encodeSuper sb, s) := by
    rw [readBlock_run le_rfl (lt_of_lt_of_le (by decide) hlen)]
    exact congrArg (fun b ↦ Except.ok (b, s)) hsuper
  have hinodes : sb.inodeFreemapStart + inodeFreemapSize ≤ s.dev.len := by
    rw [hinode]
    exact le_trans (by decide) hlen
  have hblocks : sb.blockFreemapStart + blockFreemapSize ≤ s.dev.len := by
    rw [hblock]
    exact le_trans (by decide) hlen
  rw [testfsInitSuperBlock, Program.run_bind hread]
  simp only [decodeSuper_encodeSuper hfits]
  rw [Program.run_bind (readBlocks_run hinodes), Program.run_bind (readBlocks_run hblocks),
    Program.modify_run]
  rfl

/-- The bits of a freemap read from its blocks. -/
theorem bit_loadFreemap (nbits : ℕ) (blocks : ℕ → Block) (idx : ℕ) :
    (loadFreemap nbits blocks).bit idx =
      wordBit ((blocks (idx / 8 / blockSize)).byte (idx / 8 % blockSize)) (idx % 8) := rfl

/-- A freemap that is written and read has the same bits. -/
theorem bit_loadFreemap_freemapBlock (nbits : ℕ) (b : Bitmap) (idx : ℕ) (blocks : ℕ → Block)
    {nr : ℕ} (hnr : idx / 8 / blockSize = nr) (h : blocks nr = freemapBlock b nr) :
    (loadFreemap nbits blocks).bit idx = b.bit idx := by
  subst hnr
  have hmod := Nat.mod_lt (idx / 8) (by decide : 0 < blockSize)
  have hdiv : idx / 8 / blockSize * blockSize + idx / 8 % blockSize = idx / 8 := by
    rw [mul_comm]
    exact Nat.div_add_mod _ _
  rw [bit_loadFreemap, h, freemapBlock, Block.byte_ofBytes hmod, hdiv, Bitmap.bit]

theorem inodeFreemap_mounted (s : FsState) (sb : DsuperBlock) : (s.mounted sb).inodeFreemap =
    loadFreemap (blockSize * inodeFreemapSize * bitsPerWord)
      fun k ↦ s.dev.blocks (sb.inodeFreemapStart + k) := rfl

theorem blockFreemap_mounted (s : FsState) (sb : DsuperBlock) : (s.mounted sb).blockFreemap =
    loadFreemap (blockSize * blockFreemapSize * bitsPerWord)
      fun k ↦ s.dev.blocks (sb.blockFreemapStart + k) := rfl

/-- The super block and the freemaps on disk are those in memory. -/
structure Stored (s : FsState) : Prop where
  super : s.dev.blocks 0 = encodeSuper s.sb
  inodeFreemap : ∀ k < inodeFreemapSize,
    s.dev.blocks (s.sb.inodeFreemapStart + k) = freemapBlock s.inodeFreemap k
  blockFreemap : ∀ k < blockFreemapSize,
    s.dev.blocks (s.sb.blockFreemapStart + k) = freemapBlock s.blockFreemap k

/-- The blocks of a freemap that was read are the blocks it was read from. -/
theorem freemapBlock_loadFreemap (nbits : ℕ) (blocks : ℕ → Block) (k : ℕ) :
    freemapBlock (loadFreemap nbits blocks) k = blocks k := by
  apply Block.ext
  intro j hj
  have hdiv : (k * blockSize + j) / blockSize = k := by
    rw [mul_comm, Nat.mul_add_div (by decide), Nat.div_eq_of_lt hj, add_zero]
  have hmod : (k * blockSize + j) % blockSize = j := by
    rw [mul_comm, Nat.mul_add_mod, Nat.mod_eq_of_lt hj]
  rw [freemapBlock, Block.byte_ofBytes hj, loadFreemap]
  simp only [hdiv, hmod]

theorem stored_mounted {s : FsState} {sb : DsuperBlock} (hsuper : s.dev.blocks 0 = encodeSuper sb) :
    Stored (s.mounted sb) where
  super := hsuper
  inodeFreemap := fun k _ ↦ by rw [inodeFreemap_mounted, freemapBlock_loadFreemap]; rfl
  blockFreemap := fun k _ ↦ by rw [blockFreemap_mounted, freemapBlock_loadFreemap]; rfl

/-! ### Closing -/

theorem writeBlocks_many_run (blocks : ℕ → Block) (start nr : ℕ) (s : FsState) :
    (writeBlocks blocks start nr).run s = .ok
      ((), { s with dev := s.dev.write blocks start nr }) := by
  rw [writeBlocks, Program.check_bind_run (Int.natCast_nonneg start), Program.modify_run,
    Int.toNat_natCast]

/-- The device after `testfs_close_super_block`. -/
def FsState.closedDev (s : FsState) : Device :=
  ((s.dev.put 0 (encodeSuper s.sb)).write (freemapBlock s.inodeFreemap) s.sb.inodeFreemapStart
    inodeFreemapSize).write (freemapBlock s.blockFreemap) s.sb.blockFreemapStart blockFreemapSize

theorem testfsCloseSuperBlock_run {s : FsState} (hempty : ∀ i, s.inodeHashTable i = none) :
    testfsCloseSuperBlock.run s = .ok ((), { s with dev := s.closedDev }) := by
  rw [testfsCloseSuperBlock, Program.run_bind (testfsWriteSuperBlock_run s), Program.get_bind_run,
    Program.check_bind_run (fun i _ ↦ by simp [hempty]), Program.run_bind
      (writeBlocks_many_run _ _ _ _),
    writeBlocks_many_run]
  rfl

section Closed

variable {s : FsState}

theorem Device.blocks_write_of_notMem (dev : Device) (blocks : ℕ → Block) {start nr b : ℕ}
    (h : b < start ∨ start + nr ≤ b) : (dev.write blocks start nr).blocks b = dev.blocks b :=
  if_neg (by omega)

theorem Device.blocks_write_of_mem (dev : Device) (blocks : ℕ → Block) {start nr b : ℕ}
    (h : start ≤ b ∧ b < start + nr) : (dev.write blocks start nr).blocks b = blocks (b - start) :=
  if_pos h

theorem Device.len_le_write (dev : Device) (blocks : ℕ → Block) (start nr : ℕ) :
    dev.len ≤ (dev.write blocks start nr).len := by
  rw [Device.write]
  split_ifs
  · exact le_rfl
  · exact le_max_left _ _

theorem closedDev_blocks (h : Layout s) {b : ℕ} (hb : firstInodeBlock ≤ b) :
    s.closedDev.blocks b = s.dev.blocks b := by
  have hinode := h.inodeFreemapStart
  have hblock := h.blockFreemapStart
  simp only [firstInodeBlock, superBlockSize, inodeFreemapSize, blockFreemapSize] at *
  rw [FsState.closedDev, Device.blocks_write_of_notMem _ _ (by simp only [blockFreemapSize]; omega),
    Device.blocks_write_of_notMem _ _ (by simp only [inodeFreemapSize]; omega),
    Device.blocks_put_of_ne _ _ (by omega)]

theorem closedDev_super (h : Layout s) : s.closedDev.blocks 0 = encodeSuper s.sb := by
  have hinode := h.inodeFreemapStart
  have hblock := h.blockFreemapStart
  simp only [superBlockSize, inodeFreemapSize] at *
  rw [FsState.closedDev, Device.blocks_write_of_notMem _ _ (by omega),
    Device.blocks_write_of_notMem _ _ (by omega), Device.blocks_put_self]

theorem closedDev_inodeFreemap (h : Layout s) :
    s.closedDev.blocks s.sb.inodeFreemapStart = freemapBlock s.inodeFreemap 0 := by
  have hinode := h.inodeFreemapStart
  have hblock := h.blockFreemapStart
  simp only [superBlockSize, inodeFreemapSize] at *
  rw [FsState.closedDev, Device.blocks_write_of_notMem _ _ (by omega),
    Device.blocks_write_of_mem _ _ (by simp only [inodeFreemapSize]; omega), Nat.sub_self]

theorem closedDev_blockFreemap {k : ℕ} (hk : k < blockFreemapSize) :
    s.closedDev.blocks (s.sb.blockFreemapStart + k) = freemapBlock s.blockFreemap k := by
  rw [FsState.closedDev, Device.blocks_write_of_mem _ _ (by omega), Nat.add_sub_cancel_left]

theorem closedDev_len (s : FsState) : s.dev.len ≤ s.closedDev.len :=
  ((s.dev.len_le_put _ _).trans (Device.len_le_write _ _ _ _)).trans (Device.len_le_write _ _ _ _)

/-- No more inode numbers are in use than the freemap has bits. -/
theorem Layout.card_inodes_le (h : Layout s) :
    s.inodeFreemap.allocated.card ≤ blockSize * inodeFreemapSize * bitsPerWord := by
  refine (Finset.card_filter_le _ _).trans ?_
  rw [Finset.card_range, h.inodeBits]

/-- The super block of a sound file system fits its place on disk. -/
theorem Sound.sb_fits (h : Sound s) (hmax : s.sb.maxFsBlocks ≤ nrDataBlocks) : s.sb.Fits :=
  have hlayout := h.core.layout
  DsuperBlock.fits_of_le hlayout.inodeFreemapStart hlayout.blockFreemapStart
    hlayout.inodeBlocksStart hlayout.dataBlocksStart (h.inodes.le.trans hlayout.card_inodes_le)
    (h.core.limit.trans hmax) hmax

end Closed

/-- The file system `t` is `s` after it was closed and mounted again. -/
structure Remounted (s t : FsState) : Prop where
  sound : Sound t
  sb : t.sb = s.sb
  inodes : t.inodeFreemap.allocated = s.inodeFreemap.allocated
  empty : ∀ i, t.inodeHashTable i = none
  dinode : ∀ i < nrInodes, t.dinode i = s.dinode i
  own : ∀ i < nrInodes, t.own i = s.own i
  content : ∀ i < nrInodes, t.content i = s.content i
  allocFailed : t.allocFailed = s.allocFailed
  stored : Stored t

/-- Closing a file system without in-memory inodes and mounting it again. -/
theorem Sound.remount {s : FsState} (h : Sound s) (hmax : s.sb.maxFsBlocks ≤ nrDataBlocks)
    (hempty : ∀ i, s.inodeHashTable i = none) :
    ∃ u t, testfsCloseSuperBlock.run s = .ok ((), u) ∧ testfsInitSuperBlock.run u = .ok ((), t) ∧
      Remounted s t := by
  have hlayout := h.core.layout
  obtain ⟨u, hu⟩ : ∃ u, u = { s with dev := s.closedDev } := ⟨_, rfl⟩
  have hublocks : ∀ b, firstInodeBlock ≤ b → u.dev.blocks b = s.dev.blocks b :=
    fun b hb ↦ by rw [hu]; exact closedDev_blocks hlayout hb
  have hulen : s.dev.len ≤ u.dev.len := by rw [hu]; exact closedDev_len s
  have hrun : testfsInitSuperBlock.run u = .ok ((), u.mounted s.sb) := by
    apply testfsInitSuperBlock_run (hlayout.devLen.trans hulen)
    · rw [hu]
      exact closedDev_super hlayout
    · exact h.sb_fits hmax
    · exact hlayout.inodeFreemapStart
    · exact hlayout.blockFreemapStart
  have hinodeBits : ∀ idx < s.inodeFreemap.nbits,
      (u.mounted s.sb).inodeFreemap.bit idx = s.inodeFreemap.bit idx := by
    intro idx hidx
    rw [hlayout.inodeBits] at hidx
    have hzero : idx / 8 / blockSize = 0 := by
      simp only [blockSize, inodeFreemapSize, bitsPerWord] at *
      omega
    rw [inodeFreemap_mounted]
    refine bit_loadFreemap_freemapBlock _ _ _ _ hzero ?_
    rw [add_zero, hu]
    exact closedDev_inodeFreemap hlayout
  have hblockBits : ∀ idx < nrDataBlocks,
      (u.mounted s.sb).blockFreemap.bit idx = s.blockFreemap.bit idx := by
    intro idx hidx
    have hnr : idx / 8 / blockSize < blockFreemapSize := by
      simp only [blockSize, nrDataBlocks, blockFreemapSize] at *
      omega
    rw [blockFreemap_mounted]
    refine bit_loadFreemap_freemapBlock _ _ _ _ rfl ?_
    rw [hu]
    exact closedDev_blockFreemap hnr
  have hlayout' : Layout (u.mounted s.sb) := ⟨hlayout.inodeFreemapStart, hlayout.blockFreemapStart,
    hlayout.inodeBlocksStart, hlayout.dataBlocksStart, rfl, rfl, hlayout.devLen.trans hulen⟩
  have hdisk : ∀ i < nrInodes, (u.mounted s.sb).diskDinode i = s.diskDinode i :=
    fun i hi ↦ diskDinode_congr hlayout rfl (fun b hb _ ↦ hublocks b hb) hi
  have hdinode : ∀ i < nrInodes, (u.mounted s.sb).dinode i = s.dinode i := by
    intro i hi
    have htable : (u.mounted s.sb).inodeHashTable i = none := rfl
    rw [dinode_of_none htable, dinode_of_none (hempty i), hdisk i hi]
  have hdata : ∀ i < nrInodes, ∀ σ, s.own i σ ≠ 0 →
      (u.mounted s.sb).dev.blocks (s.own i σ).toNat = s.dev.blocks (s.own i σ).toNat :=
    fun i hi σ hσ ↦ hublocks _ (le_trans (by decide) (h.core.own_toNat hi hσ).2.1)
  have hown : ∀ i < nrInodes, (u.mounted s.sb).own i = s.own i :=
    fun i hi ↦ own_congr (by rw [hdinode i hi]) fun σ _ hσ ↦ hdata i hi σ hσ
  have hinodes : (u.mounted s.sb).inodeFreemap.allocated = s.inodeFreemap.allocated := by
    ext idx
    rw [Bitmap.mem_allocated, Bitmap.mem_allocated, hlayout'.inodeBits, hlayout.inodeBits]
    refine and_congr_right fun hidx ↦ ?_
    rw [hinodeBits idx (by rw [hlayout.inodeBits]; exact hidx)]
  have hcore : Core (u.mounted s.sb) := by
    refine h.core.congr hlayout' hown (fun i hi ↦ by rw [hdinode i hi]) hblockBits rfl rfl ?_ ?_
    · exact fun idx _ _ ↦ hublocks _ (le_trans (by decide : firstInodeBlock ≤ firstDataBlock)
        (Nat.le_add_right _ _))
    · exact fun j inode hj ↦ Option.noConfusion rfl (heq_of_eq hj)
  refine ⟨u, _, by rw [hu]; exact testfsCloseSuperBlock_run hempty, hrun,
    ⟨hcore, ?_, ?_, ?_, ?_, ?_⟩, rfl, hinodes, fun _ ↦ rfl, hdinode, hown, ?_, ?_, ?_⟩
  · intro idx hidx hset
    rw [hblockBits idx hidx] at hset
    exact (h.reached idx hidx hset).trans_le hulen
  · intro i hi
    rw [hown i hi, hdinode i hi]
    exact h.extent i hi
  · exact fun i inode hi ↦ Option.noConfusion rfl (heq_of_eq hi)
  · exact fun i inode hi ↦ Option.noConfusion rfl (heq_of_eq hi)
  · rw [hinodes]
    exact h.inodes
  · exact fun i hi ↦ content_congr (hown i hi) fun σ _ hσ ↦ hdata i hi σ hσ
  · rw [hu]
    rfl
  · apply stored_mounted
    rw [hu]
    exact closedDev_super hlayout

end OperatingSystems.Fs
