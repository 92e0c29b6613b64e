import OperatingSystems.Fs.Fresh
import OperatingSystems.Library.Machine

/-!
# Allocation metadata is written through

A run calls `testfs_alloc_block`, `testfs_free_block`, `testfs_get_inode_freemap` and
`testfs_put_inode_freemap` on a file system that `mktestfs` made and `testfs_init_super_block`
mounted; what it releases is in use. Each call changes one bit, rewrites the one freemap block
that holds it and the super block, and so keeps the copy on disk equal to the one in memory
(`Stored`). A mount at any moment of the run therefore finds the metadata in memory again.
-/

set_option autoImplicit false
set_option relaxedAutoImplicit false

namespace OperatingSystems.Fs

open Library Library.Machine

/-! ### Calls -/

/-- A call of a function of `super.c` that allocates or releases. -/
inductive SuperOp
  | allocBlock
  | freeBlock (blockNr : ℤ)
  | getInodeFreemap
  | putInodeFreemap (inodeNr : ℕ)

namespace SuperOp

/-- The call without its result. -/
def call : SuperOp → FsProgram Unit
  | .allocBlock => do let _ ← testfsAllocBlock
  | .freeBlock blockNr => do let _ ← testfsFreeBlock blockNr
  | .getInodeFreemap => do let _ ← testfsGetInodeFreemap
  | .putInodeFreemap inodeNr => testfsPutInodeFreemap inodeNr

/-- What the call releases is in use. -/
def ReleasesUsed (s : FsState) : SuperOp → Prop
  | .allocBlock => True
  | .freeBlock blockNr =>
    ∃ idx ∈ s.blockFreemap.allocated, blockNr = (s.sb.dataBlocksStart + idx : ℕ)
  | .getInodeFreemap => True
  | .putInodeFreemap inodeNr => inodeNr ∈ s.inodeFreemap.allocated

/-- The block is the one that the call releases. -/
def Releases : SuperOp → ℕ → Prop
  | .allocBlock, _ => False
  | .freeBlock blockNr, b => blockNr = b
  | .getInodeFreemap, _ => False
  | .putInodeFreemap _, _ => False

/-- The state in which the call returns, if it does. -/
def step (s : FsState) (op : SuperOp) : Option FsState := (op.call.run s).toOption.map Prod.snd

end SuperOp

/-- The block holds the super block or a part of a freemap. -/
def FsState.IsMetadata (s : FsState) (b : ℕ) : Prop :=
  b = 0 ∨ (s.sb.inodeFreemapStart ≤ b ∧ b < s.sb.inodeFreemapStart + inodeFreemapSize) ∨
    s.sb.blockFreemapStart ≤ b ∧ b < s.sb.blockFreemapStart + blockFreemapSize

/-! ### One bit is in one block -/

section Bits

variable {s : FsState} {idx used : ℕ} {value : Bool}

/-- A bit is in one block of its freemap. -/
theorem freemapBlock_put_of_ne (b : Bitmap) {k : ℕ} (h : k ≠ idx / (blockSize * bitsPerWord)) :
    freemapBlock (b.put idx value) k = freemapBlock b k := by
  apply Block.ext
  intro j hj
  rw [freemapBlock, freemapBlock, Block.byte_ofBytes hj, Block.byte_ofBytes hj, Bitmap.put]
  refine Function.update_of_ne ?_ _ _
  simp only [blockSize, bitsPerWord] at *
  omega

theorem Stored.putBlockBit (h : Stored s) (hl : Layout s) (hidx : idx < nrDataBlocks) :
    Stored (s.putBlockBit idx value used) := by
  have hinode := hl.inodeFreemapStart
  have hblock := hl.blockFreemapStart
  have hnr : idx / (blockSize * bitsPerWord) < blockFreemapSize := by
    simp only [nrDataBlocks, blockSize, blockFreemapSize, bitsPerWord] at *
    omega
  refine ⟨Device.blocks_put_self _ _ _, ?_, ?_⟩
  · intro k hk
    change (Device.put _ _ _).blocks (s.sb.inodeFreemapStart + k) = freemapBlock s.inodeFreemap k
    simp only [superBlockSize, inodeFreemapSize] at *
    generalize idx / (blockSize * bitsPerWord) = nr at *
    rw [Device.blocks_put_of_ne _ _ (by omega), Device.blocks_put_of_ne _ _ (by omega),
      h.inodeFreemap k hk]
  · intro k hk
    change (Device.put _ _ _).blocks (s.sb.blockFreemapStart + k) =
      freemapBlock (s.blockFreemap.put idx value) k
    rw [Device.blocks_put_of_ne _ _ (by simp only [superBlockSize, inodeFreemapSize] at *; omega)]
    by_cases hk' : k = idx / (blockSize * bitsPerWord)
    · rw [hk', Device.blocks_put_self]
    · rw [Device.blocks_put_of_ne _ _ (by omega), freemapBlock_put_of_ne _ hk', h.blockFreemap k hk]

theorem Stored.putInodeBit (h : Stored s) (hl : Layout s) (hidx : idx < s.inodeFreemap.nbits) :
    Stored (s.putInodeBit idx value used) := by
  have hinode := hl.inodeFreemapStart
  have hblock := hl.blockFreemapStart
  rw [hl.inodeBits] at hidx
  have hnr : idx / (blockSize * bitsPerWord) < inodeFreemapSize := by
    simp only [blockSize, inodeFreemapSize, bitsPerWord] at *
    omega
  refine ⟨Device.blocks_put_self _ _ _, ?_, ?_⟩
  · intro k hk
    change (Device.put _ _ _).blocks (s.sb.inodeFreemapStart + k) =
      freemapBlock (s.inodeFreemap.put idx value) k
    rw [Device.blocks_put_of_ne _ _ (by simp only [superBlockSize] at *; omega)]
    by_cases hk' : k = idx / (blockSize * bitsPerWord)
    · rw [hk', Device.blocks_put_self]
    · rw [Device.blocks_put_of_ne _ _ (by omega), freemapBlock_put_of_ne _ hk', h.inodeFreemap k hk]
  · intro k hk
    change (Device.put _ _ _).blocks (s.sb.blockFreemapStart + k) = freemapBlock s.blockFreemap k
    simp only [superBlockSize, inodeFreemapSize] at *
    generalize idx / (blockSize * bitsPerWord) = nr at *
    rw [Device.blocks_put_of_ne _ _ (by omega), Device.blocks_put_of_ne _ _ (by omega),
      h.blockFreemap k hk]

/-- A data block holds no metadata. -/
theorem Stored.putData (h : Stored s) (hl : Layout s) {b : ℕ} (hb : firstDataBlock ≤ b)
    (block : Block) : Stored { s with dev := s.dev.put b block } := by
  have hinode := hl.inodeFreemapStart
  have hblock := hl.blockFreemapStart
  simp only [firstDataBlock, firstInodeBlock, superBlockSize, inodeFreemapSize, blockFreemapSize,
    nrInodeBlocks] at *
  refine ⟨?_, ?_, ?_⟩
  · rw [Device.blocks_put_of_ne _ _ (by omega), h.super]
  · intro k hk
    change (s.dev.put b block).blocks (s.sb.inodeFreemapStart + k) = freemapBlock s.inodeFreemap k
    rw [Device.blocks_put_of_ne _ _ (by simp only [inodeFreemapSize] at hk; omega),
      h.inodeFreemap k hk]
  · intro k hk
    change (s.dev.put b block).blocks (s.sb.blockFreemapStart + k) = freemapBlock s.blockFreemap k
    rw [Device.blocks_put_of_ne _ _ (by simp only [blockFreemapSize] at hk; omega),
      h.blockFreemap k hk]

/-- Only metadata is written when a bit changes. -/
theorem kept_putBlockBit (hidx : idx < nrDataBlocks) {b : ℕ} (hb : ¬ s.IsMetadata b) :
    (s.putBlockBit idx value used).dev.blocks b = s.dev.blocks b := by
  have hnr : idx / (blockSize * bitsPerWord) < blockFreemapSize := by
    simp only [nrDataBlocks, blockSize, blockFreemapSize, bitsPerWord] at *
    omega
  rw [FsState.IsMetadata] at hb
  rw [FsState.putBlockBit]
  generalize idx / (blockSize * bitsPerWord) = nr at *
  rw [Device.blocks_put_of_ne _ _ (by omega), Device.blocks_put_of_ne _ _ (by omega)]

theorem kept_putInodeBit (hl : Layout s) (hidx : idx < s.inodeFreemap.nbits) {b : ℕ}
    (hb : ¬ s.IsMetadata b) : (s.putInodeBit idx value used).dev.blocks b = s.dev.blocks b := by
  rw [hl.inodeBits] at hidx
  have hnr : idx / (blockSize * bitsPerWord) < inodeFreemapSize := by
    simp only [blockSize, inodeFreemapSize, bitsPerWord] at *
    omega
  rw [FsState.IsMetadata] at hb
  rw [FsState.putInodeBit]
  generalize idx / (blockSize * bitsPerWord) = nr at *
  rw [Device.blocks_put_of_ne _ _ (by omega), Device.blocks_put_of_ne _ _ (by omega)]

end Bits

/-! ### What a call does -/

/-- The metadata of a mounted file system without inodes in memory. -/
structure Metadata (maxFsBlocks : ℕ) (s : FsState) : Prop where
  layout : Layout s
  stored : Stored s
  inodes : s.sb.usedInodeCount = s.inodeFreemap.allocated.card
  blocks : s.sb.usedBlockCount = s.blockFreemap.allocated.card
  limit : s.sb.maxFsBlocks = maxFsBlocks
  table : ∀ i, s.inodeHashTable i = none

/-- The states that a call can leave behind. -/
inductive SuperOp.Effect (s : FsState) : SuperOp → FsState → Prop
  | take {idx : ℕ} (hidx : idx < nrDataBlocks) (hclear : s.blockFreemap.bit idx = false) :
    Effect s .allocBlock (s.takeBlock idx)
  | full : Effect s .allocBlock s.failAlloc
  | release {idx : ℕ} (hidx : idx ∈ s.blockFreemap.allocated) :
    Effect s (.freeBlock (firstDataBlock + idx : ℕ)) (s.releaseBlock idx)
  | mark {idx : ℕ} (hidx : idx < s.inodeFreemap.nbits) (hclear : s.inodeFreemap.bit idx = false) :
    Effect s .getInodeFreemap (s.putInodeBit idx true (s.sb.usedInodeCount + 1))
  | noInode : Effect s .getInodeFreemap s
  | unmark {idx : ℕ} (hidx : idx ∈ s.inodeFreemap.allocated) :
    Effect s (.putInodeFreemap idx) (s.putInodeBit idx false (s.sb.usedInodeCount - 1))

section Effect

variable {s t : FsState} {maxFsBlocks : ℕ} {op : SuperOp}

theorem SuperOp.step_of_run (h : op.call.run s = .ok ((), t)) : op.step s = some t := by
  rw [SuperOp.step, h]
  rfl

/-- A call that releases only what is in use returns. -/
theorem Metadata.effect (h : Metadata maxFsBlocks s) (hop : op.ReleasesUsed s) :
    ∃ t, op.step s = some t ∧ op.Effect s t := by
  cases op with
  | allocBlock =>
    rcases testfsAllocBlock_spec h.layout with ⟨idx, hidx, hclear, -, hrun⟩ | ⟨hrun, -⟩
    · exact ⟨_, SuperOp.step_of_run (Program.discard_run hrun), .take hidx hclear⟩
    · exact ⟨_, SuperOp.step_of_run (Program.discard_run hrun), .full⟩
  | freeBlock blockNr =>
    obtain ⟨idx, hidx, rfl⟩ := hop
    have hmem := Bitmap.mem_allocated.mp hidx
    rw [h.layout.blockBits] at hmem
    rw [h.layout.dataBlocksStart]
    have hpos : 0 < s.sb.usedBlockCount := by
      rw [h.blocks]
      exact Finset.card_pos.mpr ⟨idx, hidx⟩
    have hrun := testfsFreeBlock_run h.layout hmem.1 hmem.2 hpos
    exact ⟨_, SuperOp.step_of_run (Program.discard_run hrun), .release hidx⟩
  | getInodeFreemap =>
    rcases testfsGetInodeFreemap_spec h.layout with ⟨idx, hidx, hclear, -, hrun⟩ | ⟨hrun, -⟩
    · exact ⟨_, SuperOp.step_of_run (Program.discard_run hrun), .mark hidx hclear⟩
    · exact ⟨_, SuperOp.step_of_run (Program.discard_run hrun), .noInode⟩
  | putInodeFreemap idx =>
    have hmem := Bitmap.mem_allocated.mp hop
    have hpos : 0 < s.sb.usedInodeCount := by
      rw [h.inodes]
      exact Finset.card_pos.mpr ⟨idx, hop⟩
    exact ⟨_, SuperOp.step_of_run (testfsPutInodeFreemap_run hmem.1 hmem.2 hpos), .unmark hop⟩

/-- Changing a bit of the block freemap with the count. -/
theorem Metadata.putBlockBit (h : Metadata maxFsBlocks s) {idx used : ℕ} {value : Bool}
    (hidx : idx < nrDataBlocks) (hused : used = (s.blockFreemap.put idx value).allocated.card) :
    Metadata maxFsBlocks (s.putBlockBit idx value used) :=
  ⟨h.layout.putBlockBit hidx, h.stored.putBlockBit h.layout hidx, h.inodes, hused, h.limit, h.table⟩

/-- Changing a bit of the inode freemap with the count. -/
theorem Metadata.putInodeBit (h : Metadata maxFsBlocks s) {idx used : ℕ} {value : Bool}
    (hidx : idx < s.inodeFreemap.nbits)
    (hused : used = (s.inodeFreemap.put idx value).allocated.card) :
    Metadata maxFsBlocks (s.putInodeBit idx value used) :=
  ⟨h.layout.putInodeBit hidx, h.stored.putInodeBit h.layout hidx, hused, h.blocks, h.limit, h.table⟩

/-- Zeroing a data block. -/
theorem Metadata.zero (h : Metadata maxFsBlocks s) (idx : ℕ) :
    Metadata maxFsBlocks { s with dev := s.dev.put (s.sb.dataBlocksStart + idx) Block.zero } := by
  have hdata : firstDataBlock ≤ s.sb.dataBlocksStart + idx := by
    rw [h.layout.dataBlocksStart]
    exact Nat.le_add_right _ _
  refine ⟨⟨h.layout.inodeFreemapStart, h.layout.blockFreemapStart, h.layout.inodeBlocksStart,
    h.layout.dataBlocksStart, h.layout.inodeBits, h.layout.blockBits, ?_⟩,
    h.stored.putData h.layout hdata _, h.inodes, h.blocks, h.limit, h.table⟩
  exact h.layout.devLen.trans (Device.len_le_put _ _ _)

/-- Every call keeps the metadata written through. -/
theorem SuperOp.Effect.metadata (he : op.Effect s t) (h : Metadata maxFsBlocks s) :
    Metadata maxFsBlocks t := by
  cases he with
  | @take idx hidx hclear =>
    refine h.putBlockBit hidx ?_
    have hnot : idx ∉ s.blockFreemap.allocated := by simp [Bitmap.mem_allocated, hclear]
    rw [Bitmap.allocated_put_true (by rw [h.layout.blockBits]; exact hidx),
      Finset.card_insert_of_notMem hnot, h.blocks]
  | full =>
    exact ⟨⟨h.layout.inodeFreemapStart, h.layout.blockFreemapStart, h.layout.inodeBlocksStart,
      h.layout.dataBlocksStart, h.layout.inodeBits, h.layout.blockBits, h.layout.devLen⟩,
      ⟨h.stored.super, h.stored.inodeFreemap, h.stored.blockFreemap⟩, h.inodes, h.blocks, h.limit,
      h.table⟩
  | @release idx hidx =>
    have hmem := Bitmap.mem_allocated.mp hidx
    rw [h.layout.blockBits] at hmem
    refine (h.zero idx).putBlockBit hmem.1 ?_
    change s.sb.usedBlockCount - 1 = (s.blockFreemap.put idx false).allocated.card
    rw [Bitmap.allocated_put_false, Finset.card_erase_of_mem hidx, h.blocks]
  | @mark idx hidx hclear =>
    refine h.putInodeBit hidx ?_
    have hnot : idx ∉ s.inodeFreemap.allocated := by simp [Bitmap.mem_allocated, hclear]
    rw [Bitmap.allocated_put_true hidx, Finset.card_insert_of_notMem hnot, h.inodes]
  | noInode => exact h
  | @unmark idx hidx =>
    refine h.putInodeBit (Bitmap.mem_allocated.mp hidx).1 ?_
    rw [Bitmap.allocated_put_false, Finset.card_erase_of_mem hidx, h.inodes]

/-- A call writes metadata and the block it releases, which becomes zero, and nothing else. -/
theorem SuperOp.Effect.blocks (he : op.Effect s t) (h : Metadata maxFsBlocks s) {b : ℕ}
    (hb : ¬ s.IsMetadata b) :
    (op.Releases b → t.dev.blocks b = Block.zero) ∧
      (¬ op.Releases b → t.dev.blocks b = s.dev.blocks b) := by
  cases he with
  | @take idx hidx hclear => exact ⟨False.elim, fun _ ↦ kept_putBlockBit hidx hb⟩
  | full => exact ⟨False.elim, fun _ ↦ rfl⟩
  | @release idx hidx =>
    have hmem := Bitmap.mem_allocated.mp hidx
    rw [h.layout.blockBits] at hmem
    have hkept : (s.releaseBlock idx).dev.blocks b =
        (s.dev.put (firstDataBlock + idx) Block.zero).blocks b := by
      rw [FsState.releaseBlock, ← h.layout.dataBlocksStart]
      exact kept_putBlockBit hmem.1 hb
    rw [hkept]
    constructor
    · intro hrel
      rw [← Int.ofNat.inj hrel, Device.blocks_put_self]
    · intro hrel
      exact Device.blocks_put_of_ne _ _ fun heq ↦ hrel (by rw [heq]; rfl)
  | @mark idx hidx hclear => exact ⟨False.elim, fun _ ↦ kept_putInodeBit h.layout hidx hb⟩
  | noInode => exact ⟨False.elim, fun _ ↦ rfl⟩
  | @unmark idx hidx =>
    exact ⟨False.elim, fun _ ↦ kept_putInodeBit h.layout (Bitmap.mem_allocated.mp hidx).1 hb⟩

end Effect

/-! ### Mounting at any moment -/

/-- The super block and the bitmaps in memory are the same. -/
structure SameMetadata (s t : FsState) : Prop where
  sb : t.sb = s.sb
  inodeBits : t.inodeFreemap.nbits = s.inodeFreemap.nbits
  inodeWords : ∀ k < s.inodeFreemap.words, t.inodeFreemap.v k = s.inodeFreemap.v k
  blockBits : t.blockFreemap.nbits = s.blockFreemap.nbits
  blockWords : ∀ k < s.blockFreemap.words, t.blockFreemap.v k = s.blockFreemap.v k

section Mounting

variable {s t : FsState} {maxFsBlocks : ℕ}

/-- The words of a freemap that is read are those that were written. -/
theorem v_loadFreemap {nbits nr k : ℕ} {blocks : ℕ → Block} {b : Bitmap}
    (h : ∀ n < nr, blocks n = freemapBlock b n) (hk : k < nr * blockSize) :
    (loadFreemap nbits blocks).v k = b.v k := by
  have hlt : k / blockSize < nr := Nat.div_lt_of_lt_mul (by rwa [mul_comm])
  rw [loadFreemap]
  simp only
  rw [h _ hlt, freemapBlock, Block.byte_ofBytes (Nat.mod_lt _ (by decide)), mul_comm,
    Nat.div_add_mod]

/-- Mounting a device that stores the metadata of `s`. -/
theorem Metadata.mounted (h : Metadata maxFsBlocks s) {u : FsState}
    (hinode : ∀ k < inodeFreemapSize,
      u.dev.blocks (s.sb.inodeFreemapStart + k) = freemapBlock s.inodeFreemap k)
    (hblock : ∀ k < blockFreemapSize,
      u.dev.blocks (s.sb.blockFreemapStart + k) = freemapBlock s.blockFreemap k) :
    SameMetadata s (u.mounted s.sb) := by
  refine ⟨rfl, h.layout.inodeBits.symm, ?_, h.layout.blockBits.symm, ?_⟩
  · intro k hk
    rw [inodeFreemap_mounted]
    refine v_loadFreemap hinode ?_
    rw [Bitmap.words, h.layout.inodeBits] at hk
    simp only [blockSize, inodeFreemapSize, bitsPerWord] at *
    omega
  · intro k hk
    rw [blockFreemap_mounted]
    refine v_loadFreemap hblock ?_
    rw [Bitmap.words, h.layout.blockBits] at hk
    simp only [nrDataBlocks, blockSize, blockFreemapSize, bitsPerWord] at *
    omega

theorem Metadata.fits (h : Metadata maxFsBlocks s) (hmax : maxFsBlocks ≤ nrDataBlocks) :
    s.sb.Fits := by
  have hblocks : s.blockFreemap.allocated.card ≤ nrDataBlocks := by
    refine (Finset.card_filter_le _ _).trans ?_
    rw [Finset.card_range, h.layout.blockBits]
  exact DsuperBlock.fits_of_le h.layout.inodeFreemapStart h.layout.blockFreemapStart
    h.layout.inodeBlocksStart h.layout.dataBlocksStart (h.inodes.le.trans h.layout.card_inodes_le)
    (h.blocks.le.trans hblocks) (h.limit.le.trans hmax)

/-- `testfs_init_super_block` at any moment. -/
theorem Metadata.init (h : Metadata maxFsBlocks s) (hmax : maxFsBlocks ≤ nrDataBlocks) :
    ∃ t, testfsInitSuperBlock.run s = .ok ((), t) ∧ SameMetadata s t :=
  ⟨_, testfsInitSuperBlock_run h.layout.devLen h.stored.super (h.fits hmax)
    h.layout.inodeFreemapStart h.layout.blockFreemapStart,
    h.mounted h.stored.inodeFreemap h.stored.blockFreemap⟩

/-- `testfs_close_super_block` and `testfs_init_super_block` after it. -/
theorem Metadata.closeInit (h : Metadata maxFsBlocks s) (hmax : maxFsBlocks ≤ nrDataBlocks) :
    ∃ u t, testfsCloseSuperBlock.run s = .ok ((), u) ∧ testfsInitSuperBlock.run u = .ok ((), t) ∧
      SameMetadata s t := by
  have hlen := h.layout.devLen.trans (closedDev_len s)
  refine ⟨_, _, testfsCloseSuperBlock_run h.table, testfsInitSuperBlock_run hlen
    (closedDev_super h.layout) (h.fits hmax) h.layout.inodeFreemapStart h.layout.blockFreemapStart,
    h.mounted ?_ fun k hk ↦ closedDev_blockFreemap hk⟩
  intro k hk
  obtain rfl : k = 0 := by
    simp only [inodeFreemapSize] at hk
    omega
  exact closedDev_inodeFreemap h.layout

end Mounting

/-! ### Runs -/

/-- A file system made by `mktestfs` and mounted, and every state that calls which release only
what is in use lead to. -/
def SuperRun (maxFsBlocks : ℕ) (s : FsState) : Prop :=
  ∃ u s₀, mktestfs.run (testfsMakeSuperBlock maxFsBlocks) = .ok ((), u) ∧
    testfsInitSuperBlock.run u = .ok ((), s₀) ∧ Reaches SuperOp.ReleasesUsed SuperOp.step s₀ s

section Runs

variable {s : FsState} {maxFsBlocks : ℕ}

theorem mktestfs_metadata (hmax : maxFsBlocks ≤ nrDataBlocks) :
    ∃ u s₀, mktestfs.run (testfsMakeSuperBlock maxFsBlocks) = .ok ((), u) ∧
      testfsInitSuperBlock.run u = .ok ((), s₀) ∧ Metadata maxFsBlocks s₀ := by
  obtain ⟨s, u, s₀, hmk, hinit, -, hlimit, hre⟩ := mktestfs_spec hmax
  refine ⟨u, s₀, hmk, hinit, hre.sound.core.layout, hre.stored, hre.sound.inodes,
    hre.sound.core.used, ?_, hre.empty⟩
  rw [hre.sb, hlimit]

/-- The metadata is written through in every state of a run. -/
theorem SuperRun.metadata (hmax : maxFsBlocks ≤ nrDataBlocks) (h : SuperRun maxFsBlocks s) :
    Metadata maxFsBlocks s := by
  obtain ⟨u, s₀, hmk, hinit, hrun⟩ := h
  obtain ⟨u', s₁, hmk', hinit', hmeta⟩ := mktestfs_metadata hmax
  obtain ⟨-, rfl⟩ := Prod.mk.inj (Except.ok.inj (hmk'.symm.trans hmk))
  obtain ⟨-, rfl⟩ := Prod.mk.inj (Except.ok.inj (hinit'.symm.trans hinit))
  refine hrun.invariant (fun s op t h hop hstep ↦ ?_) hmeta
  obtain ⟨t', hstep', heffect⟩ := h.effect hop
  obtain rfl := Option.some.inj (hstep'.symm.trans hstep)
  exact heffect.metadata h

/-- Assumes: a file system of at most as many blocks as its freemap has bits, as `mktestfs` makes
it, mounted, and any calls that release only what is in use. Then the metadata on disk is that in
memory and the counts are right; every further call returns, keeps it so, and writes no block
beside the metadata and the block it releases; and mounting the device, at once or after closing
it, gives the same metadata in memory. -/
theorem metadata_written_through (hmax : maxFsBlocks ≤ nrDataBlocks)
    (hrun : SuperRun maxFsBlocks s) :
    Stored s ∧ s.sb.usedInodeCount = s.inodeFreemap.allocated.card ∧
    s.sb.usedBlockCount = s.blockFreemap.allocated.card ∧
    (∀ op, SuperOp.ReleasesUsed s op → ∃ t, SuperOp.step s op = some t ∧ Stored t ∧
      ∀ b, ¬ s.IsMetadata b → (op.Releases b → t.dev.blocks b = Block.zero) ∧
        (¬ op.Releases b → t.dev.blocks b = s.dev.blocks b)) ∧
    (∃ t, testfsInitSuperBlock.run s = .ok ((), t) ∧ SameMetadata s t) ∧
    ∃ u t, testfsCloseSuperBlock.run s = .ok ((), u) ∧ testfsInitSuperBlock.run u = .ok ((), t) ∧
      SameMetadata s t := by
  have h := hrun.metadata hmax
  refine ⟨h.stored, h.inodes, h.blocks, fun op hop ↦ ?_, h.init hmax, h.closeInit hmax⟩
  obtain ⟨t, hstep, heffect⟩ := h.effect hop
  exact ⟨t, hstep, (heffect.metadata h).stored, fun b hb ↦ heffect.blocks h hb⟩

/-- One allocation on a new file system of the largest size. -/
theorem metadata_written_through_alloc : ∃ s, SuperRun nrDataBlocks s ∧ Stored s ∧
    ∃ t, testfsInitSuperBlock.run s = .ok ((), t) ∧ SameMetadata s t := by
  obtain ⟨u, s₀, hmk, hinit, hmeta⟩ := mktestfs_metadata (le_refl nrDataBlocks)
  obtain ⟨s, hstep, -⟩ := hmeta.effect (show SuperOp.ReleasesUsed s₀ .allocBlock from trivial)
  have hrun : SuperRun nrDataBlocks s :=
    ⟨u, s₀, hmk, hinit, Relation.ReflTransGen.single ⟨.allocBlock, trivial, hstep⟩⟩
  have h := metadata_written_through le_rfl hrun
  exact ⟨s, hrun, h.1, h.2.2.2.2.1⟩

end Runs

end OperatingSystems.Fs
